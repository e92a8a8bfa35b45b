import Mathlib.Data.List.Infix
import ZkChat.Js.JsonBig

set_option autoImplicit false

/-! # What `JSONBig.parse` reads back

`JSONBig` writes a bigint as its digits and reads a bigint from digits if they are more than fifteen
characters. A value comes back as it was exactly if all its bigints are that long
(`reread_eq_asIs_iff`); the shorter ones come back as numbers. -/

namespace ZkChat.Js

/-- The values that are read. -/
inductive BigValue where
  | null
  | bool (b : Bool)
  | num (x : Number)
  | bigint (n : ℤ)
  | str (s : String)
  | arr (xs : List BigValue)
  | obj (fields : List (String × BigValue))

namespace BigValue

/-! ## Conversions -/

/-- A property access on a value that may be `undefined`. -/
def prop (v : Option BigValue) (key : String) : Except Exn (Option BigValue) :=
  match v with
  | none | some .null => .error .typeError
  | some (.obj fields) => .ok (fields.lookup key)
  | some _ => .ok none

/-- `v === w`. Two arrays, and two objects, that were read are never the same one. -/
def strictEq : Option BigValue → Option BigValue → Bool
  | none, none => true
  | some .null, some .null => true
  | some (.bool b), some (.bool c) => b = c
  | some (.num x), some (.num y) => x ≠ .nan ∧ x = y
  | some (.bigint m), some (.bigint n) => m = n
  | some (.str s), some (.str t) => s = t
  | _, _ => false

mutual

/-- The text of the value in a template literal. Objects that were read have no prototype, and so
    no `toString`. -/
def text : BigValue → Except Exn String
  | .null => .ok "null"
  | .bool b => .ok (toString b)
  | .num x => .ok (numberToString x)
  | .bigint n => .ok (bigIntToString n)
  | .str s => .ok s
  | .arr xs => (elementTexts xs).map (String.intercalate ",")
  | .obj _ => .error .typeError

/-- The texts between the commas: `null` is the empty text. -/
def elementTexts : List BigValue → Except Exn (List String)
  | [] => .ok []
  | .null :: xs => (elementTexts xs).map ("" :: ·)
  | x :: xs => do
      let t ← x.text
      let ts ← elementTexts xs
      pure (t :: ts)

end

/-- The same of a value that may be `undefined`. -/
def templateText : Option BigValue → Except Exn String
  | none => .ok "undefined"
  | some v => v.text

/-- `BigInt(value)`. -/
def toBigInt : Option BigValue → Except Exn ℤ
  | none | some .null => .error .typeError
  | some (.bool b) => .ok (if b then 1 else 0)
  | some (.num (.finite q)) => if q.den = 1 then .ok q.num else .error .rangeError
  | some (.num _) => .error .rangeError
  | some (.bigint n) => .ok n
  | some v => v.text.bind bigIntOfText

@[simp] theorem strictEq_bigint (m n : ℤ) :
    strictEq (some (.bigint m)) (some (.bigint n)) = decide (m = n) := rfl

@[simp] theorem templateText_bigint (n : ℤ) :
    templateText (some (.bigint n)) = .ok (bigIntToString n) := rfl

end BigValue

namespace BigJson

/-! ## The value that is read -/

/-- What an integer literal is read as, from its number of characters. -/
def rereadInteger (length : ℕ) (n : ℤ) : BigValue :=
  if 15 < length then .bigint n else .num (.finite n)

mutual

/-- The value that comes back. -/
def reread : BigJson → BigValue
  | .str s => .str s
  | .bigint n => rereadInteger (bigIntToString n).length n
  | .arr xs => .arr (rereadElements xs)
  | .obj fields => .obj (rereadFields fields)

def rereadElements : List BigJson → List BigValue
  | [] => []
  | x :: xs => x.reread :: rereadElements xs

def rereadFields : List (String × BigJson) → List (String × BigValue)
  | [] => []
  | (key, v) :: fields => (key, v.reread) :: rereadFields fields

end

mutual

/-- The value itself. -/
def asIs : BigJson → BigValue
  | .str s => .str s
  | .bigint n => .bigint n
  | .arr xs => .arr (asIsElements xs)
  | .obj fields => .obj (asIsFields fields)

def asIsElements : List BigJson → List BigValue
  | [] => []
  | x :: xs => x.asIs :: asIsElements xs

def asIsFields : List (String × BigJson) → List (String × BigValue)
  | [] => []
  | (key, v) :: fields => (key, v.asIs) :: asIsFields fields

end

mutual

/-- The bigints in a value. -/
def bigints : BigJson → List ℤ
  | .str _ => []
  | .bigint n => [n]
  | .arr xs => bigintsElements xs
  | .obj fields => bigintsFields fields

def bigintsElements : List BigJson → List ℤ
  | [] => []
  | x :: xs => x.bigints ++ bigintsElements xs

def bigintsFields : List (String × BigJson) → List ℤ
  | [] => []
  | (_, v) :: fields => v.bigints ++ bigintsFields fields

end

mutual

/-- The keys of the objects in a value. -/
def keys : BigJson → List String
  | .str _ | .bigint _ => []
  | .arr xs => keysElements xs
  | .obj fields => keysFields fields

def keysElements : List BigJson → List String
  | [] => []
  | x :: xs => x.keys ++ keysElements xs

def keysFields : List (String × BigJson) → List String
  | [] => []
  | (key, v) :: fields => key :: v.keys ++ keysFields fields

end

theorem bigints_arr_map {α : Type} (f : α → BigJson) (xs : List α) :
    (arr (xs.map f)).bigints = xs.flatMap fun a => (f a).bigints := by
  rw [bigints]
  induction xs with
  | nil => rfl
  | cons x xs ih => rw [List.map_cons, bigintsElements, ih, List.flatMap_cons]

theorem keys_arr_map {α : Type} {f : α → BigJson} (h : ∀ a, (f a).keys = []) (xs : List α) :
    (arr (xs.map f)).keys = [] := by
  rw [keys]
  induction xs with
  | nil => rfl
  | cons x xs ih => rw [List.map_cons, keysElements, ih, h x, List.nil_append]

/-- The digits are read as a bigint. -/
def Long (n : ℤ) : Prop := 15 < (bigIntToString n).length

instance (n : ℤ) : Decidable (Long n) := inferInstanceAs (Decidable (_ < _))

theorem rereadInteger_of_long {n : ℤ} (h : Long n) :
    rereadInteger (bigIntToString n).length n = .bigint n := if_pos h

theorem rereadInteger_of_not_long {n : ℤ} (h : ¬ Long n) :
    rereadInteger (bigIntToString n).length n = .num (.finite n) := if_neg h

theorem rereadInteger_eq_bigint_iff (n : ℤ) :
    rereadInteger (bigIntToString n).length n = .bigint n ↔ Long n := by
  by_cases h : Long n
  · exact iff_of_true (rereadInteger_of_long h) h
  · rw [rereadInteger_of_not_long h]
    exact iff_of_false (fun heq => by cases heq) h

mutual

/-- A value comes back as it was if and only if all its bigints are long. -/
theorem reread_eq_asIs_iff : ∀ v : BigJson, v.reread = v.asIs ↔ ∀ n ∈ v.bigints, Long n
  | .str s => by simp [reread, asIs, bigints]
  | .bigint n => by
      rw [reread, asIs, bigints, rereadInteger_eq_bigint_iff, List.forall_mem_singleton]
  | .arr xs => by
      rw [reread, asIs, bigints, BigValue.arr.injEq]
      exact rereadElements_eq_asIs_iff xs
  | .obj fields => by
      rw [reread, asIs, bigints, BigValue.obj.injEq]
      exact rereadFields_eq_asIs_iff fields

theorem rereadElements_eq_asIs_iff : ∀ xs : List BigJson,
    rereadElements xs = asIsElements xs ↔ ∀ n ∈ bigintsElements xs, Long n
  | [] => by simp [rereadElements, asIsElements, bigintsElements]
  | x :: xs => by
      rw [rereadElements, asIsElements, bigintsElements, List.cons.injEq, List.forall_mem_append,
        reread_eq_asIs_iff x, rereadElements_eq_asIs_iff xs]

theorem rereadFields_eq_asIs_iff : ∀ fields : List (String × BigJson),
    rereadFields fields = asIsFields fields ↔ ∀ n ∈ bigintsFields fields, Long n
  | [] => by simp [rereadFields, asIsFields, bigintsFields]
  | (key, v) :: fields => by
      rw [rereadFields, asIsFields, bigintsFields, List.cons.injEq, List.forall_mem_append,
        Prod.mk.injEq, reread_eq_asIs_iff v, rereadFields_eq_asIs_iff fields, eq_self, true_and]

end

end BigJson

/-! ## The library -/

/-- Keys that could reach the prototype of an object are refused. -/
def AllowedKey (key : String) : Prop :=
  ¬ "__proto__".toList <:+: key.toList ∧ ¬ "constructor".toList <:+: key.toList

instance (key : String) : Decidable (AllowedKey key) := inferInstanceAs (Decidable (_ ∧ _))

/-- `JSONBig({ useNativeBigInt: true })`: its way of quoting strings, and its parser. -/
structure JSONBig where
  quote : String → List Char
  /-- `none` is its `SyntaxError`. -/
  parse : String → Option BigValue
  /-- Digits of more than fifteen characters are read as a bigint, others as a number. -/
  parse_stringify : ∀ v : BigJson, v.KeysDiffer → (∀ key ∈ v.keys, AllowedKey key) →
    parse (v.stringify quote) = some v.reread

/-! ## A reader

Of texts of strings, integers, arrays and objects without spaces, which are all that
`JSONBig.stringify` writes. It shows that there is such a library. -/

def isIntegerChar (c : Char) : Bool := c.isDigit || c = '-'

def readInteger (cs : List Char) : Option (BigValue × List Char) :=
  let literal := cs.takeWhile isIntegerChar
  if literal = [] then none
  else (stringToBigInt (String.ofList literal)).map fun n =>
    (BigJson.rereadInteger literal.length n, cs.dropWhile isIntegerChar)

def afterColon : List Char → Option (List Char)
  | ':' :: rest => some rest
  | _ => none

/-- A field that comes before others: a later one of the same name replaces its value. -/
def consField (key : String) (v : BigValue) (fields : List (String × BigValue)) :
    List (String × BigValue) :=
  (key, (fields.lookup key).getD v) :: fields.filter (·.1 ≠ key)

mutual

/-- A value and the rest of the text. The opening bracket is taken for a comma before the first
    element. -/
def readValue : ℕ → List Char → Option (BigValue × List Char)
  | 0, _ => none
  | fuel + 1, cs => match cs with
    | '"' :: rest => (parseString rest).map fun (s, rest) => (.str s, rest)
    | '[' :: ']' :: rest => some (.arr [], rest)
    | '[' :: rest => (readElements fuel (',' :: rest)).map fun (xs, rest) => (.arr xs, rest)
    | '\x7b' :: '\x7d' :: rest => some (.obj [], rest)
    | '\x7b' :: rest =>
        (readFields fuel (',' :: rest)).map fun (fields, rest) => (.obj fields, rest)
    | cs => readInteger cs

def readElements : ℕ → List Char → Option (List BigValue × List Char)
  | fuel + 1, ',' :: rest => do
      let (x, rest) ← readValue fuel rest
      let (xs, rest) ← readElements fuel rest
      some (x :: xs, rest)
  | _ + 1, ']' :: rest => some ([], rest)
  | _, _ => none

def readFields : ℕ → List Char → Option (List (String × BigValue) × List Char)
  | fuel + 1, ',' :: '"' :: rest => do
      let (key, rest) ← parseString rest
      let rest ← afterColon rest
      let (v, rest) ← readValue fuel rest
      let (fields, rest) ← readFields fuel rest
      if AllowedKey key then some (consField key v fields, rest) else none
  | _ + 1, '\x7d' :: rest => some ([], rest)
  | _, _ => none

end

def readText (text : String) : Option BigValue :=
  match readValue (2 * text.toList.length) text.toList with
  | some (v, []) => some v
  | _ => none

theorem cons_intercalate {α : Type} (sep : α) (css : List (List α)) (cs : List α) :
    sep :: [sep].intercalate (cs :: css) = (cs :: css).flatMap (sep :: ·) := by
  induction css generalizing cs with
  | nil => simp
  | cons cs' css ih =>
      rw [intercalate_cons_cons, List.flatMap_cons, ← ih cs', List.cons_append]

theorem isIntegerChar_bigIntToString (n : ℤ) :
    ∀ c ∈ (bigIntToString n).toList, isIntegerChar c := by
  intro c hc
  rcases isDigit_or_minus hc with hdigit | rfl
  · rw [isIntegerChar, hdigit, Bool.true_or]
  · decide

theorem EndsNumber.not_isIntegerChar {rest : List Char} (hrest : EndsNumber rest) {c : Char}
    (hc : rest.head? = some c) : isIntegerChar c = false := by
  have hend : c = ',' ∨ c = ']' ∨ c = '\x7d' := by simpa using hrest c hc
  rcases hend with rfl | rfl | rfl <;> decide

theorem bigIntToString_toList_ne_nil (n : ℤ) : (bigIntToString n).toList ≠ [] := by
  obtain ⟨c, cs, hcs, -⟩ := (ReadsAs.bigint n).head
  rw [hcs]
  exact List.cons_ne_nil c cs

theorem readInteger_bigIntToString (n : ℤ) {rest : List Char} (hrest : EndsNumber rest) :
    readInteger ((bigIntToString n).toList ++ rest)
      = some (BigJson.rereadInteger (bigIntToString n).length n, rest) := by
  have hstop : rest.takeWhile isIntegerChar = [] ∧ rest.dropWhile isIntegerChar = rest := by
    cases rest with
    | nil => exact ⟨rfl, rfl⟩
    | cons c rest => simp [hrest.not_isIntegerChar rfl]
  have htake : ((bigIntToString n).toList ++ rest).takeWhile isIntegerChar
      = (bigIntToString n).toList := by
    rw [List.takeWhile_append_of_pos (isIntegerChar_bigIntToString n), hstop.1, List.append_nil]
  have hdrop : ((bigIntToString n).toList ++ rest).dropWhile isIntegerChar = rest := by
    rw [List.dropWhile_append_of_pos (isIntegerChar_bigIntToString n), hstop.2]
  simp only [readInteger, htake, hdrop, bigIntToString_toList_ne_nil n, if_false,
    String.ofList_toList, stringToBigInt_bigIntToString, Option.map_some, String.length_toList]

theorem consField_of_not_mem {fields : List (String × BigValue)} {key : String}
    (h : key ∉ fields.map Prod.fst) (v : BigValue) :
    consField key v fields = (key, v) :: fields := by
  have hne : ∀ f ∈ fields, f.1 ≠ key := by
    intro f hf hkey
    exact h (List.mem_map.mpr ⟨f, hf, hkey⟩)
  have hlookup : fields.lookup key = none := by
    rw [List.lookup_eq_none_iff]
    intro f hf
    simpa using (hne f hf).symm
  rw [consField, hlookup, Option.getD_none, List.filter_eq_self.mpr]
  simpa using hne

theorem readValue_array {c : Char} (hclose : c ≠ ']') (fuel : ℕ) (cs : List Char) :
    readValue (fuel + 1) ('[' :: c :: cs)
      = (readElements fuel (',' :: c :: cs)).map fun p => (.arr p.1, p.2) := by
  rw [readValue]
  rintro rest h
  exact hclose (List.cons.inj h).1

theorem readValue_object {c : Char} (hclose : c ≠ '\x7d') (fuel : ℕ) (cs : List Char) :
    readValue (fuel + 1) ('\x7b' :: c :: cs)
      = (readFields fuel (',' :: c :: cs)).map fun p => (.obj p.1, p.2) := by
  rw [readValue]
  rintro rest h
  exact hclose (List.cons.inj h).1

theorem readValue_integer {c : Char} (hc : isIntegerChar c) (fuel : ℕ) (cs : List Char) :
    readValue (fuel + 1) (c :: cs) = readInteger (c :: cs) := by
  rw [readValue]
  all_goals
    rintro rest h
    obtain rfl := (List.cons.inj h).1
    revert hc
    decide

namespace BigJson

theorem rereadFields_keys (fields : List (String × BigJson)) :
    (rereadFields fields).map Prod.fst = fields.map Prod.fst := by
  induction fields with
  | nil => rfl
  | cons f fields ih => rw [rereadFields, List.map_cons, List.map_cons, ih]

/-- What stands between the brackets, with the comma that the loop over the elements starts from. -/
theorem intercalate_body (c : Char) (cs : List Char) (css : List (List Char)) :
    ∃ tail, [','].intercalate ((c :: cs) :: css) = c :: tail ∧
      ((c :: cs) :: css).flatMap (',' :: ·) = ',' :: c :: tail := by
  refine ⟨cs ++ css.flatMap (',' :: ·), ?_, by simp⟩
  simpa using cons_intercalate ',' css (c :: cs)

theorem endsNumber_flatMap (css : List (List Char)) (close : Char) (rest : List Char)
    (hclose : close ∈ [']', '\x7d']) : EndsNumber (css.flatMap (',' :: ·) ++ close :: rest) := by
  intro c hc
  cases css with
  | nil =>
      obtain rfl : close = c := by simpa using hc
      exact List.mem_cons_of_mem _ hclose
  | cons cs css =>
      obtain rfl : ',' = c := by simpa using hc
      exact List.mem_cons_self

mutual

/-- The induction is on the value; the fuel pays for each character twice, as a value and as an
    element of a list. -/
theorem readValue_stringify : ∀ {v : BigJson}, v.KeysDiffer → (∀ key ∈ v.keys, AllowedKey key) →
    ∀ (fuel : ℕ) {rest : List Char}, EndsNumber rest →
      2 * (stringifyChars quote v).length ≤ fuel →
      readValue fuel (stringifyChars quote v ++ rest) = some (v.reread, rest)
  | .str s, _, _, fuel + 1, rest, _, _ => by
      rw [stringifyChars, quote, List.append_assoc, List.cons_append, readValue]
      simp only [List.singleton_append, parseString_quoted, Option.map_some, reread]
  | .bigint n, _, _, fuel + 1, rest, hrest, _ => by
      obtain ⟨c, cs, hcs⟩ := List.exists_cons_of_ne_nil (bigIntToString_toList_ne_nil n)
      have hc : isIntegerChar c := isIntegerChar_bigIntToString n c (by simp [hcs])
      have hread := readInteger_bigIntToString n hrest
      rw [stringifyChars, reread]
      rw [hcs, List.cons_append] at hread ⊢
      rw [readValue_integer hc, hread]
  | .arr [], _, _, fuel + 1, rest, _, _ => rfl
  | .arr (x :: xs), hdiffer, hallowed, fuel + 1, rest, _, hfuel => by
      have hread := @readElements_stringify (x :: xs) hdiffer hallowed fuel rest
      -- the first character of an element closes no list
      obtain ⟨c, cs, hcs, -, hclose, -⟩ := (readsAs quotesStrings_quote hdiffer.1).head
      obtain ⟨tail, hbody, helements⟩ := intercalate_body c cs (stringifyElements quote xs)
      rw [stringifyElements, hcs, helements] at hread
      rw [stringifyChars, stringifyElements, hcs, hbody] at hfuel ⊢
      simp only [List.length_append, List.length_cons, List.length_nil] at hfuel hread
      rw [List.append_assoc, List.cons_append, List.cons_append, readValue_array hclose]
      simp only [List.cons_append, List.nil_append] at hread ⊢
      rw [hread (by omega), reread]
      rfl
  | .obj [], _, _, fuel + 1, rest, _, _ => rfl
  | .obj ((key, v) :: fields), hdiffer, hallowed, fuel + 1, rest, _, hfuel => by
      have hread := @readFields_stringify ((key, v) :: fields) hdiffer.1 hdiffer.2 hallowed fuel
        rest
      obtain ⟨tail, hbody, hfields⟩ := intercalate_body '"'
        (key.toList.flatMap quoteChar ++ ['"'] ++ ':' :: stringifyChars quote v)
        (stringifyFields quote fields)
      have hquote : quote key ++ ':' :: stringifyChars quote v
          = '"' :: (key.toList.flatMap quoteChar ++ ['"'] ++ ':' :: stringifyChars quote v) := rfl
      rw [stringifyFields, hquote, hfields] at hread
      rw [stringifyChars, stringifyFields, hquote, hbody] at hfuel ⊢
      simp only [List.length_append, List.length_cons, List.length_nil] at hfuel hread
      rw [List.append_assoc, List.cons_append, List.cons_append, readValue_object (by decide)]
      simp only [List.cons_append, List.nil_append] at hread ⊢
      rw [hread (by omega), reread]
      rfl
  | v, hdiffer, _, 0, _, _, hfuel => by
      obtain ⟨c, cs, hcs, -⟩ := (readsAs quotesStrings_quote hdiffer).head
      rw [hcs, List.length_cons] at hfuel
      omega

theorem readElements_stringify : ∀ {xs : List BigJson}, KeysDifferElements xs →
    (∀ key ∈ keysElements xs, AllowedKey key) → ∀ (fuel : ℕ) (rest : List Char),
      2 * ((stringifyElements quote xs).flatMap (',' :: ·)).length < fuel →
      readElements fuel ((stringifyElements quote xs).flatMap (',' :: ·) ++ ']' :: rest)
        = some (rereadElements xs, rest)
  | [], _, _, fuel + 1, rest, _ => rfl
  | x :: xs, hdiffer, hallowed, fuel + 1, rest, hfuel => by
      rw [keysElements, List.forall_mem_append] at hallowed
      simp only [stringifyElements, List.flatMap_cons, List.length_append, List.length_cons]
        at hfuel
      have hx := readValue_stringify hdiffer.1 hallowed.1 fuel
        (endsNumber_flatMap (stringifyElements quote xs) ']' rest (by decide)) (by omega)
      have hxs := readElements_stringify hdiffer.2 hallowed.2 fuel rest (by omega)
      simp only [stringifyElements, List.flatMap_cons, List.append_assoc, List.cons_append,
        readElements, hx, hxs, Option.bind_eq_bind, Option.bind_some, rereadElements]

theorem readFields_stringify : ∀ {fields : List (String × BigJson)},
    (fields.map Prod.fst).Nodup → KeysDifferFields fields →
    (∀ key ∈ keysFields fields, AllowedKey key) → ∀ (fuel : ℕ) (rest : List Char),
      2 * ((stringifyFields quote fields).flatMap (',' :: ·)).length < fuel →
      readFields fuel ((stringifyFields quote fields).flatMap (',' :: ·) ++ '\x7d' :: rest)
        = some (rereadFields fields, rest)
  | [], _, _, _, fuel + 1, rest, _ => rfl
  | (key, v) :: fields, hnodup, hdiffer, hallowed, fuel + 1, rest, hfuel => by
      rw [keysFields, List.cons_append, List.forall_mem_cons, List.forall_mem_append] at hallowed
      rw [List.map_cons, List.nodup_cons, ← rereadFields_keys] at hnodup
      simp only [stringifyFields, List.flatMap_cons, List.length_append, List.length_cons]
        at hfuel
      have hv := readValue_stringify hdiffer.1 hallowed.2.1 fuel
        (endsNumber_flatMap (stringifyFields quote fields) '\x7d' rest (by decide))
        (by omega)
      have hfields := readFields_stringify (rereadFields_keys fields ▸ hnodup.2) hdiffer.2
        hallowed.2.2 fuel rest (by omega)
      rw [stringifyFields, quote]
      simp only [List.flatMap_cons, List.append_assoc, List.cons_append, List.nil_append,
        readFields, parseString_quoted, afterColon, hv, hfields, Option.bind_eq_bind,
        Option.bind_some, if_pos hallowed.1, consField_of_not_mem hnodup.1, rereadFields]

end

end BigJson

theorem readText_stringify (v : BigJson) (hdiffer : v.KeysDiffer)
    (hallowed : ∀ key ∈ v.keys, AllowedKey key) :
    readText (v.stringify quote) = some v.reread := by
  have hends : EndsNumber [] := by simp [EndsNumber]
  have hread := BigJson.readValue_stringify hdiffer hallowed
    (2 * (BigJson.stringifyChars quote v).length) hends le_rfl
  rw [List.append_nil] at hread
  rw [readText, BigJson.stringify, String.toList_ofList, hread]

/-- The reader, with the quotes of `JSON.stringify`. -/
def JSONBig.compact : JSONBig where
  quote := Js.quote
  parse := readText
  parse_stringify := readText_stringify

end ZkChat.Js
