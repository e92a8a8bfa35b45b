import Mathlib.Data.List.Basic
import Mathlib.Data.List.TakeDrop
import ZkChat.Js.Json

set_option autoImplicit false

/-! # What `JSON.stringify` writes, `JSON.parse` reads

The round trip (`jsonParse_of_readable`) of all strings, of numbers that are natural and exact, of
arrays, and of objects whose keys differ. The profiles that clients store and the messages that they
send are such values; in a message no character needs an escape (`Plain`). -/

namespace ZkChat.Js

/-! ## Strings -/

/-- No character needs an escape. -/
def Unescaped (s : String) : Prop := ∀ c ∈ s.toList, 0x20 ≤ c.toNat ∧ c ≠ '"' ∧ c ≠ '\\'

instance (s : String) : Decidable (Unescaped s) := List.decidableBAll _ s.toList

/-- The UTF-16 code units of a character. -/
def utf16 (c : Char) : List ℕ :=
  if c.toNat < 0x10000 then [c.toNat]
  else [0xD800 + (c.toNat - 0x10000) / 0x400, 0xDC00 + (c.toNat - 0x10000) % 0x400]

theorem decodeUtf16_cons {u : ℕ} (hu : ¬ (0xD800 ≤ u ∧ u < 0xE000)) (us : List ℕ) :
    decodeUtf16 (u :: us) = Char.ofNat u :: decodeUtf16 us := by
  cases us with
  | nil => simp [decodeUtf16, hu]
  | cons v us =>
      rw [decodeUtf16, if_neg (fun h => hu ⟨h.1, by omega⟩), if_neg hu]

theorem decodeUtf16_utf16 (c : Char) (us : List ℕ) :
    decodeUtf16 (utf16 c ++ us) = c :: decodeUtf16 us := by
  have hvalid : c.toNat < 0xD800 ∨ 0xDFFF < c.toNat ∧ c.toNat < 0x110000 := c.valid
  have hself := Char.ofNat_toNat c
  unfold utf16
  split
  · rw [List.singleton_append, decodeUtf16_cons (by omega), hself]
  · next hge =>
      generalize c.toNat = n at hvalid hself hge
      have hn : 0x10000 + (0xD800 + (n - 0x10000) / 0x400 - 0xD800) * 0x400
          + (0xDC00 + (n - 0x10000) % 0x400 - 0xDC00) = n := by omega
      rw [List.cons_append, List.singleton_append, decodeUtf16, if_pos (by omega), hn, hself]

theorem scanString_cons {c : Char} (hc : 0x20 ≤ c.toNat ∧ c ≠ '"' ∧ c ≠ '\\') (cs : List Char) :
    scanString (c :: cs) = (scanString cs).map fun p => (utf16 c ++ p.1, p.2) := by
  obtain ⟨hspace, hquote, hback⟩ := hc
  rw [scanString]
  · rw [if_neg (by omega)]
    unfold utf16
    cases scanString cs with
    | none => rfl
    | some p =>
        by_cases h : c.toNat < 0x10000
        · simp [h]
        · simp [h]
  · exact hquote
  · rintro - - - - - rfl
    exact absurd rfl hback
  · rintro - - rfl
    exact absurd rfl hback

theorem decodeUtf16_flatMap (cs : List Char) : decodeUtf16 (cs.flatMap utf16) = cs := by
  induction cs with
  | nil => rfl
  | cons c cs ih => rw [List.flatMap_cons, decodeUtf16_utf16, ih]

theorem quoteChar_of_unescaped {c : Char} (h : 0x20 ≤ c.toNat ∧ c ≠ '"' ∧ c ≠ '\\') :
    quoteChar c = [c] := by
  obtain ⟨hspace, hquote, hback⟩ := h
  have hlookup : [(0x8, 'b'), (0x9, 't'), (0xA, 'n'), (0xC, 'f'), (0xD, 'r')].lookup c.toNat
      = none := by
    simp only [List.lookup_eq_none_iff, List.mem_cons, List.not_mem_nil, or_false, forall_eq_or_imp,
      forall_eq, bne_iff_ne, ne_eq]
    omega
  rw [quoteChar, if_neg hquote, if_neg hback, hlookup]
  exact if_neg (by omega)

theorem scanString_escape {e : Char} {u : ℕ} (he : [('"', 0x22), ('\\', 0x5C), ('/', 0x2F),
      ('b', 0x8), ('f', 0xC), ('n', 0xA), ('r', 0xD), ('t', 0x9)].lookup e = some u)
    (cs : List Char) :
    scanString ('\\' :: e :: cs) = (scanString cs).map fun p => (u :: p.1, p.2) := by
  rw [scanString]
  · rw [he]
    cases scanString cs <;> rfl
  · rintro - - - - - rfl
    simp +decide [List.lookup_cons] at he

theorem scanString_unicode {a b c d : Char} {u : ℕ} (hu : hex4 a b c d = some u) (cs : List Char) :
    scanString ('\\' :: 'u' :: a :: b :: c :: d :: cs)
      = (scanString cs).map fun p => (u :: p.1, p.2) := by
  rw [scanString, hu]
  cases scanString cs <;> rfl

theorem control_escapes : ∀ n < 0x20,
    ([(0x8, 'b'), (0x9, 't'), (0xA, 'n'), (0xC, 'f'), (0xD, 'r')].lookup n).all (fun e =>
      [('"', 0x22), ('\\', 0x5C), ('/', 0x2F), ('b', 0x8), ('f', 0xC), ('n', 0xA), ('r', 0xD),
        ('t', 0x9)].lookup e = some n) ∧
    hex4 '0' '0' (hexDigit (n / 16)) (hexDigit (n % 16)) = some n := by
  decide +kernel

theorem scanString_quoteChar (c : Char) (cs : List Char) :
    scanString (quoteChar c ++ cs) = (scanString cs).map fun p => (utf16 c ++ p.1, p.2) := by
  by_cases hquote : c = '"'
  · subst hquote
    exact scanString_escape rfl cs
  by_cases hback : c = '\\'
  · subst hback
    exact scanString_escape rfl cs
  rcases Nat.lt_or_ge c.toNat 0x20 with hlow | hhigh
  · have hutf : utf16 c = [c.toNat] := if_pos (by omega)
    have hc := control_escapes c.toNat hlow
    rw [quoteChar, if_neg hquote, if_neg hback, hutf]
    split
    · next e heq =>
        rw [heq] at hc
        exact scanString_escape (by simpa using hc.1) cs
    · rw [if_pos hlow]
      exact scanString_unicode hc.2 cs
  · rw [quoteChar_of_unescaped ⟨hhigh, hquote, hback⟩]
    exact scanString_cons ⟨hhigh, hquote, hback⟩ cs

theorem scanString_quoted (cs rest : List Char) :
    scanString (cs.flatMap quoteChar ++ '"' :: rest) = some (cs.flatMap utf16, rest) := by
  induction cs with
  | nil => rfl
  | cons c cs ih =>
      rw [List.flatMap_cons, List.append_assoc, scanString_quoteChar, ih]
      rfl

/-- What is left of a quoted text after its opening quote is read back. -/
theorem parseString_quoted (s : String) (rest : List Char) :
    parseString (s.toList.flatMap quoteChar ++ '"' :: rest) = some (s, rest) := by
  rw [parseString, scanString_quoted, Option.map_some]
  simp only [decodeUtf16_flatMap, String.ofList_toList]

/-- Canonical texts of integers are plain. -/
theorem unescaped_bigIntToString (n : ℤ) : Unescaped (bigIntToString n) := by
  intro c hc
  rcases isDigit_or_minus hc with hdigit | rfl
  · have := Char.isDigit_iff_toNat.mp hdigit
    simp only [Char.reduceToNat] at this
    refine ⟨by omega, ?_, ?_⟩
    all_goals
      rintro rfl
      simp at this
  · decide

/-! ## Numbers -/

/-- What follows a value: nothing, or a character that no number goes on with. -/
def EndsNumber (rest : List Char) : Prop := ∀ c ∈ rest.head?, c ∈ [',', ']', '\x7d']

theorem head_toDigits {n : ℕ} (h : (Nat.toDigits 10 n).head? = some '0') : n = 0 := by
  induction n using Nat.strong_induction_on with
  | _ n ih =>
      rcases Nat.lt_or_ge n 10 with hn | hn
      · rw [Nat.toDigits_of_lt_base hn, List.head?_cons, Option.some.injEq] at h
        exact Nat.digitChar_eq_zero.mp h
      · rw [Nat.toDigits_of_base_le (by decide) hn,
          List.head?_append_of_ne_nil _ Nat.toDigits_ne_nil] at h
        have := ih (n / 10) (by omega) h
        omega

theorem EndsNumber.head {rest : List Char} (hrest : EndsNumber rest) {c : Char}
    (hc : rest.head? = some c) : c.isDigit = false ∧ c ≠ '.' ∧ c ≠ 'e' ∧ c ≠ 'E' := by
  have hend : c = ',' ∨ c = ']' ∨ c = '\x7d' := by simpa using hrest c hc
  rcases hend with rfl | rfl | rfl <;> decide

/-- A literal without fraction and exponent is rounded from its integer. -/
theorem scaled_natCast (n : ℕ) : scaled n 0 = nearestDouble n := by
  unfold scaled
  by_cases hzero : n = 0
  · rw [if_pos hzero, hzero]
    exact (nearestDouble_of_isSafe (by decide)).symm
  · rw [if_neg hzero, if_neg (by decide), if_neg (by omega), show pow10 0 = 1 from rfl, mul_one]

theorem nearestDouble_natCast {n : ℕ} (hn : n ≤ 2 ^ 53) : nearestDouble n = .finite n :=
  nearestDouble_of_isSafe ⟨Rat.den_natCast n, by rwa [Rat.num_natCast, Int.natAbs_natCast]⟩

/-- The digits of a natural number are scanned up to what follows them. -/
theorem scanDecimal_toDigits (n : ℕ) {rest : List Char} (hrest : EndsNumber rest) :
    scanDecimal (Nat.toDigits 10 n ++ rest)
      = some (Nat.toDigits 10 n, false, [], nearestDouble n, rest) := by
  have hdigit : ∀ c ∈ Nat.toDigits 10 n, c.isDigit := fun c hc => isDigit_of_mem_toDigits hc
  have hstop : rest.takeWhile Char.isDigit = [] ∧ rest.dropWhile Char.isDigit = rest := by
    cases rest with
    | nil => exact ⟨rfl, rfl⟩
    | cons c rest => simp [(hrest.head rfl).1]
  have hspan : (Nat.toDigits 10 n ++ rest).span Char.isDigit = (Nat.toDigits 10 n, rest) := by
    rw [List.span_eq_takeWhile_dropWhile, List.takeWhile_append_of_pos hdigit,
      List.dropWhile_append_of_pos hdigit, hstop.1, hstop.2, List.append_nil]
  have hfraction : scanFraction rest = (false, [], rest) := by
    unfold scanFraction
    split
    · next cs => exact absurd rfl (hrest.head (c := '.') rfl).2.1
    · rfl
  have hexponent : scanExponent rest = some (0, rest) := by
    unfold scanExponent
    split
    · rfl
    · next c cs => exact if_neg (not_or.mpr (hrest.head (c := c) rfl).2.2)
  simp only [scanDecimal, hspan, hfraction, hexponent, List.append_nil,
    Nat.ofDigitChars_ten_toDigits, List.length_nil, Nat.cast_zero, sub_zero, scaled_natCast]

theorem not_leading_zero (n : ℕ) :
    ¬ ((Nat.toDigits 10 n).head? = some '0' ∧ (Nat.toDigits 10 n).length ≠ 1) := by
  rintro ⟨hhead, hlength⟩
  rw [head_toDigits hhead] at hlength
  exact hlength rfl

theorem parseNumber_nat (n : ℕ) {rest : List Char} (hrest : EndsNumber rest) :
    parseNumber (Nat.toDigits 10 n ++ rest) = some (.num (nearestDouble n), rest) := by
  unfold parseNumber
  split
  · next cs heq =>
      -- no digit is a sign
      have hminus : (Nat.toDigits 10 n ++ rest).head? = some '-' := by rw [heq]; rfl
      rw [List.head?_append_of_ne_nil _ Nat.toDigits_ne_nil] at hminus
      exact absurd (isDigit_of_mem_toDigits (List.mem_of_head? hminus)) (by decide)
  · simp only [scanDecimal_toDigits n hrest, Nat.toDigits_ne_nil, not_leading_zero n, false_and,
      Bool.false_eq_true, or_false, if_false, Option.map_some]

theorem parseNumber_neg (n : ℕ) {rest : List Char} (hrest : EndsNumber rest) :
    parseNumber ('-' :: Nat.toDigits 10 n ++ rest) = some (.num (nearestDouble n).neg, rest) := by
  rw [List.cons_append, parseNumber]
  simp only [scanDecimal_toDigits n hrest, Nat.toDigits_ne_nil, not_leading_zero n, false_and,
    Bool.false_eq_true, or_false, if_false, Option.map_some]

theorem stringifyChars_nat {n : ℕ} (hn : n ≤ 2 ^ 53) :
    stringifyChars (.num (.finite n)) = Nat.toDigits 10 n := by
  have hsafe : IsSafe n := ⟨Rat.den_natCast n, by rwa [Rat.num_natCast, Int.natAbs_natCast]⟩
  rw [stringifyChars, numberToString_of_isSafe hsafe, Rat.num_natCast]
  exact Nat.toList_repr

theorem digit_of_head {n : ℕ} {c : Char} {cs : List Char} (h : Nat.toDigits 10 n = c :: cs) :
    c.isDigit :=
  isDigit_of_mem_toDigits (n := n) (by simp [h])

/-! ## Values -/

mutual

/-- No numbers, no characters that need an escape, no key twice. -/
def Plain : Json → Prop
  | .null => True
  | .bool _ => True
  | .num _ => False
  | .str s => Unescaped s
  | .arr xs => PlainElements xs
  | .obj fields => (fields.map Prod.fst).Nodup ∧ PlainFields fields

def PlainElements : List Json → Prop
  | [] => True
  | x :: xs => Plain x ∧ PlainElements xs

def PlainFields : List (String × Json) → Prop
  | [] => True
  | (key, v) :: fields => Unescaped key ∧ Plain v ∧ PlainFields fields

end

mutual

/-- Numbers are natural and exact, no key is there twice. -/
def Readable : Json → Prop
  | .null => True
  | .bool _ => True
  | .num x => ∃ n : ℕ, n ≤ 2 ^ 53 ∧ x = .finite n
  | .str _ => True
  | .arr xs => ReadableElements xs
  | .obj fields => (fields.map Prod.fst).Nodup ∧ ReadableFields fields

def ReadableElements : List Json → Prop
  | [] => True
  | x :: xs => Readable x ∧ ReadableElements xs

def ReadableFields : List (String × Json) → Prop
  | [] => True
  | (_, v) :: fields => Readable v ∧ ReadableFields fields

end

mutual

theorem Plain.readable : ∀ {v : Json}, Plain v → Readable v
  | .null, _ => trivial
  | .bool _, _ => trivial
  | .num _, h => absurd h (by simp [Plain])
  | .str _, _ => trivial
  | .arr _, h => PlainElements.readable h
  | .obj _, h => ⟨h.1, PlainFields.readable h.2⟩

theorem PlainElements.readable : ∀ {xs : List Json}, PlainElements xs → ReadableElements xs
  | [], _ => trivial
  | _ :: _, h => ⟨h.1.readable, h.2.readable⟩

theorem PlainFields.readable : ∀ {fields : List (String × Json)},
    PlainFields fields → ReadableFields fields
  | [], _ => trivial
  | (_, _) :: _, h => ⟨h.2.1.readable, h.2.2.readable⟩

end

theorem ne_of_isDigit {c d : Char} (hc : c.isDigit) (hd : d.isDigit = false) : c ≠ d := by
  rintro rfl
  rw [hd] at hc
  cases hc

theorem isJsonSpace_of_isDigit {c : Char} (h : c.isDigit) : isJsonSpace c = false := by
  have := Char.isDigit_iff_toNat.mp h
  simp only [Char.reduceToNat] at this
  simp only [isJsonSpace, List.mem_cons, List.not_mem_nil, or_false, decide_eq_false_iff_not]
  omega

/-! ## Texts

What a writer has to write for a value; the rules for arrays and objects are about any writer. -/

/-- After its opening quote the literal is read as the string. -/
def StringText (body : List Char) (s : String) : Prop :=
  ∀ rest, parseString (body ++ rest) = some (s, rest)

/-- The text is read as the value. Its first character is neither a space nor a closing bracket. -/
structure ReadsAs (cs : List Char) (v : Json) : Prop where
  head : ∃ c cs', cs = c :: cs' ∧ isJsonSpace c = false ∧ c ≠ ']' ∧ c ≠ '\x7d'
  parse : ∀ fuel rest, EndsNumber rest → cs.length ≤ fuel →
    parseValue fuel (cs ++ rest) = some (v, rest)

/-- A key and a value. -/
def FieldReadsAs (cs : List Char) (f : String × Json) : Prop :=
  ∃ body text, cs = '"' :: body ++ ':' :: text ∧ StringText body f.1 ∧ ReadsAs text f.2

theorem setField_of_not_mem {fields : List (String × Json)} {key : String}
    (h : key ∉ fields.map Prod.fst) (v : Json) : setField fields key v = fields ++ [(key, v)] := by
  refine if_neg ?_
  simp only [List.any_eq_true, decide_eq_true_eq, not_exists, not_and]
  exact fun f hf hk => h (List.mem_map.mpr ⟨f, hf, hk⟩)

theorem dropWhile_of_head {c : Char} (h : isJsonSpace c = false) (cs : List Char) :
    (c :: cs).dropWhile isJsonSpace = c :: cs := by
  rw [List.dropWhile_cons, h]
  rfl

theorem parseValue_array {c : Char} (h : isJsonSpace c = false) (hclose : c ≠ ']') (fuel : ℕ)
    (cs : List Char) :
    parseValue (fuel + 1) ('[' :: c :: cs) = parseElements fuel [] (c :: cs) := by
  rw [parseValue, dropWhile_of_head (by decide)]
  simp only [dropWhile_of_head h]
  split
  · next heq => exact absurd (List.cons.inj heq).1 hclose
  · rfl

theorem parseValue_object {c : Char} (h : isJsonSpace c = false) (hclose : c ≠ '\x7d') (fuel : ℕ)
    (cs : List Char) :
    parseValue (fuel + 1) ('\x7b' :: c :: cs) = parseFields fuel [] (c :: cs) := by
  rw [parseValue, dropWhile_of_head (by decide)]
  simp only [dropWhile_of_head h]
  split
  · next heq => exact absurd (List.cons.inj heq).1 hclose
  · rfl

theorem parseValue_number {c : Char} (h : c.isDigit ∨ c = '-') (fuel : ℕ) (cs : List Char) :
    parseValue (fuel + 1) (c :: cs) = parseNumber (c :: cs) := by
  have hne : ∀ {d : Char}, d.isDigit = false → d ≠ '-' → c ≠ d := by
    intro d hd hminus
    rcases h with h | rfl
    · exact ne_of_isDigit h hd
    · exact hminus.symm
  have hspace : isJsonSpace c = false := by
    rcases h with h | rfl
    · exact isJsonSpace_of_isDigit h
    · decide
  rw [parseValue, dropWhile_of_head hspace]
  split
  case h_7 => rfl
  all_goals
    next heq => exact absurd (List.cons.inj heq).1 (hne (by decide) (by decide))

theorem intercalate_singleton {α : Type} (sep : α) (cs : List α) :
    [sep].intercalate [cs] = cs := by
  simp [List.intercalate]

theorem intercalate_cons_cons {α : Type} (sep : α) (cs cs' : List α) (css : List (List α)) :
    [sep].intercalate (cs :: cs' :: css) = cs ++ sep :: [sep].intercalate (cs' :: css) := by
  simp [List.intercalate]

namespace ReadsAs

theorem null : ReadsAs "null".toList .null := by
  refine ⟨⟨'n', "ull".toList, rfl, by decide⟩, fun fuel rest _ hlen => ?_⟩
  cases fuel with
  | zero => cases hlen
  | succ fuel => rfl

theorem bool (b : Bool) : ReadsAs (toString b).toList (.bool b) := by
  cases b with
  | true =>
      refine ⟨⟨'t', "rue".toList, rfl, by decide⟩, fun fuel rest _ hlen => ?_⟩
      cases fuel with
      | zero => cases hlen
      | succ fuel => rfl
  | false =>
      refine ⟨⟨'f', "alse".toList, rfl, by decide⟩, fun fuel rest _ hlen => ?_⟩
      cases fuel with
      | zero => cases hlen
      | succ fuel => rfl

theorem str {body : List Char} {s : String} (h : StringText body s) :
    ReadsAs ('"' :: body) (.str s) := by
  refine ⟨⟨'"', body, rfl, by decide⟩, fun fuel rest _ hlen => ?_⟩
  cases fuel with
  | zero => cases hlen
  | succ fuel =>
      rw [List.cons_append, parseValue, dropWhile_of_head (by decide)]
      simp only [h rest, Option.map_some]

/-- A text that starts like a number and is read as one. -/
theorem number {c : Char} {cs : List Char} {x : Number} (hc : c.isDigit ∨ c = '-')
    (h : ∀ rest, EndsNumber rest → parseNumber (c :: cs ++ rest) = some (.num x, rest)) :
    ReadsAs (c :: cs) (.num x) := by
  have hhead : isJsonSpace c = false ∧ c ≠ ']' ∧ c ≠ '\x7d' := by
    rcases hc with hc | rfl
    · exact ⟨isJsonSpace_of_isDigit hc, ne_of_isDigit hc (by decide), ne_of_isDigit hc (by decide)⟩
    · decide
  refine ⟨⟨c, cs, rfl, hhead⟩, fun fuel rest hrest hlen => ?_⟩
  cases fuel with
  | zero => cases hlen
  | succ fuel => rw [List.cons_append, parseValue_number hc, ← List.cons_append, h rest hrest]

/-- The digits of a natural number are rounded to a double. -/
theorem nat (n : ℕ) : ReadsAs (Nat.toDigits 10 n) (.num (nearestDouble n)) := by
  obtain ⟨c, cs, hcs⟩ := List.exists_cons_of_ne_nil (Nat.toDigits_ne_nil (b := 10) (n := n))
  have hparse : ∀ rest, EndsNumber rest →
      parseNumber (Nat.toDigits 10 n ++ rest) = some (.num (nearestDouble n), rest) :=
    fun rest hrest => parseNumber_nat n hrest
  rw [hcs] at hparse ⊢
  exact number (Or.inl (digit_of_head hcs)) hparse

theorem neg (n : ℕ) : ReadsAs ('-' :: Nat.toDigits 10 n) (.num (nearestDouble n).neg) :=
  number (Or.inr rfl) fun _ hrest => parseNumber_neg n hrest

/-- The loop over the elements. -/
theorem parseElements {css : List (List Char)} {xs : List Json} (h : List.Forall₂ ReadsAs css xs)
    (hne : css ≠ []) (fuel : ℕ) (done : List Json) (rest : List Char)
    (hlen : ([','].intercalate css).length < fuel) :
    Js.parseElements fuel done ([','].intercalate css ++ ']' :: rest)
      = some (.arr (done ++ xs), rest) := by
  induction h generalizing fuel done with
  | nil => exact absurd rfl hne
  | @cons cs x css xs hx hxs ih =>
      obtain ⟨fuel, rfl⟩ : ∃ k, fuel = k + 1 := ⟨fuel - 1, by omega⟩
      cases hxs with
      | nil =>
          rw [intercalate_singleton] at hlen ⊢
          rw [Js.parseElements, hx.parse fuel (']' :: rest) (by simp [EndsNumber]) (by omega)]
          rfl
      | @cons cs' y css ys hy hys =>
          rw [intercalate_cons_cons, List.length_append, List.length_cons] at hlen
          rw [intercalate_cons_cons, List.append_assoc, List.cons_append, Js.parseElements,
            hx.parse fuel _ (by simp [EndsNumber]) (by omega)]
          -- the comma pays for the fuel
          have := ih (List.cons_ne_nil _ _) fuel (done ++ [x]) (by omega)
          rw [List.append_assoc, List.singleton_append] at this
          exact this

theorem arr {css : List (List Char)} {xs : List Json} (h : List.Forall₂ ReadsAs css xs) :
    ReadsAs ('[' :: [','].intercalate css ++ [']']) (.arr xs) := by
  refine ⟨⟨'[', _, rfl, by decide⟩, fun fuel rest _ hlen => ?_⟩
  simp only [List.cons_append, List.length_cons, List.length_append, List.length_nil] at hlen
  obtain ⟨fuel, rfl⟩ : ∃ k, fuel = k + 1 := ⟨fuel - 1, by omega⟩
  rw [List.append_assoc, List.cons_append, List.singleton_append]
  cases h with
  | nil => rfl
  | @cons cs x css xs hx hxs =>
      have hparse := parseElements (.cons hx hxs) (List.cons_ne_nil _ _) fuel [] rest (by omega)
      -- the first character of an element closes no list
      obtain ⟨c, cs', rfl, hspace, hclose, -⟩ := hx.head
      have hcons : ∃ tail, [','].intercalate ((c :: cs') :: css) ++ ']' :: rest = c :: tail := by
        cases css with
        | nil => exact ⟨_, by rw [intercalate_singleton]; rfl⟩
        | cons cs'' css => exact ⟨_, by rw [intercalate_cons_cons]; rfl⟩
      obtain ⟨tail, htail⟩ := hcons
      rw [htail] at hparse ⊢
      rw [parseValue_array hspace hclose, hparse, List.nil_append]

/-- The loop over the fields. -/
theorem parseFields {css : List (List Char)} {fields : List (String × Json)}
    (h : List.Forall₂ FieldReadsAs css fields) (hne : css ≠ []) (fuel : ℕ)
    (done : List (String × Json)) (rest : List Char)
    (hnodup : ((done ++ fields).map Prod.fst).Nodup)
    (hlen : ([','].intercalate css).length < fuel) :
    Js.parseFields fuel done ([','].intercalate css ++ '\x7d' :: rest)
      = some (.obj (done ++ fields), rest) := by
  induction h generalizing fuel done with
  | nil => exact absurd rfl hne
  | @cons cs f css fields hf hfs ih =>
      obtain ⟨key, v⟩ := f
      obtain ⟨body, text, rfl, hkey, hv⟩ := hf
      -- a repeated key would overwrite the field that was read before
      have hnew : key ∉ done.map Prod.fst := by
        rw [List.map_append, List.map_cons] at hnodup
        exact fun h => (List.nodup_append.mp hnodup).2.2 _ h _ List.mem_cons_self rfl
      obtain ⟨fuel, rfl⟩ : ∃ k, fuel = k + 1 := ⟨fuel - 1, by omega⟩
      cases hfs with
      | nil =>
          rw [intercalate_singleton] at hlen ⊢
          simp only [List.cons_append, List.append_assoc, List.length_cons, List.length_append]
            at hlen ⊢
          rw [Js.parseFields, dropWhile_of_head (by decide)]
          simp only [hkey (':' :: (text ++ '\x7d' :: rest)), Option.bind_eq_bind, Option.bind_some,
            dropWhile_of_head (c := ':') (by decide),
            hv.parse fuel ('\x7d' :: rest) (by simp [EndsNumber]) (by omega),
            dropWhile_of_head (c := '\x7d') (by decide), setField_of_not_mem hnew]
      | @cons cs' f' css fs hf' hfs' =>
          rw [intercalate_cons_cons] at hlen ⊢
          simp only [List.cons_append, List.append_assoc, List.length_cons, List.length_append]
            at hlen ⊢
          have hnodup' : ((done ++ [(key, v)] ++ f' :: fs).map Prod.fst).Nodup := by
            simpa using hnodup
          have := ih (List.cons_ne_nil _ _) fuel (done ++ [(key, v)]) hnodup' (by omega)
          rw [List.append_assoc, List.singleton_append] at this
          rw [Js.parseFields, dropWhile_of_head (by decide)]
          have hname :=
            hkey (':' :: (text ++ ',' :: ([','].intercalate (cs' :: css) ++ '\x7d' :: rest)))
          simp only [hname, Option.bind_eq_bind, Option.bind_some,
            dropWhile_of_head (c := ':') (by decide),
            hv.parse fuel _ (show EndsNumber (',' :: _) by simp [EndsNumber]) (by omega),
            dropWhile_of_head (c := ',') (by decide), setField_of_not_mem hnew]
          exact this

theorem obj {css : List (List Char)} {fields : List (String × Json)}
    (h : List.Forall₂ FieldReadsAs css fields) (hnodup : (fields.map Prod.fst).Nodup) :
    ReadsAs ('\x7b' :: [','].intercalate css ++ ['\x7d']) (.obj fields) := by
  refine ⟨⟨'\x7b', _, rfl, by decide⟩, fun fuel rest _ hlen => ?_⟩
  simp only [List.cons_append, List.length_cons, List.length_append, List.length_nil] at hlen
  obtain ⟨fuel, rfl⟩ : ∃ k, fuel = k + 1 := ⟨fuel - 1, by omega⟩
  rw [List.append_assoc, List.cons_append, List.singleton_append]
  cases h with
  | nil => rfl
  | @cons cs f css fields hf hfs =>
      have hparse := parseFields (.cons hf hfs) (List.cons_ne_nil _ _) fuel [] rest hnodup
        (by omega)
      obtain ⟨body, text, rfl, -, -⟩ := hf
      have hcons : ∃ tail, [','].intercalate (('"' :: body ++ ':' :: text) :: css) ++ '\x7d' :: rest
          = '"' :: tail := by
        cases css with
        | nil => exact ⟨_, by rw [intercalate_singleton]; rfl⟩
        | cons cs'' css => exact ⟨_, by rw [intercalate_cons_cons]; rfl⟩
      obtain ⟨tail, htail⟩ := hcons
      rw [htail] at hparse ⊢
      rw [parseValue_object (by decide) (by decide), hparse, List.nil_append]

/-- `JSON.parse` of a text of the value. -/
theorem jsonParse {cs : List Char} {v : Json} (h : ReadsAs cs v) :
    Js.jsonParse (String.ofList cs) = some v := by
  have hparse := h.parse (2 * cs.length + 1) [] (by simp [EndsNumber]) (by omega)
  rw [List.append_nil] at hparse
  rw [Js.jsonParse, String.toList_ofList, hparse]
  rfl

end ReadsAs

/-! ## The round trip -/

theorem stringText_quoted (s : String) : StringText (s.toList.flatMap quoteChar ++ ['"']) s := by
  intro rest
  rw [List.append_assoc, List.singleton_append]
  exact parseString_quoted s rest

mutual

theorem Readable.readsAs : ∀ {v : Json}, Readable v → ReadsAs (stringifyChars v) v
  | .null, _ => ReadsAs.null
  | .bool b, _ => ReadsAs.bool b
  | .num _, h => by
      obtain ⟨n, hn, rfl⟩ := h
      rw [stringifyChars_nat hn, ← nearestDouble_natCast hn]
      exact ReadsAs.nat n
  | .str s, _ => by
      rw [stringifyChars, quote, List.cons_append]
      exact ReadsAs.str (stringText_quoted s)
  | .arr _, h => by
      rw [stringifyChars]
      exact ReadsAs.arr (ReadableElements.readsAs h)
  | .obj _, h => by
      rw [stringifyChars]
      exact ReadsAs.obj (ReadableFields.readsAs h.2) h.1

theorem ReadableElements.readsAs : ∀ {xs : List Json},
    ReadableElements xs → List.Forall₂ ReadsAs (stringifyElements xs) xs
  | [], _ => .nil
  | _ :: _, h => .cons h.1.readsAs h.2.readsAs

theorem ReadableFields.readsAs : ∀ {fields : List (String × Json)},
    ReadableFields fields → List.Forall₂ FieldReadsAs (stringifyFields fields) fields
  | [], _ => .nil
  | (key, _) :: _, h =>
      .cons ⟨_, _, by rw [quote]; rfl, stringText_quoted key, h.1.readsAs⟩ h.2.readsAs

end

/-- The round trip. -/
theorem jsonParse_of_readable {v : Json} (hv : Readable v) :
    jsonParse (jsonStringify v) = some v :=
  hv.readsAs.jsonParse

theorem jsonParse_jsonStringify {v : Json} (hv : Plain v) :
    jsonParse (jsonStringify v) = some v :=
  jsonParse_of_readable hv.readable

end ZkChat.Js
