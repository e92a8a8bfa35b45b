import ZkChat.Js.JsonRoundTrip

set_option autoImplicit false

/-! # What `JSONBig.stringify` writes, and `JSON.parse` reads

`JSONBig` writes a bigint as its digits. `JSON.parse` takes them for a number, so that a bigint
arrives as the nearest double. All the rest of the value arrives as it was. -/

namespace ZkChat.Js

/-- The values that are written: strings, bigints, arrays and objects. -/
inductive BigJson where
  | str (s : String)
  | bigint (n : ℤ)
  | arr (xs : List BigJson)
  | obj (fields : List (String × BigJson))

namespace BigJson

section

variable (quote : String → List Char)

mutual

/-- `JSONBig({ useNativeBigInt: true }).stringify`, for its way of quoting strings. -/
def stringifyChars : BigJson → List Char
  | .str s => quote s
  | .bigint n => (bigIntToString n).toList
  | .arr xs => '[' :: [','].intercalate (stringifyElements xs) ++ [']']
  | .obj fields => '\x7b' :: [','].intercalate (stringifyFields fields) ++ ['\x7d']

def stringifyElements : List BigJson → List (List Char)
  | [] => []
  | x :: xs => stringifyChars x :: stringifyElements xs

def stringifyFields : List (String × BigJson) → List (List Char)
  | [] => []
  | (key, v) :: fields => (quote key ++ ':' :: stringifyChars v) :: stringifyFields fields

end

def stringify (v : BigJson) : String := String.ofList (stringifyChars quote v)

end

/-- The number that the digits of an integer are read as. -/
def literalNumber (n : ℤ) : Number :=
  if n < 0 then (nearestDouble n.natAbs).neg else nearestDouble n.natAbs

mutual

/-- The value that arrives. -/
def received : BigJson → Json
  | .str s => .str s
  | .bigint n => .num (literalNumber n)
  | .arr xs => .arr (receivedElements xs)
  | .obj fields => .obj (receivedFields fields)

def receivedElements : List BigJson → List Json
  | [] => []
  | x :: xs => x.received :: receivedElements xs

def receivedFields : List (String × BigJson) → List (String × Json)
  | [] => []
  | (key, v) :: fields => (key, v.received) :: receivedFields fields

end

mutual

/-- No object has a key twice. -/
def KeysDiffer : BigJson → Prop
  | .str _ | .bigint _ => True
  | .arr xs => KeysDifferElements xs
  | .obj fields => (fields.map Prod.fst).Nodup ∧ KeysDifferFields fields

def KeysDifferElements : List BigJson → Prop
  | [] => True
  | x :: xs => x.KeysDiffer ∧ KeysDifferElements xs

def KeysDifferFields : List (String × BigJson) → Prop
  | [] => True
  | (_, v) :: fields => v.KeysDiffer ∧ KeysDifferFields fields

end

theorem receivedFields_keys (fields : List (String × BigJson)) :
    (receivedFields fields).map Prod.fst = fields.map Prod.fst := by
  induction fields with
  | nil => rfl
  | cons f fields ih => rw [receivedFields, List.map_cons, List.map_cons, ih]

theorem keysDifferElements_of_forall {xs : List BigJson} (h : ∀ x ∈ xs, x.KeysDiffer) :
    KeysDifferElements xs := by
  induction xs with
  | nil => trivial
  | cons x xs ih =>
      rw [List.forall_mem_cons] at h
      exact ⟨h.1, ih h.2⟩

theorem keysDiffer_arr_map {α : Type} {f : α → BigJson} (h : ∀ a, (f a).KeysDiffer)
    (xs : List α) : (arr (xs.map f)).KeysDiffer := by
  refine keysDifferElements_of_forall fun x hx => ?_
  obtain ⟨a, -, rfl⟩ := List.mem_map.mp hx
  exact h a

end BigJson

/-! ## Bigints -/

open BigJson

/-- The digits of an integer. -/
theorem ReadsAs.bigint (n : ℤ) :
    ReadsAs (bigIntToString n).toList (.num (literalNumber n)) := by
  cases n with
  | ofNat k =>
      have hpos : ¬ Int.ofNat k < 0 := Int.not_lt.mpr (Int.natCast_nonneg k)
      rw [toList_bigIntToString_ofNat, literalNumber, if_neg hpos]
      exact ReadsAs.nat k
  | negSucc k =>
      rw [toList_bigIntToString_negSucc, literalNumber, if_pos (Int.negSucc_lt_zero k)]
      exact ReadsAs.neg (k + 1)

theorem bigInt_num_eq_ok {x : Number} {n : ℤ} :
    bigInt (some (.num x)) = .ok n ↔ x = .finite n := by
  cases x with
  | finite q =>
      rw [Number.finite.injEq]
      constructor
      · intro h
        rw [bigInt] at h
        split at h
        · next hden =>
            rw [← Except.ok.inj h]
            exact ((Rat.den_eq_one_iff q).mp hden).symm
        · cases h
      · rintro rfl
        rw [bigInt, if_pos (Rat.den_intCast n), Rat.num_intCast]
  | infinity negative => exact iff_of_false nofun nofun
  | nan => exact iff_of_false nofun nofun

/-- `BigInt` of what arrives is the bigint if it is a double. -/
theorem bigInt_literalNumber {n : ℤ} :
    bigInt (some (.num (literalNumber n))) = .ok n ↔ IsDouble n.natAbs := by
  rw [bigInt_num_eq_ok, ← nearestDouble_natCast_iff, literalNumber]
  have habs := Int.natCast_natAbs n
  split
  · next hneg =>
      have hcast : (n : ℚ) = -(n.natAbs : ℚ) := by
        rw [abs_of_neg hneg] at habs
        rw [← Int.cast_natCast, habs, Int.cast_neg, neg_neg]
      rw [hcast]
      cases nearestDouble n.natAbs with
      | finite q => simp only [Number.neg, Number.finite.injEq, neg_inj]
      | infinity negative => exact iff_of_false nofun nofun
      | nan => exact iff_of_false nofun nofun
  · next hpos =>
      have hcast : (n : ℚ) = (n.natAbs : ℚ) := by
        rw [abs_of_nonneg (Int.not_lt.mp hpos)] at habs
        rw [← Int.cast_natCast, habs]
      rw [hcast]

/-! ## Values -/

/-- `JSON.parse` reads a quoted string back. -/
def QuotesStrings (quote : String → List Char) : Prop :=
  ∀ s, ∃ body, quote s = '"' :: body ∧ StringText body s

/-- `JSON.stringify` quotes them so. -/
theorem quotesStrings_quote : QuotesStrings quote :=
  fun s => ⟨_, rfl, stringText_quoted s⟩

section

variable {quote : String → List Char}

mutual

theorem BigJson.readsAs (hquote : QuotesStrings quote) : ∀ {v : BigJson}, v.KeysDiffer →
    ReadsAs (stringifyChars quote v) v.received
  | .str s, _ => by
      obtain ⟨body, hbody, htext⟩ := hquote s
      rw [stringifyChars, hbody]
      exact ReadsAs.str htext
  | .bigint n, _ => ReadsAs.bigint n
  | .arr _, h => by
      rw [stringifyChars]
      exact ReadsAs.arr (BigJson.readsAs_elements hquote h)
  | .obj fields, h => by
      rw [stringifyChars]
      exact ReadsAs.obj (BigJson.readsAs_fields hquote h.2) (receivedFields_keys fields ▸ h.1)

theorem BigJson.readsAs_elements (hquote : QuotesStrings quote) :
    ∀ {xs : List BigJson}, KeysDifferElements xs →
      List.Forall₂ ReadsAs (stringifyElements quote xs) (receivedElements xs)
  | [], _ => .nil
  | _ :: _, h => .cons (BigJson.readsAs hquote h.1) (BigJson.readsAs_elements hquote h.2)

theorem BigJson.readsAs_fields (hquote : QuotesStrings quote) :
    ∀ {fields : List (String × BigJson)}, KeysDifferFields fields →
      List.Forall₂ FieldReadsAs (stringifyFields quote fields) (receivedFields fields)
  | [], _ => .nil
  | (key, _) :: _, h => by
      obtain ⟨body, hbody, htext⟩ := hquote key
      exact .cons ⟨body, _, by rw [hbody], htext, BigJson.readsAs hquote h.1⟩
        (BigJson.readsAs_fields hquote h.2)

end

/-- The other side reads what was written, up to the rounding of bigints. -/
theorem jsonParse_stringify (hquote : QuotesStrings quote) {v : BigJson} (hv : v.KeysDiffer) :
    jsonParse (v.stringify quote) = some v.received :=
  (BigJson.readsAs hquote hv).jsonParse

end

end ZkChat.Js
