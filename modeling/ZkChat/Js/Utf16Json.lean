import Mathlib.Data.UInt
import Mathlib.Data.List.Basic
import ZkChat.Js.JsonRoundTrip

set_option autoImplicit false

/-! # JSON texts of any strings

A JavaScript string is any sequence of code units. `JSON.stringify` escapes the surrogates that
stand alone, so every string is read back (`jsonParse_stringifyStrings`). From bytes a value is read
at a cost: what is no byte takes an escape, so a text of bytes is at least as long as the value is
heavy (`weight_le_of_jsonParse`). -/

namespace ZkChat.Js.Utf16

/-! ## Code points -/

def IsHigh (u : UInt16) : Prop := 0xD800 ≤ u ∧ u < 0xDC00

def IsLow (u : UInt16) : Prop := 0xDC00 ≤ u ∧ u < 0xE000

def IsSurrogate (u : UInt16) : Prop := 0xD800 ≤ u ∧ u < 0xE000

instance (u : UInt16) : Decidable (IsHigh u) := inferInstanceAs (Decidable (_ ∧ _))

instance (u : UInt16) : Decidable (IsLow u) := inferInstanceAs (Decidable (_ ∧ _))

instance (u : UInt16) : Decidable (IsSurrogate u) := inferInstanceAs (Decidable (_ ∧ _))

/-- A surrogate that stands alone is a code point, too. -/
inductive CodePoint where
  | unit (u : UInt16)
  | pair (high low : UInt16)

/-- `StringToCodePoints`. -/
def codePoints : List UInt16 → List CodePoint
  | [] => []
  | [u] => [.unit u]
  | u :: v :: us =>
      if IsHigh u ∧ IsLow v then .pair u v :: codePoints us else .unit u :: codePoints (v :: us)

def CodePoint.units : CodePoint → List UInt16
  | .unit u => [u]
  | .pair high low => [high, low]

/-! ## `JSON.stringify` -/

def hexUnit (n : ℕ) : UInt16 := .ofNat (hexDigit n).toNat

/-- `\uXXXX`. -/
def unicodeEscape (u : UInt16) : List UInt16 :=
  [0x5C, 0x75, hexUnit (u.toNat / 4096), hexUnit (u.toNat / 256 % 16),
    hexUnit (u.toNat / 16 % 16), hexUnit (u.toNat % 16)]

/-- The units that are escaped by a backslash and a letter. -/
def escapes : List (UInt16 × UInt16) :=
  [(0x22, 0x22), (0x5C, 0x5C), (0x8, 0x62), (0x9, 0x74), (0xA, 0x6E), (0xC, 0x66), (0xD, 0x72)]

/-- `QuoteJSONString`, one code point of it. -/
def quotePoint : CodePoint → List UInt16
  | .pair high low => [high, low]
  | .unit u => match escapes.lookup u with
    | some e => [0x5C, e]
    | none => if u < 0x20 ∨ IsSurrogate u then unicodeEscape u else [u]

def quote (s : List UInt16) : List UInt16 := 0x22 :: (codePoints s).flatMap quotePoint ++ [0x22]

/-- `JSON.stringify` of an array of strings. -/
def stringifyStrings (ss : List (List UInt16)) : List UInt16 :=
  0x5B :: [0x2C].intercalate (ss.map quote) ++ [0x5D]

/-! ## `JSON.parse` -/

/-- A JSON value whose strings are sequences of code units. -/
inductive Value where
  /-- `null`, a boolean or a number. -/
  | scalar (v : Json)
  | str (s : List UInt16)
  | arr (xs : List Value)
  | obj (fields : List (List UInt16 × Value))

/-- The character of a code unit; no surrogate has one. -/
def chr (u : UInt16) : Char := .ofNat u.toNat

/-- What the letter after a backslash stands for. -/
def unescapes : List (UInt16 × UInt16) :=
  [(0x22, 0x22), (0x5C, 0x5C), (0x2F, 0x2F), (0x62, 0x8), (0x66, 0xC), (0x6E, 0xA), (0x72, 0xD),
    (0x74, 0x9)]

/-- A string literal after its opening quote, and the rest of the text. -/
def scanString : List UInt16 → Option (List UInt16 × List UInt16)
  | [] => none
  | u :: us =>
      if u = 0x22 then some ([], us)
      else if u = 0x5C then
        match us with
        | [] => none
        | e :: us =>
            if e = 0x75 then
              match us with
              | a :: b :: c :: d :: us =>
                  (hex4 (chr a) (chr b) (chr c) (chr d)).bind fun n =>
                    (scanString us).map fun p => (.ofNat n :: p.1, p.2)
              | _ => none
            else (unescapes.lookup e).bind fun v => (scanString us).map fun p => (v :: p.1, p.2)
      -- a control character has to be escaped
      else if u < 0x20 then none
      else (scanString us).map fun p => (u :: p.1, p.2)

/-- What follows this character, if it is the next one. -/
def expect (c : Char) (us : List UInt16) : Option (List UInt16) :=
  match us.dropWhile fun u => isJsonSpace (chr u) with
  | [] => none
  | u :: rest => if u = .ofNat c.toNat then some rest else none

/-- Literals and numbers are read as in any text. -/
def parseScalar (us : List UInt16) : Option (Value × List UInt16) :=
  (parseValue 1 (us.map chr)).map fun p => (.scalar p.1, us.drop (us.length - p.2.length))

def setField (fields : List (List UInt16 × Value)) (key : List UInt16) (v : Value) :
    List (List UInt16 × Value) :=
  if fields.any (·.1 = key) then fields.map fun f => if f.1 = key then (key, v) else f
  else fields ++ [(key, v)]

mutual

/-- A value and the rest of the text; the first argument bounds the depth of the recursion. -/
def parse : ℕ → List UInt16 → Option (Value × List UInt16)
  | 0, _ => none
  | fuel + 1, us =>
      match expect '"' us with
      | some us => (scanString us).map fun p => (.str p.1, p.2)
      | none => match expect '[' us with
        | some us => match expect ']' us with
          | some us => some (.arr [], us)
          | none => parseElements fuel [] us
        | none => match expect '\x7b' us with
          | some us => match expect '\x7d' us with
            | some us => some (.obj [], us)
            | none => parseFields fuel [] us
          | none => parseScalar us

def parseElements : ℕ → List Value → List UInt16 → Option (Value × List UInt16)
  | 0, _, _ => none
  | fuel + 1, xs, us =>
      (parse fuel us).bind fun p =>
        match expect ',' p.2 with
        | some us => parseElements fuel (xs ++ [p.1]) us
        | none => (expect ']' p.2).map fun us => (.arr (xs ++ [p.1]), us)

def parseFields : ℕ → List (List UInt16 × Value) → List UInt16 → Option (Value × List UInt16)
  | 0, _, _ => none
  | fuel + 1, fields, us =>
      -- no comma before the closing brace, and none before the first field
      (expect '"' us).bind fun us => (scanString us).bind fun key =>
        (expect ':' key.2).bind fun us => (parse fuel us).bind fun p =>
          match expect ',' p.2 with
          | some us => parseFields fuel (setField fields key.1 p.1) us
          | none => (expect '\x7d' p.2).map fun us => (.obj (setField fields key.1 p.1), us)

end

/-- `JSON.parse(text)`. -/
def jsonParse (us : List UInt16) : Option Value :=
  match parse (2 * us.length + 1) us with
  | some (v, rest) => if rest.all fun u => isJsonSpace (chr u) then some v else none
  | none => none

/-! ## Strings are read back -/

theorem scanString_end (us : List UInt16) : scanString (0x22 :: us) = some ([], us) := by
  rw [scanString.eq_def]
  exact if_pos rfl

theorem hexUnit_spec : ∀ n < 16, digitValue (chr (hexUnit n)) = n := by decide +kernel

theorem hex4_hexUnit {a b c d : ℕ} (ha : a < 16) (hb : b < 16) (hc : c < 16) (hd : d < 16) :
    hex4 (chr (hexUnit a)) (chr (hexUnit b)) (chr (hexUnit c)) (chr (hexUnit d))
      = some (16 * (16 * (16 * a + b) + c) + d) := by
  simp [hex4, digits, hexUnit_spec, ha, hb, hc, hd]

theorem scanString_unicodeEscape (u : UInt16) (us : List UInt16) :
    scanString (unicodeEscape u ++ us) = (scanString us).map fun p => (u :: p.1, p.2) := by
  have hu := u.toNat_lt
  have hhex := hex4_hexUnit (a := u.toNat / 4096) (b := u.toNat / 256 % 16)
    (c := u.toNat / 16 % 16) (d := u.toNat % 16) (by omega) (by omega) (by omega) (by omega)
  have hvalue : 16 * (16 * (16 * (u.toNat / 4096) + u.toNat / 256 % 16) + u.toNat / 16 % 16)
      + u.toNat % 16 = u.toNat := by
    omega
  rw [hvalue] at hhex
  simp only [unicodeEscape, List.cons_append, List.nil_append]
  rw [scanString, if_neg (by decide), if_pos rfl]
  simp only [if_true, hhex, Option.bind_some, UInt16.ofNat_toNat]

theorem mem_of_lookup {α β : Type} [BEq α] [LawfulBEq α] {l : List (α × β)} {a : α} {b : β}
    (h : l.lookup a = some b) : (a, b) ∈ l := by
  obtain ⟨l₁, l₂, rfl, -⟩ := List.lookup_eq_some_iff.mp h
  simp

theorem forall_mem_of_all {α : Type} {l : List α} {p : α → Prop} [DecidablePred p]
    (h : l.all (fun a => decide (p a)) = true) : ∀ a ∈ l, p a :=
  fun a ha => of_decide_eq_true (List.all_eq_true.mp h a ha)

theorem escapes_spec : ∀ p ∈ escapes, unescapes.lookup p.2 = some p.1 ∧ p.2 ≠ 0x75 :=
  forall_mem_of_all (by decide)

theorem scanString_escape {u e : UInt16} (h : (u, e) ∈ escapes) (us : List UInt16) :
    scanString (0x5C :: e :: us) = (scanString us).map fun p => (u :: p.1, p.2) := by
  obtain ⟨hlookup, hne⟩ := escapes_spec _ h
  rw [scanString.eq_def]
  simp only [if_neg hne, hlookup, Option.bind_some]
  rfl

/-- A unit that stands for itself. -/
theorem scanString_literal {u : UInt16} (hquote : u ≠ 0x22) (hback : u ≠ 0x5C) (hspace : ¬ u < 0x20)
    (us : List UInt16) : scanString (u :: us) = (scanString us).map fun p => (u :: p.1, p.2) := by
  rw [scanString.eq_def]
  simp only [if_neg hquote, if_neg hback, if_neg hspace]

theorem not_escaped {u : UInt16} (h : escapes.lookup u = none) : u ≠ 0x22 ∧ u ≠ 0x5C := by
  constructor <;>
    · rintro rfl
      simp [escapes] at h

theorem scanString_quoteUnit (u : UInt16) (us : List UInt16) :
    scanString (quotePoint (.unit u) ++ us) = (scanString us).map fun p => (u :: p.1, p.2) := by
  rw [quotePoint]
  split
  · next e he => exact scanString_escape (mem_of_lookup he) us
  · next hnone =>
      split
      · exact scanString_unicodeEscape u us
      · next hplain =>
          obtain ⟨hquote, hback⟩ := not_escaped hnone
          exact scanString_literal hquote hback (fun h => hplain (Or.inl h)) us

theorem not_special_of_surrogate {u : UInt16} (h : IsHigh u ∨ IsLow u) :
    u ≠ 0x22 ∧ u ≠ 0x5C ∧ ¬ u < 0x20 := by
  have hge : 0xD800 ≤ u.toNat := by
    simp only [IsHigh, IsLow, UInt16.le_iff_toNat_le, UInt16.lt_iff_toNat_lt] at h
    simp only [UInt16.reduceToNat] at h
    omega
  refine ⟨?_, ?_, ?_⟩
  · rintro rfl
    simp at hge
  · rintro rfl
    simp at hge
  · rw [UInt16.lt_iff_toNat_lt]
    simp only [UInt16.reduceToNat]
    omega

theorem scanString_quoted (s rest : List UInt16) :
    scanString ((codePoints s).flatMap quotePoint ++ 0x22 :: rest) = some (s, rest) := by
  fun_induction codePoints s with
  | case1 => exact scanString_end rest
  | case2 u =>
      rw [List.flatMap_singleton, scanString_quoteUnit, scanString_end]
      rfl
  | case3 u v us hpair ih =>
      obtain ⟨hquote, hback, hspace⟩ := not_special_of_surrogate (Or.inl hpair.1)
      obtain ⟨hquote', hback', hspace'⟩ := not_special_of_surrogate (Or.inr hpair.2)
      rw [List.flatMap_cons, quotePoint, List.append_assoc, List.cons_append, List.singleton_append,
        scanString_literal hquote hback hspace, scanString_literal hquote' hback' hspace', ih]
      rfl
  | case4 u v us hpair ih =>
      rw [List.flatMap_cons, List.append_assoc, scanString_quoteUnit, ih]
      rfl

/-! ## Arrays of strings are read back -/

theorem expect_cons {u : UInt16} (hspace : isJsonSpace (chr u) = false) (c : Char)
    (us : List UInt16) : expect c (u :: us) = if u = .ofNat c.toNat then some us else none := by
  rw [expect, List.dropWhile_cons, hspace]
  rfl

theorem parse_quote (fuel : ℕ) (s rest : List UInt16) :
    parse (fuel + 1) (quote s ++ rest) = some (.str s, rest) := by
  have hquote : expect '"' (quote s ++ rest)
      = some ((codePoints s).flatMap quotePoint ++ 0x22 :: rest) := by
    rw [quote, List.cons_append, List.cons_append, List.append_assoc, expect_cons (by decide),
      if_pos (by decide)]
    rfl
  rw [parse, hquote]
  simp only [scanString_quoted, Option.map_some]

theorem parseElements_quotes {ss : List (List UInt16)} (hne : ss ≠ []) (fuel : ℕ)
    (done : List Value) (rest : List UInt16) (hfuel : ss.length < fuel) :
    parseElements fuel done ([0x2C].intercalate (ss.map quote) ++ 0x5D :: rest)
      = some (.arr (done ++ ss.map .str), rest) := by
  induction ss generalizing fuel done with
  | nil => exact absurd rfl hne
  | cons s ss ih =>
      rw [List.length_cons] at hfuel
      obtain ⟨fuel, rfl⟩ : ∃ k, fuel = k + 2 := ⟨fuel - 2, by omega⟩
      rw [parseElements]
      cases ss with
      | nil =>
          rw [List.map_singleton, intercalate_singleton, parse_quote]
          simp only [Option.bind_some, expect_cons (u := 0x5D) (by decide)]
          rfl
      | cons s' ss =>
          have := ih (List.cons_ne_nil _ _) (fuel + 1) (done ++ [.str s]) (by omega)
          rw [List.append_assoc] at this
          rw [List.map_cons, List.map_cons, intercalate_cons_cons, List.append_assoc, parse_quote]
          simp only [Option.bind_some, List.cons_append, expect_cons (u := 0x2C) (by decide)]
          exact this

theorem length_le_intercalate_quotes (ss : List (List UInt16)) :
    ss.length ≤ ([0x2C].intercalate (ss.map quote)).length := by
  induction ss with
  | nil => exact Nat.zero_le _
  | cons s ss ih =>
      have hquote : 0 < (quote s).length := by simp [quote]
      cases ss with
      | nil =>
          rw [List.map_singleton, intercalate_singleton]
          exact hquote
      | cons s' ss =>
          rw [List.map_cons] at ih
          rw [List.map_cons, List.map_cons, intercalate_cons_cons, List.length_append]
          show (s' :: ss).length + 1
            ≤ (quote s).length + (([0x2C].intercalate (quote s' :: ss.map quote)).length + 1)
          omega

/-- The round trip, lone surrogates included. -/
theorem jsonParse_stringifyStrings (ss : List (List UInt16)) :
    jsonParse (stringifyStrings ss) = some (.arr (ss.map .str)) := by
  have hparse : ∀ fuel, ss.length + 1 < fuel →
      parse fuel (stringifyStrings ss) = some (.arr (ss.map .str), []) := by
    intro fuel hfuel
    obtain ⟨fuel, rfl⟩ : ∃ k, fuel = k + 1 := ⟨fuel - 1, by omega⟩
    rw [parse, stringifyStrings, List.cons_append]
    simp only [expect_cons (u := 0x5B) (by decide)]
    cases ss with
    | nil => rfl
    | cons s ss =>
        have helements := parseElements_quotes (List.cons_ne_nil s ss) fuel [] [] (by omega)
        obtain ⟨tail, htail⟩ : ∃ tail,
            [0x2C].intercalate ((s :: ss).map quote) ++ [0x5D] = 0x22 :: tail := by
          cases ss with
          | nil => exact ⟨_, by rw [List.map_singleton, intercalate_singleton]; rfl⟩
          | cons s' ss =>
              exact ⟨_, by rw [List.map_cons, List.map_cons, intercalate_cons_cons]; rfl⟩
        rw [htail] at helements ⊢
        exact helements
  have hlength := length_le_intercalate_quotes ss
  rw [jsonParse, hparse]
  · rfl
  · simp only [stringifyStrings, List.cons_append, List.length_cons, List.length_append]
    omega

/-! ## What reading costs -/

/-- What is left of a text after at least `n` units of it have been read. -/
def Leaves (n : ℕ) (us rest : List UInt16) : Prop := ∃ read, us = read ++ rest ∧ n ≤ read.length

def IsBytes (us : List UInt16) : Prop := ∀ u ∈ us, u < 256

namespace Leaves

variable {m n : ℕ} {us vs ws : List UInt16}

theorem refl (us : List UInt16) : Leaves 0 us us := ⟨[], rfl, Nat.le_refl 0⟩

theorem cons (u : UInt16) (h : Leaves n us vs) : Leaves (n + 1) (u :: us) vs := by
  obtain ⟨read, rfl, hn⟩ := h
  exact ⟨u :: read, rfl, Nat.succ_le_succ hn⟩

theorem trans (h : Leaves m us vs) (h' : Leaves n vs ws) : Leaves (m + n) us ws := by
  obtain ⟨read, rfl, hm⟩ := h
  obtain ⟨read', rfl, hn⟩ := h'
  refine ⟨read ++ read', (List.append_assoc ..).symm, ?_⟩
  rw [List.length_append]
  exact Nat.add_le_add hm hn

theorem mono (h : Leaves n us vs) (hmn : m ≤ n) : Leaves m us vs := by
  obtain ⟨read, rfl, hn⟩ := h
  exact ⟨read, rfl, hmn.trans hn⟩

theorem isBytes (h : Leaves n us vs) (hus : IsBytes us) : IsBytes vs := by
  obtain ⟨read, rfl, -⟩ := h
  exact fun u hu => hus u (List.mem_append_right _ hu)

theorem length_le (h : Leaves n us vs) : n + vs.length ≤ us.length := by
  obtain ⟨read, rfl, hn⟩ := h
  rw [List.length_append]
  omega

end Leaves

/-- The units that a code point takes in a JSON text. -/
def CodePoint.width : CodePoint → ℕ
  | .pair _ _ => 2
  | .unit u =>
      if u ∈ [0x22, 0x5C, 0x8, 0x9, 0xA, 0xC, 0xD] then 2
      else if u < 0x20 ∨ IsSurrogate u then 6 else 1

theorem length_quotePoint (p : CodePoint) : (quotePoint p).length = p.width := by
  cases p with
  | pair high low => rfl
  | unit u =>
      have hmem : u ∈ [0x22, 0x5C, 0x8, 0x9, 0xA, 0xC, 0xD] ↔ (escapes.lookup u).isSome := by
        rw [List.lookup_isSome_iff]
        simp [escapes]
      rw [quotePoint, CodePoint.width]
      cases hlookup : escapes.lookup u with
      | some e => rw [if_pos (hmem.mpr (by rw [hlookup]; rfl))]; rfl
      | none =>
          have hnot : u ∉ [0x22, 0x5C, 0x8, 0x9, 0xA, 0xC, 0xD] := by
            rw [hmem, hlookup]
            exact Bool.false_ne_true
          rw [if_neg hnot]
          dsimp only
          split
          · rfl
          · rfl

/-- The least number of bytes that a unit is read from: above them only an escape is one. -/
def unitWeight (u : UInt16) : ℕ := if u < 256 then (CodePoint.unit u).width else 6

def weight (s : List UInt16) : ℕ := (s.map unitWeight).sum

mutual

def Value.weight : Value → ℕ
  | .str s => Utf16.weight s + 2
  | .arr xs => weightElements xs + 1
  | .scalar _ | .obj _ => 0

/-- Every element is followed by a comma or by the bracket. -/
def weightElements : List Value → ℕ
  | [] => 0
  | x :: xs => x.weight + 1 + weightElements xs

end

theorem width_unit_le (u : UInt16) : (CodePoint.unit u).width ≤ 6 := by
  rw [CodePoint.width]
  split
  · decide
  · split <;> decide

theorem unitWeight_le (u : UInt16) : unitWeight u ≤ 6 := by
  rw [unitWeight]
  split
  · exact width_unit_le u
  · exact Nat.le_refl 6

theorem unescapes_weight : ∀ p ∈ unescapes, unitWeight p.2 ≤ 2 :=
  forall_mem_of_all (by decide +kernel)

/-- What stands for itself is one byte. -/
theorem unitWeight_literal {u : UInt16} (hbyte : u < 256) (hquote : u ≠ 0x22) (hback : u ≠ 0x5C)
    (hspace : ¬ u < 0x20) : unitWeight u = 1 := by
  rw [unitWeight, if_pos hbyte, CodePoint.width, if_neg, if_neg]
  · rintro (h | h)
    · exact hspace h
    · exact absurd (UInt16.le_trans h.1 (UInt16.le_of_lt hbyte)) (by decide)
  · simp only [List.mem_cons, List.not_mem_nil, or_false, hquote, hback, false_or]
    rintro (rfl | rfl | rfl | rfl | rfl) <;> exact hspace (by decide)

theorem weight_cons (u : UInt16) (s : List UInt16) :
    weight (u :: s) = unitWeight u + weight s := rfl

theorem scanned_cons {v : UInt16} {us s rest : List UInt16}
    (h : (scanString us).map (fun p => (v :: p.1, p.2)) = some (s, rest)) :
    ∃ t, scanString us = some (t, rest) ∧ s = v :: t := by
  obtain ⟨p, hp, heq⟩ := Option.map_eq_some_iff.mp h
  cases heq
  exact ⟨p.1, hp, rfl⟩

/-- A string costs its weight and the closing quote. -/
theorem scanString_leaves {us s rest : List UInt16} (h : scanString us = some (s, rest))
    (hus : IsBytes us) : Leaves (weight s + 1) us rest := by
  fun_induction scanString us generalizing s rest with
  | case1 => cases h
  | case2 us =>
      cases h
      exact (Leaves.refl us).cons 0x22
  | case3 => cases h
  | case4 a b c d us _ ih =>
      -- six units, the most that any unit weighs
      obtain ⟨n, -, hscan⟩ := Option.bind_eq_some_iff.mp h
      obtain ⟨t, ht, rfl⟩ := scanned_cons hscan
      have hbytes : IsBytes us := fun u hu => hus u (by simp [hu])
      have hweight := unitWeight_le (.ofNat n)
      rw [weight_cons]
      have hdigits := ((((ih ht hbytes).cons d).cons c).cons b).cons a
      exact ((hdigits.cons 0x75).cons 0x5C).mono (by omega)
  | case5 => cases h
  | case6 e us _ _ ih =>
      obtain ⟨v, hlookup, hscan⟩ := Option.bind_eq_some_iff.mp h
      obtain ⟨t, ht, rfl⟩ := scanned_cons hscan
      have hbytes : IsBytes us := fun u hu => hus u (by simp [hu])
      have hweight : unitWeight v ≤ 2 := unescapes_weight _ (mem_of_lookup hlookup)
      rw [weight_cons]
      exact (((ih ht hbytes).cons e).cons 0x5C).mono (by omega)
  | case7 => cases h
  | case8 u us hquote hback hspace ih =>
      -- a byte that stands for itself, and weighs one
      obtain ⟨t, ht, rfl⟩ := scanned_cons h
      obtain ⟨hbyte, hbytes⟩ := List.forall_mem_cons.mp hus
      rw [weight_cons, unitWeight_literal hbyte hquote hback hspace]
      exact ((ih ht hbytes).cons u).mono (by omega)

theorem expect_leaves {c : Char} {us rest : List UInt16} (h : expect c us = some rest) :
    Leaves 1 us rest := by
  have hspaces : us = us.takeWhile (fun u => isJsonSpace (chr u))
      ++ us.dropWhile (fun u => isJsonSpace (chr u)) := List.takeWhile_append_dropWhile.symm
  rw [expect] at h
  split at h
  · cases h
  · next u vs hdrop =>
      split at h
      · cases h
        rw [hdrop] at hspaces
        refine ⟨us.takeWhile (fun u => isJsonSpace (chr u)) ++ [u], ?_, by simp⟩
        rw [List.append_assoc]
        exact hspaces
      · cases h

theorem parseScalar_leaves {us rest : List UInt16} {v : Value}
    (h : parseScalar us = some (v, rest)) : Leaves v.weight us rest := by
  obtain ⟨p, -, heq⟩ := Option.map_eq_some_iff.mp h
  cases heq
  exact ⟨us.take _, (List.take_append_drop _ us).symm, Nat.zero_le _⟩

/-- With this fuel a value costs at least its weight. -/
structure CostsWeight (fuel : ℕ) : Prop where
  parse : ∀ {us rest : List UInt16} {v : Value},
    Utf16.parse fuel us = some (v, rest) → IsBytes us → Leaves v.weight us rest
  parseElements : ∀ {xs : List Value} {us rest : List UInt16} {v : Value},
    Utf16.parseElements fuel xs us = some (v, rest) → IsBytes us →
      ∃ ys, v = .arr (xs ++ ys) ∧ Leaves (weightElements ys) us rest
  parseFields : ∀ {fields : List (List UInt16 × Value)} {us rest : List UInt16} {v : Value},
    Utf16.parseFields fuel fields us = some (v, rest) → IsBytes us → Leaves v.weight us rest

namespace CostsWeight

variable {fuel : ℕ} {us rest : List UInt16} {v : Value}

theorem parse_succ (hfuel : CostsWeight fuel) (h : Utf16.parse (fuel + 1) us = some (v, rest))
    (hus : IsBytes us) : Leaves v.weight us rest := by
  rw [Utf16.parse] at h
  split at h
  · next vs hquote =>
      obtain ⟨p, hp, heq⟩ := Option.map_eq_some_iff.mp h
      cases heq
      have hopen := expect_leaves hquote
      have hstring := hopen.trans (scanString_leaves hp (hopen.isBytes hus))
      exact hstring.mono (by rw [Value.weight]; omega)
  split at h
  · next vs hbracket =>
      have hopen := expect_leaves hbracket
      split at h
      · next ws hclose =>
          cases h
          exact (hopen.trans (expect_leaves hclose)).mono (by decide)
      · obtain ⟨ys, rfl, hys⟩ := hfuel.parseElements h (hopen.isBytes hus)
        exact (hopen.trans hys).mono (by rw [Value.weight, List.nil_append]; omega)
  split at h
  · next vs hbrace =>
      have hopen := expect_leaves hbrace
      split at h
      · next ws hclose =>
          cases h
          exact (hopen.trans (expect_leaves hclose)).mono (Nat.zero_le _)
      · exact (hopen.trans (hfuel.parseFields h (hopen.isBytes hus))).mono (Nat.le_add_left ..)
  · exact parseScalar_leaves h

theorem parseElements_succ (hfuel : CostsWeight fuel) {xs : List Value}
    (h : Utf16.parseElements (fuel + 1) xs us = some (v, rest)) (hus : IsBytes us) :
    ∃ ys, v = .arr (xs ++ ys) ∧ Leaves (weightElements ys) us rest := by
  rw [Utf16.parseElements] at h
  obtain ⟨p, hp, h⟩ := Option.bind_eq_some_iff.mp h
  have hfirst := hfuel.parse hp hus
  split at h
  · next vs hcomma =>
      have hnext := hfirst.trans (expect_leaves hcomma)
      obtain ⟨ys, rfl, hys⟩ := hfuel.parseElements h (hnext.isBytes hus)
      exact ⟨p.1 :: ys, by rw [List.append_assoc, List.singleton_append], hnext.trans hys⟩
  · obtain ⟨vs, hclose, heq⟩ := Option.map_eq_some_iff.mp h
    cases heq
    exact ⟨[p.1], rfl, hfirst.trans (expect_leaves hclose)⟩

theorem parseFields_succ (hfuel : CostsWeight fuel) {fields : List (List UInt16 × Value)}
    (h : Utf16.parseFields (fuel + 1) fields us = some (v, rest)) (hus : IsBytes us) :
    Leaves v.weight us rest := by
  rw [Utf16.parseFields] at h
  obtain ⟨vs, hquote, h⟩ := Option.bind_eq_some_iff.mp h
  obtain ⟨key, hkey, h⟩ := Option.bind_eq_some_iff.mp h
  obtain ⟨ws, hcolon, h⟩ := Option.bind_eq_some_iff.mp h
  obtain ⟨p, hp, h⟩ := Option.bind_eq_some_iff.mp h
  have hopen := expect_leaves hquote
  have hname := hopen.trans (scanString_leaves hkey (hopen.isBytes hus))
  have hmiddle := hname.trans (expect_leaves hcolon)
  have hfirst := hmiddle.trans (hfuel.parse hp (hmiddle.isBytes hus))
  split at h
  · next xs hcomma =>
      have hnext := hfirst.trans (expect_leaves hcomma)
      exact (hnext.trans (hfuel.parseFields h (hnext.isBytes hus))).mono (Nat.le_add_left ..)
  · obtain ⟨xs, hclose, heq⟩ := Option.map_eq_some_iff.mp h
    cases heq
    exact (hfirst.trans (expect_leaves hclose)).mono (Nat.zero_le _)

end CostsWeight

theorem costsWeight (fuel : ℕ) : CostsWeight fuel := by
  induction fuel with
  | zero => exact ⟨nofun, nofun, nofun⟩
  | succ fuel ih => exact ⟨ih.parse_succ, ih.parseElements_succ, ih.parseFields_succ⟩

/-- A text of bytes is at least as long as what is read from it is heavy. -/
theorem weight_le_of_jsonParse {us : List UInt16} {v : Value} (h : jsonParse us = some v)
    (hus : IsBytes us) : v.weight ≤ us.length := by
  unfold jsonParse at h
  split at h
  · next v' rest hparse =>
      split at h
      · cases h
        have := ((costsWeight _).parse hparse hus).length_le
        omega
      · cases h
  · cases h

theorem exists_arr_of_jsonParse {us : List UInt16} {v : Value}
    (h : jsonParse (0x5B :: us) = some v) (hus : IsBytes (0x5B :: us)) : ∃ xs, v = .arr xs := by
  have hquote : expect '"' (0x5B :: us) = none := by
    rw [expect_cons (by decide), if_neg (by decide)]
  have hopen : expect '[' (0x5B :: us) = some us := by
    rw [expect_cons (by decide), if_pos (by decide)]
  unfold jsonParse at h
  split at h
  · next v' rest hparse =>
      rw [parse, hquote, hopen] at hparse
      dsimp only at hparse
      split at hparse
      · cases hparse
        split at h
        · cases h
          exact ⟨[], rfl⟩
        · cases h
      · obtain ⟨xs, rfl, -⟩ := (costsWeight _).parseElements hparse (List.forall_mem_cons.mp hus).2
        split at h
        · cases h
          exact ⟨[] ++ xs, rfl⟩
        · cases h
  · cases h

/-! ## What writing costs -/

/-- The length of a quoted string without its quotes. -/
def escapedLength (s : List UInt16) : ℕ := ((codePoints s).map CodePoint.width).sum

/-- A byte, or escaped. -/
def CodePoint.IsWrittenInBytes : CodePoint → Prop
  | .pair _ _ => False
  | .unit u => u < 256 ∨ IsSurrogate u

instance : DecidablePred CodePoint.IsWrittenInBytes
  | .pair _ _ => inferInstanceAs (Decidable False)
  | .unit _ => inferInstanceAs (Decidable (_ ∨ _))

/-- Every code point of the string is. -/
def IsWrittenInBytes (s : List UInt16) : Prop := ∀ p ∈ codePoints s, p.IsWrittenInBytes

instance (s : List UInt16) : Decidable (IsWrittenInBytes s) := List.decidableBAll _ (codePoints s)

theorem length_quote (s : List UInt16) : (quote s).length = escapedLength s + 2 := by
  rw [quote, List.cons_append, List.length_cons, List.length_append, List.length_flatMap,
    escapedLength]
  simp only [length_quotePoint]
  rfl

theorem length_stringifyStrings (s s' s'' : List UInt16) :
    (stringifyStrings [s, s', s'']).length
      = escapedLength s + escapedLength s' + escapedLength s'' + 10 := by
  simp only [stringifyStrings, List.map_cons, List.map_nil, intercalate_cons_cons,
    intercalate_singleton, List.cons_append, List.length_cons, List.length_append, length_quote,
    List.length_nil]
  omega

theorem ge_of_surrogate {u : UInt16} (h : IsSurrogate u) : ¬ u < 256 := by
  rw [UInt16.not_lt]
  exact UInt16.le_trans (by decide) h.1

/-- Exactly these code points cost no more to read than to write. -/
theorem unitWeight_spec (u : UInt16) : (CodePoint.unit u).width ≤ unitWeight u ∧
    (unitWeight u ≤ (CodePoint.unit u).width ↔ (CodePoint.unit u).IsWrittenInBytes) := by
  rw [unitWeight]
  by_cases hbyte : u < 256
  · rw [if_pos hbyte]
    exact ⟨Nat.le_refl _, iff_of_true (Nat.le_refl _) (Or.inl hbyte)⟩
  · rw [if_neg hbyte]
    refine ⟨width_unit_le u, ?_⟩
    have hspecial : u ∉ [0x22, 0x5C, 0x8, 0x9, 0xA, 0xC, 0xD] := by
      simp only [List.mem_cons, List.not_mem_nil, or_false]
      rintro (rfl | rfl | rfl | rfl | rfl | rfl | rfl) <;> exact hbyte (by decide)
    have hspace : ¬ u < 0x20 := fun h => hbyte (UInt16.lt_trans h (by decide))
    rw [CodePoint.width, if_neg hspecial, CodePoint.IsWrittenInBytes]
    by_cases hsurrogate : IsSurrogate u
    · rw [if_pos (Or.inr hsurrogate)]
      exact iff_of_true (Nat.le_refl 6) (Or.inr hsurrogate)
    · rw [if_neg (not_or.mpr ⟨hspace, hsurrogate⟩)]
      exact iff_of_false (by decide) (not_or.mpr ⟨hbyte, hsurrogate⟩)

theorem unitWeight_surrogate {u : UInt16} (h : IsSurrogate u) : unitWeight u = 6 :=
  if_neg (ge_of_surrogate h)

/-- The same of strings. -/
theorem escapedLength_spec (s : List UInt16) : escapedLength s ≤ weight s ∧
    (weight s ≤ escapedLength s ↔ IsWrittenInBytes s) := by
  unfold escapedLength IsWrittenInBytes
  fun_induction codePoints s with
  | case1 => simp [weight]
  | case2 u =>
      obtain ⟨hle, hiff⟩ := unitWeight_spec u
      simp only [weight, List.map_cons, List.map_nil, List.sum_cons, List.sum_nil, Nat.add_zero,
        List.forall_mem_cons, List.not_mem_nil, false_implies, implies_true, and_true]
      exact ⟨hle, hiff⟩
  | case3 u v us hpair ih =>
      have hu : unitWeight u = 6 :=
        unitWeight_surrogate ⟨hpair.1.1, UInt16.lt_trans hpair.1.2 (by decide)⟩
      have hv : unitWeight v = 6 :=
        unitWeight_surrogate ⟨UInt16.le_trans (by decide) hpair.2.1, hpair.2.2⟩
      rw [weight_cons, weight_cons, hu, hv, List.map_cons, List.sum_cons, CodePoint.width,
        List.forall_mem_cons]
      -- a pair is written as its two units and read from two escapes
      exact ⟨by omega, iff_of_false (by omega) (fun h => h.1)⟩
  | case4 u v us hpair ih =>
      obtain ⟨hle, hiff⟩ := unitWeight_spec u
      obtain ⟨hle', hiff'⟩ := ih
      rw [weight_cons, List.map_cons, List.sum_cons, List.forall_mem_cons, ← hiff, ← hiff']
      exact ⟨by omega, by omega⟩

theorem hexUnit_lt : ∀ n < 16, hexUnit n < 256 := by decide +kernel

theorem escapes_lt : ∀ p ∈ escapes, p.2 < 256 := forall_mem_of_all (by decide)

theorem isBytes_unicodeEscape (u : UInt16) : IsBytes (unicodeEscape u) := by
  have hu := u.toNat_lt
  simp only [IsBytes, unicodeEscape, List.forall_mem_cons, List.not_mem_nil, false_implies,
    implies_true, and_true]
  exact ⟨by decide, by decide, hexUnit_lt _ (by omega), hexUnit_lt _ (by omega),
    hexUnit_lt _ (by omega), hexUnit_lt _ (by omega)⟩

theorem isBytes_quotePoint {p : CodePoint} (h : p.IsWrittenInBytes) : IsBytes (quotePoint p) := by
  cases p with
  | pair high low => exact h.elim
  | unit u =>
      rw [quotePoint]
      split
      · next e he =>
          have := escapes_lt _ (mem_of_lookup he)
          simp only [IsBytes, List.forall_mem_cons, List.not_mem_nil, false_implies, implies_true,
            and_true]
          exact ⟨by decide, this⟩
      · split
        · exact isBytes_unicodeEscape u
        · next hplain =>
            have hbyte := h.resolve_right fun hs => hplain (Or.inr hs)
            simpa [IsBytes] using hbyte

theorem isBytes_quote {s : List UInt16} (h : IsWrittenInBytes s) : IsBytes (quote s) := by
  intro u hu
  simp only [quote, List.mem_append, List.mem_cons, List.mem_flatMap, List.not_mem_nil,
    or_false] at hu
  rcases hu with (rfl | ⟨p, hp, hu⟩) | rfl
  · decide
  · exact isBytes_quotePoint (h p hp) u hu
  · decide

theorem isBytes_stringifyStrings {s s' s'' : List UInt16} (h : IsWrittenInBytes s)
    (h' : IsWrittenInBytes s') (h'' : IsWrittenInBytes s'') :
    IsBytes (stringifyStrings [s, s', s'']) := by
  intro u hu
  simp only [stringifyStrings, List.map_cons, List.map_nil, intercalate_cons_cons,
    intercalate_singleton, List.mem_append, List.mem_cons, List.not_mem_nil, or_false] at hu
  rcases hu with (rfl | hu | rfl | hu | rfl | hu) | rfl
  · decide
  · exact isBytes_quote h u hu
  · decide
  · exact isBytes_quote h' u hu
  · decide
  · exact isBytes_quote h'' u hu
  · decide

/-- What is read from as many bytes as were written, was written in bytes. -/
theorem isWrittenInBytes_of_jsonParse {us s s' s'' : List UInt16} {xs : List Value}
    (hus : IsBytes us) (hlength : us.length = (stringifyStrings [s, s', s'']).length)
    (h : jsonParse us = some (.arr (.str s :: .str s' :: .str s'' :: xs))) :
    IsWrittenInBytes s ∧ IsWrittenInBytes s' ∧ IsWrittenInBytes s'' := by
  have hweight := weight_le_of_jsonParse h hus
  rw [hlength, length_stringifyStrings] at hweight
  simp only [Value.weight, weightElements] at hweight
  obtain ⟨hle, hiff⟩ := escapedLength_spec s
  obtain ⟨hle', hiff'⟩ := escapedLength_spec s'
  obtain ⟨hle'', hiff''⟩ := escapedLength_spec s''
  exact ⟨hiff.mp (by omega), hiff'.mp (by omega), hiff''.mp (by omega)⟩

end ZkChat.Js.Utf16
