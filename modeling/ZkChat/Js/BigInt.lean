import Mathlib.Data.Nat.Notation
import Mathlib.Tactic.Common

set_option autoImplicit false

/-! # `BigInt` of a string

`BigInt(text)` is the place where identifiers, hashes, shares and epochs stop being strings: two
texts can be different and still denote the same integer. `stringToBigInt` is ECMAScript's
`StringToBigInt`; `bigIntToString` is `BigInt.prototype.toString`, whose texts are the canonical
ones, and `stringToBigInt_bigIntToString` is the round trip every stored hash relies on. -/

namespace ZkChat

/-- What JavaScript code can throw. -/
inductive Exn where
  /-- `throw "text"`. -/
  | text (message : String)
  /-- `throw new Error("text")`. -/
  | error (message : String)
  | typeError
  | rangeError
  | syntaxError
  /-- Mongoose could not cast a value to the type of its schema path. -/
  | castError
  /-- A required path is missing or empty. -/
  | validationError
  /-- MongoDB's `E11000`: a unique index refuses the document. -/
  | duplicateKey
  /-- A loop of the model was cut off before its guard became false. -/
  | cutOff
deriving DecidableEq, Repr

namespace Js

/-- `WhiteSpace` and `LineTerminator` of the ECMAScript grammar. -/
def isSpace (c : Char) : Bool :=
  c.toNat ∈ [0x9, 0xA, 0xB, 0xC, 0xD, 0x20, 0xA0, 0x1680, 0x2028, 0x2029, 0x202F, 0x205F, 0x3000,
    0xFEFF] || (0x2000 ≤ c.toNat && c.toNat ≤ 0x200A)

/-- `String.prototype.trim`, on characters. -/
def trim (cs : List Char) : List Char :=
  ((cs.dropWhile isSpace).reverse.dropWhile isSpace).reverse

/-- The value of a digit of any base up to sixteen. -/
def digitValue (c : Char) : Nat :=
  if c.isDigit then c.toNat - '0'.toNat
  else if 'a' ≤ c ∧ c ≤ 'f' then c.toNat - 'a'.toNat + 10
  else if 'A' ≤ c ∧ c ≤ 'F' then c.toNat - 'A'.toNat + 10
  else 16

/-- A non-empty run of digits of the given base, and nothing else. -/
def digits (base : Nat) (cs : List Char) : Option Nat :=
  if cs = [] ∨ ¬ cs.all (digitValue · < base) then none
  else some (cs.foldl (fun n c => base * n + digitValue c) 0)

/-- `StringIntegerLiteral`: a prefixed literal takes no sign, the empty text is zero. -/
def integerLiteral : List Char → Option Int
  | [] => some 0
  | '0' :: 'x' :: cs => (digits 16 cs).map Int.ofNat
  | '0' :: 'X' :: cs => (digits 16 cs).map Int.ofNat
  | '0' :: 'o' :: cs => (digits 8 cs).map Int.ofNat
  | '0' :: 'O' :: cs => (digits 8 cs).map Int.ofNat
  | '0' :: 'b' :: cs => (digits 2 cs).map Int.ofNat
  | '0' :: 'B' :: cs => (digits 2 cs).map Int.ofNat
  | '-' :: cs => (digits 10 cs).map (fun n => -Int.ofNat n)
  | '+' :: cs => (digits 10 cs).map Int.ofNat
  | cs => (digits 10 cs).map Int.ofNat

/-- `StringToBigInt`; `none` is the `SyntaxError` of `BigInt(text)`. -/
def stringToBigInt (text : String) : Option Int := integerLiteral (trim text.toList)

/-- `n.toString()` of a bigint. -/
def bigIntToString (n : Int) : String := toString n

/-! ## The round trip -/

theorem toList_bigIntToString_ofNat (n : Nat) :
    (bigIntToString (Int.ofNat n)).toList = Nat.toDigits 10 n :=
  Nat.toList_repr

theorem toList_bigIntToString_negSucc (n : Nat) :
    (bigIntToString (Int.negSucc n)).toList = '-' :: Nat.toDigits 10 (n + 1) := by
  show ("-" ++ (n + 1).repr).toList = _
  rw [String.toList_append, Nat.toList_repr]
  rfl

theorem isDigit_of_mem_toDigits {n : Nat} {c : Char} (hc : c ∈ Nat.toDigits 10 n) : c.isDigit :=
  Nat.isDigit_of_mem_toDigits (by decide) (by decide) hc

theorem isDigit_or_minus {n : Int} {c : Char} (hc : c ∈ (bigIntToString n).toList) :
    c.isDigit ∨ c = '-' := by
  cases n with
  | ofNat n =>
      rw [toList_bigIntToString_ofNat] at hc
      exact Or.inl (isDigit_of_mem_toDigits hc)
  | negSucc n =>
      rw [toList_bigIntToString_negSucc, List.mem_cons] at hc
      rcases hc with hc | hc
      · exact Or.inr hc
      · exact Or.inl (isDigit_of_mem_toDigits hc)

theorem digitValue_of_isDigit {c : Char} (h : c.isDigit) : digitValue c = c.toNat - '0'.toNat := by
  simp [digitValue, h]

theorem digitValue_lt_ten {c : Char} (h : c.isDigit) : digitValue c < 10 := by
  rw [digitValue_of_isDigit h]
  have := (Char.isDigit_iff_toNat).mp h
  simp only [Char.reduceToNat] at this ⊢
  omega

theorem not_isSpace_of_isDigit {c : Char} (h : c.isDigit) : isSpace c = false := by
  have := (Char.isDigit_iff_toNat).mp h
  simp only [Char.reduceToNat] at this
  simp only [isSpace, List.mem_cons, List.not_mem_nil, or_false, Bool.or_eq_false_iff,
    Bool.and_eq_false_iff, decide_eq_false_iff_not]
  omega

theorem digits_ten_of_isDigit {cs : List Char} (hne : cs ≠ []) (h : ∀ c ∈ cs, c.isDigit) :
    digits 10 cs = some (Nat.ofDigitChars 10 cs 0) := by
  have hall : cs.all (digitValue · < 10) := by
    simp only [List.all_eq_true, decide_eq_true_eq]
    exact fun c hc => digitValue_lt_ten (h c hc)
  have hfold : ∀ n, cs.foldl (fun n c => 10 * n + digitValue c) n = Nat.ofDigitChars 10 cs n := by
    clear hne hall
    induction cs with
    | nil => intro n; simp
    | cons c cs ih =>
        intro n
        rw [List.foldl_cons, Nat.ofDigitChars_cons, ih (fun d hd => h d (by simp [hd])),
          digitValue_of_isDigit (h c (by simp))]
  simp [digits, hne, hall, hfold]

/-- Characters that neither end of a trimmed text may be. -/
theorem trim_of_ends {cs : List Char} (h : ∀ c ∈ cs, isSpace c = false) : trim cs = cs := by
  have drop : ∀ l : List Char, (∀ c ∈ l, isSpace c = false) → l.dropWhile isSpace = l := by
    intro l hl
    cases l with
    | nil => rfl
    | cons c l => simp [hl c (by simp)]
  rw [trim, drop cs h, drop _ (by simpa using h), List.reverse_reverse]

/-- A run of decimal digits is read as a decimal number: no digit is a base letter. -/
theorem integerLiteral_of_isDigit {cs : List Char} (hne : cs ≠ []) (h : ∀ c ∈ cs, c.isDigit) :
    integerLiteral cs = some ((Nat.ofDigitChars 10 cs 0 : ℕ) : Int) := by
  have hdec : (digits 10 cs).map Int.ofNat = some ((Nat.ofDigitChars 10 cs 0 : ℕ) : Int) := by
    rw [digits_ten_of_isDigit hne h]; rfl
  unfold integerLiteral
  split
  all_goals first
    | exact hdec
    | exact absurd rfl hne
    | (exfalso; revert h; simp +decide)

theorem stringToBigInt_repr (n : Nat) : stringToBigInt n.repr = some (n : Int) := by
  have hdig : ∀ c ∈ Nat.toDigits 10 n, c.isDigit := fun c hc => isDigit_of_mem_toDigits hc
  rw [stringToBigInt, Nat.toList_repr, trim_of_ends (fun c hc => not_isSpace_of_isDigit (hdig c hc)),
    integerLiteral_of_isDigit Nat.toDigits_ne_nil hdig, Nat.ofDigitChars_ten_toDigits]

/-- The canonical text of an integer denotes it. -/
@[simp] theorem stringToBigInt_bigIntToString (n : Int) :
    stringToBigInt (bigIntToString n) = some n := by
  cases n with
  | ofNat n => exact stringToBigInt_repr n
  | negSucc n =>
      have hdig : ∀ c ∈ Nat.toDigits 10 (n + 1), c.isDigit :=
        fun c hc => isDigit_of_mem_toDigits hc
      have hspace : ∀ c ∈ '-' :: Nat.toDigits 10 (n + 1), isSpace c = false := by
        simp only [List.mem_cons, forall_eq_or_imp]
        exact ⟨by decide, fun c hc => not_isSpace_of_isDigit (hdig c hc)⟩
      rw [stringToBigInt, toList_bigIntToString_negSucc, trim_of_ends hspace, integerLiteral,
        digits_ten_of_isDigit Nat.toDigits_ne_nil hdig, Nat.ofDigitChars_ten_toDigits]
      rfl

/-! ## Hexadecimal -/

/-- `n.toString(16)` of a bigint that is not negative. -/
def bigIntToHex (n : Nat) : String := String.ofList (Nat.toDigits 16 n)

theorem digitValue_digitChar : ∀ d < 16,
    digitValue (Nat.digitChar d) = d ∧ isSpace (Nat.digitChar d) = false := by
  decide

theorem hexDigits (n : Nat) : (∀ c ∈ Nat.toDigits 16 n, digitValue c < 16 ∧ isSpace c = false) ∧
    (Nat.toDigits 16 n).foldl (fun n c => 16 * n + digitValue c) 0 = n := by
  induction n using Nat.strongRecOn with
  | ind n ih =>
      rcases Nat.lt_or_ge n 16 with hlt | hge
      · obtain ⟨hvalue, hspace⟩ := digitValue_digitChar n hlt
        simp [Nat.toDigits_of_lt_base hlt, hvalue, hspace, hlt]
      · have hlast := Nat.mod_lt n (y := 16) (by decide)
        obtain ⟨hvalue, hspace⟩ := digitValue_digitChar (n % 16) hlast
        obtain ⟨hall, hfold⟩ := ih (n / 16) (by omega)
        rw [Nat.toDigits_of_base_le (by decide) hge]
        constructor
        · intro c hc
          rcases List.mem_append.mp hc with hc | hc
          · exact hall c hc
          · rw [List.mem_singleton.mp hc, hvalue]
            exact ⟨hlast, hspace⟩
        · rw [List.foldl_append, hfold, List.foldl_cons, List.foldl_nil, hvalue]
          exact Nat.div_add_mod n 16

/-- A hexadecimal text is read behind its mark. -/
theorem stringToBigInt_bigIntToHex (n : Nat) :
    stringToBigInt ("0x" ++ bigIntToHex n) = some (n : Int) := by
  obtain ⟨hall, hfold⟩ := hexDigits n
  have hspace : ∀ c ∈ '0' :: 'x' :: Nat.toDigits 16 n, isSpace c = false := by
    simp only [List.mem_cons, forall_eq_or_imp]
    exact ⟨by decide, by decide, fun c hc => (hall c hc).2⟩
  have hdigits : (Nat.toDigits 16 n).all (digitValue · < 16) := by
    simpa using fun c hc => (hall c hc).1
  have htext : ("0x" ++ bigIntToHex n).toList = '0' :: 'x' :: Nat.toDigits 16 n := by
    simp [bigIntToHex]
  rw [stringToBigInt, htext, trim_of_ends hspace, integerLiteral, digits,
    if_neg (by simp [hdigits, Nat.toDigits_ne_nil]), hfold]
  rfl

end Js

end ZkChat
