import ZkChat.Js.BigInt
import Mathlib.Algebra.Order.Field.Basic
import Mathlib.Algebra.Order.Ring.Rat
import Mathlib.Tactic.FieldSimp
import Mathlib.Tactic.Linarith
import Mathlib.Tactic.NormNum
import Mathlib.Tactic.Positivity
import Mathlib.Tactic.Ring

set_option autoImplicit false

/-! # Numbers

A finite JavaScript number is kept as the rational it stands for (the two zeros are one: no
function of this development tells them apart). `nearestDouble` is the rounding every decimal
literal and every arithmetic result goes through, `numberToString` is `Number.prototype.toString`
with its shortest digits. Integers up to `2 ^ 53` are exact and print as they are. -/

namespace ZkChat.Js

/-- A JavaScript number. -/
inductive Number where
  | finite (q : ℚ)
  | infinity (negative : Bool)
  | nan
deriving DecidableEq

/-- `2 ^ e` for any integer exponent. -/
def pow2 : ℤ → ℚ
  | .ofNat n => 2 ^ n
  | .negSucc n => 1 / 2 ^ (n + 1)

/-- `10 ^ e` for any integer exponent. -/
def pow10 : ℤ → ℚ
  | .ofNat n => 10 ^ n
  | .negSucc n => 1 / 10 ^ (n + 1)

/-- An integer all of whose neighbours are doubles too. -/
def IsSafe (q : ℚ) : Prop := q.den = 1 ∧ q.num.natAbs ≤ 2 ^ 53

instance (q : ℚ) : Decidable (IsSafe q) := inferInstanceAs (Decidable (_ ∧ _))

/-- Rounding to an integer, ties to even. -/
def roundHalfEven (q : ℚ) : ℤ :=
  let r := q - q.floor
  if r < 1 / 2 then q.floor
  else if 1 / 2 < r then q.floor + 1
  else if q.floor % 2 = 0 then q.floor else q.floor + 1

/-- The nearest double of a rational. -/
def nearestDouble (q : ℚ) : Number :=
  if IsSafe q then .finite q
  else
    -- `q` has 52 or 53 bits before the point after scaling by `e`
    let e : ℤ := Nat.log2 q.num.natAbs - Nat.log2 q.den - 52
    let e := if |q| < pow2 (e + 52) then e - 1 else e
    let e := max e (-1074)
    let v := roundHalfEven (q / pow2 e) * pow2 e
    if pow2 1024 ≤ |v| then .infinity (q < 0) else .finite v

theorem nearestDouble_of_isSafe {q : ℚ} (h : IsSafe q) : nearestDouble q = .finite q :=
  if_pos h

theorem pow2_natCast (n : ℕ) : pow2 n = 2 ^ n := rfl

theorem lt_pow2 {a b n : ℕ} (h : a < 2 ^ b) (hle : b ≤ n) : (a : ℚ) < pow2 n := by
  rw [pow2_natCast]
  exact_mod_cast h.trans_le (Nat.pow_le_pow_right Nat.two_pos hle)

theorem exponent_lt {n a b : ℕ} (hle : 2 ^ a ≤ n) (hlt : n < 2 ^ b) : a < b :=
  (Nat.pow_lt_pow_iff_right Nat.one_lt_two).mp (hle.trans_lt hlt)

theorem abs_intCast_eq (n : ℤ) : |(n : ℚ)| = (n.natAbs : ℚ) := by
  rw [Nat.cast_natAbs, Int.cast_abs]

theorem roundHalfEven_intCast (n : ℤ) : roundHalfEven n = n := by
  have hfloor : Rat.floor (n : ℚ) = n := Rat.floor_intCast n
  rw [roundHalfEven, hfloor, if_pos]
  rw [sub_self]
  norm_num

/-- The last place of an integer that is not safe. -/
theorem nearestDouble_of_not_isSafe {n : ℤ} (hsafe : ¬ IsSafe (n : ℚ)) :
    ∃ b : ℕ, 2 ^ (b + 52) ≤ n.natAbs ∧ n.natAbs < 2 ^ (b + 53) ∧
      nearestDouble n =
        if pow2 1024 ≤ |roundHalfEven ((n : ℚ) / 2 ^ b) * (2 : ℚ) ^ b| then .infinity ((n : ℚ) < 0)
        else .finite (roundHalfEven ((n : ℚ) / 2 ^ b) * 2 ^ b) := by
  have hbig : 2 ^ 53 < n.natAbs := by simpa [IsSafe] using hsafe
  have hne : n.natAbs ≠ 0 := by omega
  obtain ⟨b, hb⟩ : ∃ b, n.natAbs.log2 = b + 52 := by
    have : 53 ≤ n.natAbs.log2 := (Nat.le_log2 hne).mpr hbig.le
    exact ⟨n.natAbs.log2 - 52, by omega⟩
  have hle : 2 ^ (b + 52) ≤ n.natAbs := hb ▸ Nat.log2_self_le hne
  have hlt : n.natAbs < 2 ^ (b + 53) := (Nat.log2_lt hne).mp (by omega)
  have hexp : (Nat.log2 (n : ℚ).num.natAbs : ℤ) - Nat.log2 (n : ℚ).den - 52 = b := by
    rw [Rat.num_intCast, Rat.den_intCast, hb]
    have : Nat.log2 1 = 0 := by decide
    rw [this]
    push_cast
    ring
  have hfull : ¬ |(n : ℚ)| < pow2 ((b : ℤ) + 52) := by
    rw [not_lt, abs_intCast_eq, show (b : ℤ) + 52 = ((b + 52 : ℕ) : ℤ) by push_cast; ring,
      pow2_natCast]
    exact_mod_cast hle
  have hmax : max (b : ℤ) (-1074) = b := max_eq_left (by omega)
  refine ⟨b, hle, hlt, ?_⟩
  rw [nearestDouble, if_neg hsafe]
  simp only [hexp, if_neg hfull, hmax, pow2_natCast]

/-- A multiple of `2 ^ k` below `2 ^ (53 + k)` is a double. -/
theorem nearestDouble_of_dvd {n : ℤ} {k : ℕ} (hk : 53 + k ≤ 1024) (hdvd : (2 : ℤ) ^ k ∣ n)
    (hlt : n.natAbs < 2 ^ (53 + k)) : nearestDouble n = .finite n := by
  by_cases hsafe : IsSafe (n : ℚ)
  · exact nearestDouble_of_isSafe hsafe
  obtain ⟨b, hle, -, heq⟩ := nearestDouble_of_not_isSafe hsafe
  have hbk : b + 52 < 53 + k := exponent_lt hle hlt
  obtain ⟨j, hj⟩ : (2 : ℤ) ^ b ∣ n := (pow_dvd_pow 2 (by omega)).trans hdvd
  have hfin : ¬ pow2 1024 ≤ |(n : ℚ)| := by
    rw [not_le, abs_intCast_eq]
    exact lt_pow2 hlt hk
  have hquot : (n : ℚ) / 2 ^ b = (j : ℤ) := by
    rw [hj]
    push_cast
    field_simp
  have hmul : (j : ℚ) * 2 ^ b = n := by
    rw [hj]
    push_cast
    ring
  rw [heq]
  simp only [hquot, roundHalfEven_intCast, hmul, if_neg hfin]

/-- The natural numbers that are doubles: they have at most 53 significant bits. -/
def IsDouble (n : ℕ) : Prop := n < 2 ^ 1024 ∧ ∃ m k : ℕ, m < 2 ^ 53 ∧ n = m * 2 ^ k

theorem isDouble_of_le {n : ℕ} (hn : n ≤ 2 ^ 53) : IsDouble n := by
  have hpow : ∀ k, 53 < k → 2 ^ 53 < 2 ^ k := fun k hk => Nat.pow_lt_pow_right Nat.one_lt_two hk
  refine ⟨hn.trans_lt (hpow 1024 (by decide)), ?_⟩
  rcases Nat.lt_or_eq_of_le hn with hlt | rfl
  · exact ⟨n, 0, hlt, by simp⟩
  · exact ⟨1, 53, by norm_num, by norm_num⟩

/-- Above `2 ^ 53` no odd number is one. -/
theorem not_isDouble_of_odd {n : ℕ} (hodd : n % 2 = 1) (hbig : 2 ^ 53 ≤ n) : ¬ IsDouble n := by
  rintro ⟨-, m, k, hm, rfl⟩
  cases k with
  | zero => omega
  | succ k =>
      rw [Nat.pow_succ, ← Nat.mul_assoc] at hodd
      omega

/-- They are the natural numbers that rounding leaves alone. -/
theorem nearestDouble_natCast_iff {n : ℕ} : nearestDouble n = .finite n ↔ IsDouble n := by
  have hcast : ((n : ℤ) : ℚ) = n := Int.cast_natCast n
  by_cases hsafe : IsSafe ((n : ℤ) : ℚ)
  · refine iff_of_true (hcast ▸ nearestDouble_of_isSafe hsafe) (isDouble_of_le ?_)
    simpa [IsSafe] using hsafe.2
  obtain ⟨b, hle, hlt, heq⟩ := nearestDouble_of_not_isSafe hsafe
  rw [Int.natAbs_natCast] at hle hlt
  constructor
  · intro hn
    rw [hcast] at heq
    rw [heq] at hn
    split at hn
    · cases hn
    · next hfin =>
        have hmul : (roundHalfEven ((n : ℚ) / 2 ^ b) : ℚ) * 2 ^ b = n := Number.finite.inj hn
        rw [hmul, not_le, Nat.abs_cast] at hfin
        have hmul' : roundHalfEven ((n : ℚ) / 2 ^ b) * 2 ^ b = n := by exact_mod_cast hmul
        generalize roundHalfEven ((n : ℚ) / 2 ^ b) = r at hmul'
        have habs : n = r.natAbs * 2 ^ b := by
          have := congrArg Int.natAbs hmul'
          rw [Int.natAbs_mul, Int.natAbs_pow, Int.natAbs_natCast] at this
          exact this.symm
        refine ⟨?_, r.natAbs, b, ?_, habs⟩
        · rw [show (1024 : ℤ) = (1024 : ℕ) from rfl, pow2_natCast] at hfin
          exact_mod_cast hfin
        · rw [Nat.add_comm, Nat.pow_add] at hlt
          exact Nat.lt_of_mul_lt_mul_right (habs ▸ hlt)
  · rintro ⟨hfin, m, k, hm, rfl⟩
    -- the last place is no higher than the factor
    have hbk : b ≤ k := by
      have hupper : m * 2 ^ k < 2 ^ (53 + k) := by
        rw [Nat.pow_add]
        exact Nat.mul_lt_mul_of_pos_right hm (by positivity)
      have := exponent_lt hle hupper
      clear hfin
      omega
    have hk : 53 + b ≤ 1024 := by
      have := exponent_lt hle hfin
      clear hfin
      omega
    have hdvd : (2 : ℤ) ^ b ∣ ((m * 2 ^ k : ℕ) : ℤ) := by
      push_cast
      exact (pow_dvd_pow 2 hbk).mul_left _
    have hlt' : ((m * 2 ^ k : ℕ) : ℤ).natAbs < 2 ^ (53 + b) := by
      rw [Int.natAbs_natCast, Nat.add_comm 53 b]
      exact hlt
    rw [← hcast]
    exact nearestDouble_of_dvd hk hdvd hlt'

/-! ## From below -/

theorem le_roundHalfEven {m : ℤ} {q : ℚ} (h : (m : ℚ) ≤ q) : m ≤ roundHalfEven q := by
  have hfloor : m ≤ q.floor := Rat.le_floor_iff.mpr h
  unfold roundHalfEven
  dsimp only
  split
  · exact hfloor
  · split
    · omega
    · split <;> omega

theorem roundHalfEven_le {m : ℤ} {q : ℚ} (h : q ≤ m) : roundHalfEven q ≤ m := by
  have hfloor : q.floor ≤ m := by
    have : (q.floor : ℚ) ≤ m := (Rat.floor_le q).trans h
    exact_mod_cast this
  rcases hfloor.lt_or_eq with hlt | heq
  · unfold roundHalfEven
    dsimp only
    split
    · exact hfloor
    · split
      · omega
      · split <;> omega
  · have hq : q = m := le_antisymm h (heq ▸ Rat.floor_le q)
    rw [hq, roundHalfEven_intCast]

theorem le_abs_roundHalfEven {m : ℤ} {q : ℚ} (h : (m : ℚ) ≤ |q|) : m ≤ |roundHalfEven q| := by
  rcases le_abs.mp h with h | h
  · exact (le_roundHalfEven h).trans (le_abs_self _)
  · have hle : roundHalfEven q ≤ -m := by
      refine roundHalfEven_le ?_
      push_cast
      linarith
    exact (by omega : m ≤ -roundHalfEven q).trans (neg_le_abs _)

theorem pow2_pos (e : ℤ) : 0 < pow2 e := by
  cases e with
  | ofNat n => exact pow_pos (by norm_num) n
  | negSucc n => exact div_pos one_pos (pow_pos (by norm_num) _)

theorem pow2_eq_zpow (e : ℤ) : pow2 e = (2 : ℚ) ^ e := by
  cases e with
  | ofNat n => rfl
  | negSucc n => rw [pow2, zpow_negSucc, one_div]

/-- The exponent of the last place, as `nearestDouble` chooses it. -/
theorem pow2_log2_le {q : ℚ} (hq : q ≠ 0) :
    pow2 (Nat.log2 q.num.natAbs - Nat.log2 q.den - 1) ≤ |q| := by
  have hnum : q.num.natAbs ≠ 0 := by simpa using hq
  have hle : 2 ^ Nat.log2 q.num.natAbs ≤ q.num.natAbs := Nat.log2_self_le hnum
  have hlt : q.den < 2 ^ (Nat.log2 q.den + 1) := Nat.lt_log2_self
  have habs : |q| = q.num.natAbs / q.den := by
    conv_lhs => rw [← Rat.num_div_den q]
    rw [abs_div, Nat.abs_cast, abs_intCast_eq]
  rw [pow2_eq_zpow, habs, le_div_iff₀ (by exact_mod_cast q.den_pos), sub_sub,
    show (Nat.log2 q.den : ℤ) + 1 = ((Nat.log2 q.den + 1 : ℕ) : ℤ) by push_cast; ring,
    zpow_sub₀ (by norm_num), zpow_natCast, zpow_natCast, div_mul_eq_mul_div,
    div_le_iff₀ (by positivity)]
  have h1 : (2 : ℚ) ^ Nat.log2 q.num.natAbs ≤ q.num.natAbs := by exact_mod_cast hle
  have h2 : (q.den : ℚ) ≤ 2 ^ (Nat.log2 q.den + 1) := by exact_mod_cast hlt.le
  exact mul_le_mul h1 h2 (by positivity) (by positivity)

/-- The last place is no higher than the 53 bits of the number allow. -/
theorem pow2_le_of_exponent {q : ℚ} (hq : q ≠ 0) {e₀ e : ℤ}
    (he₀ : e₀ = Nat.log2 q.num.natAbs - Nat.log2 q.den - 52)
    (he : e = max (if |q| < pow2 (e₀ + 52) then e₀ - 1 else e₀) (-1074)) (hpos : 0 < e) :
    pow2 (e + 52) ≤ |q| := by
  split at he
  · have hlow := pow2_log2_le hq
    rwa [show e + 52 = Nat.log2 q.num.natAbs - Nat.log2 q.den - 1 by omega]
  · next hfull =>
      rw [show e = e₀ by omega]
      exact not_lt.mp hfull

/-- Rounding does not bring a number closer to zero than an integer that is a double. -/
theorem le_abs_nearestDouble {m : ℕ} (hm : m ≤ 2 ^ 53) {q q' : ℚ} (hq : (m : ℚ) ≤ |q|)
    (h : nearestDouble q = .finite q') : (m : ℚ) ≤ |q'| := by
  by_cases hsafe : IsSafe q
  · rw [nearestDouble_of_isSafe hsafe] at h
    exact Number.finite.inj h ▸ hq
  have hne : q ≠ 0 := by
    rintro rfl
    exact hsafe (by decide)
  rw [nearestDouble, if_neg hsafe] at h
  dsimp only at h
  generalize he₀ : ((Nat.log2 q.num.natAbs : ℤ) - Nat.log2 q.den - 52) = e₀ at h
  generalize he : max (if |q| < pow2 (e₀ + 52) then e₀ - 1 else e₀) (-1074) = e at h
  split at h
  · cases h
  obtain rfl := Number.finite.inj h
  -- an integer number of last places that is no more than `q` and no less than `m`
  obtain ⟨k, hkq, hmk⟩ : ∃ k : ℤ, (k : ℚ) * pow2 e ≤ |q| ∧ (m : ℚ) ≤ k * pow2 e := by
    rcases le_or_gt e 0 with hle | hpos
    · obtain ⟨j, rfl⟩ : ∃ j : ℕ, e = -j := ⟨e.natAbs, by omega⟩
      have hscale : ((m * 2 ^ j : ℤ) : ℚ) * pow2 (-j) = m := by
        rw [pow2_eq_zpow, zpow_neg, zpow_natCast]
        push_cast
        rw [mul_assoc, mul_inv_cancel₀ (by positivity), mul_one]
      exact ⟨m * 2 ^ j, hscale.trans_le hq, hscale.ge⟩
    · obtain ⟨j, rfl⟩ : ∃ j : ℕ, e = j := ⟨e.toNat, by omega⟩
      have hbits := pow2_le_of_exponent hne he₀.symm he.symm hpos
      rw [show (j : ℤ) + 52 = ((j + 52 : ℕ) : ℤ) by push_cast; ring, pow2_natCast, pow_add]
        at hbits
      have hj : (2 : ℚ) ≤ 2 ^ j := by
        have : (2 : ℚ) ^ 1 ≤ 2 ^ j := pow_le_pow_right₀ (by norm_num) (by omega)
        simpa using this
      have hm' : (m : ℚ) ≤ 2 ^ 53 := by exact_mod_cast hm
      rw [pow2_natCast]
      refine ⟨2 ^ 52, ?_, ?_⟩
      · push_cast
        linarith
      · push_cast
        calc (m : ℚ) ≤ 2 ^ 52 * 2 := by linarith
          _ ≤ 2 ^ 52 * 2 ^ j := by gcongr
  have hround : k ≤ |roundHalfEven (q / pow2 e)| := by
    refine le_abs_roundHalfEven ?_
    rwa [abs_div, abs_of_pos (pow2_pos e), le_div_iff₀ (pow2_pos e)]
  rw [abs_mul, abs_of_pos (pow2_pos e)]
  refine hmk.trans (mul_le_mul_of_nonneg_right ?_ (pow2_pos e).le)
  exact_mod_cast hround

/-- Numbers that are not too large do not become infinite. -/
theorem nearestDouble_natCast_finite {n k : ℕ} (hn : n < 2 ^ k) (hk : k < 1024) :
    ∃ q, nearestDouble n = .finite q := by
  by_cases hsafe : IsSafe ((n : ℤ) : ℚ)
  · exact ⟨_, nearestDouble_of_isSafe hsafe⟩
  obtain ⟨b, hle, hlt, heq⟩ := nearestDouble_of_not_isSafe hsafe
  rw [Int.natAbs_natCast] at hle hlt
  have hb : b + 52 < k := exponent_lt hle hn
  have hquot : ((n : ℤ) : ℚ) / 2 ^ b ≤ ((2 ^ 53 : ℤ) : ℚ) := by
    rw [div_le_iff₀ (by positivity)]
    push_cast
    rw [Nat.add_comm, pow_add] at hlt
    exact_mod_cast hlt.le
  have hnonneg : ((0 : ℤ) : ℚ) ≤ ((n : ℤ) : ℚ) / 2 ^ b := by
    rw [Int.cast_zero, Int.cast_natCast]
    exact div_nonneg n.cast_nonneg (pow_nonneg two_pos.le b)
  have hround : |roundHalfEven (((n : ℤ) : ℚ) / 2 ^ b)| ≤ 2 ^ 53 := by
    rw [abs_of_nonneg (le_roundHalfEven hnonneg)]
    exact roundHalfEven_le hquot
  have hfinite : ¬ pow2 1024 ≤ |(roundHalfEven (((n : ℤ) : ℚ) / 2 ^ b) : ℚ) * 2 ^ b| := by
    rw [not_le, abs_mul, abs_of_pos (pow_pos two_pos b : (0 : ℚ) < 2 ^ b)]
    calc |(roundHalfEven (((n : ℤ) : ℚ) / 2 ^ b) : ℚ)| * 2 ^ b
        ≤ 2 ^ 53 * 2 ^ b := by
          gcongr
          exact_mod_cast hround
      _ = 2 ^ (53 + b) := (pow_add _ _ _).symm
      _ < pow2 (1024 : ℕ) := by
          rw [pow2_natCast]
          exact pow_lt_pow_right₀ one_lt_two (by omega)
  rw [if_neg hfinite, Int.cast_natCast] at heq
  exact ⟨_, heq⟩

theorem nearestDouble_nonneg {q q' : ℚ} (hq : 0 ≤ q) (h : nearestDouble q = .finite q') :
    0 ≤ q' := by
  unfold nearestDouble at h
  split at h
  · exact Number.finite.inj h ▸ hq
  · dsimp only at h
    generalize max _ (-1074) = e at h
    split at h
    · cases h
    · obtain rfl := Number.finite.inj h
      refine mul_nonneg (Int.cast_nonneg (le_roundHalfEven ?_)) (pow2_pos _).le
      rw [Int.cast_zero]
      exact div_nonneg hq (pow2_pos _).le

/-! ## Printing -/

/-- Digits `s`, their count `k` and the exponent `n` of the shortest decimal
    `s * 10 ^ (n - k)` that is read back as the positive double `x`. -/
def shortestDigits (x : ℚ) : ℕ × ℕ × ℤ :=
  let n : ℤ := (Nat.toDigits 10 x.num.natAbs).length - (Nat.toDigits 10 x.den).length
  let n := if x < pow10 n then n else n + 1
  let candidate (k : ℕ) : ℕ := (roundHalfEven (x / pow10 (n - k))).natAbs
  let k := ((List.range' 1 17).find? fun k =>
    nearestDouble (candidate k * pow10 (n - k)) = .finite x).getD 17
  if candidate k = 10 ^ k then (1, 1, n + 1) else (candidate k, k, n)

/-- The notation `Number.prototype.toString` chooses for given digits and exponent. -/
def layoutDigits (s k : ℕ) (n : ℤ) : List Char :=
  let ds := Nat.toDigits 10 s
  let zeros (z : ℤ) := List.replicate z.toNat '0'
  if k ≤ n ∧ n ≤ 21 then ds ++ zeros (n - k)
  else if 0 < n ∧ n ≤ 21 then ds.take n.toNat ++ '.' :: ds.drop n.toNat
  else if -6 < n ∧ n ≤ 0 then '0' :: '.' :: zeros (-n) ++ ds
  else
    let e := n - 1
    let mantissa := if k = 1 then ds else ds.take 1 ++ '.' :: ds.drop 1
    mantissa ++ 'e' :: (if e < 0 then '-' else '+') :: Nat.toDigits 10 e.natAbs

/-- `Number.prototype.toString`. -/
def numberToString : Number → String
  | .nan => "NaN"
  | .infinity negative => if negative then "-Infinity" else "Infinity"
  | .finite q =>
      if IsSafe q then bigIntToString q.num
      else
        let (s, k, n) := shortestDigits |q|
        String.ofList ((if q < 0 then ['-'] else []) ++ layoutDigits s k n)

theorem numberToString_of_isSafe {q : ℚ} (h : IsSafe q) :
    numberToString (.finite q) = bigIntToString q.num := by
  simp [numberToString, h]

/-! ## Reading -/

/-- `m * 10 ^ e`, rounded; the exponents the literal may carry are not bounded, those of doubles
    are. -/
def scaled (m : ℕ) (e : ℤ) : Number :=
  if m = 0 then .finite 0
  else if 400 < e then .infinity false
  else if e + (Nat.toDigits 10 m).length < -400 then .finite 0
  else nearestDouble (m * pow10 e)

def Number.neg : Number → Number
  | .finite q => .finite (-q)
  | .infinity negative => .infinity !negative
  | .nan => .nan

/-- An optional exponent part; `none` when the `e` has no digits. -/
def scanExponent : List Char → Option (ℤ × List Char)
  | [] => some (0, [])
  | c :: cs =>
      if c = 'e' ∨ c = 'E' then
        let (negative, cs) := match cs with
          | '-' :: rest => (true, rest)
          | '+' :: rest => (false, rest)
          | rest => (false, rest)
        match cs.span Char.isDigit with
        | ([], _) => none
        | (ds, rest) =>
            let n : ℤ := Nat.ofDigitChars 10 ds 0
            some (if negative then -n else n, rest)
      else some (0, c :: cs)

/-- An optional fraction part; the flag tells whether there was a point. -/
def scanFraction : List Char → Bool × List Char × List Char
  | '.' :: cs => (true, (cs.span Char.isDigit).1, (cs.span Char.isDigit).2)
  | cs => (false, [], cs)

/-- An unsigned decimal literal: its integer digits, whether it has a point, its fraction digits,
    its value, and the rest of the text. -/
def scanDecimal (cs : List Char) : Option (List Char × Bool × List Char × Number × List Char) :=
  let (int, cs) := cs.span Char.isDigit
  let (point, frac, cs) := scanFraction cs
  match scanExponent cs with
  | none => none
  | some (e, rest) =>
      some (int, point, frac, scaled (Nat.ofDigitChars 10 (int ++ frac) 0) (e - frac.length), rest)

/-- `StrUnsignedDecimalLiteral`, up to the end of the text. -/
def unsignedDecimal (cs : List Char) : Number :=
  if cs = "Infinity".toList then .infinity false
  else match scanDecimal cs with
    | some (int, _, frac, x, []) => if int = [] ∧ frac = [] then .nan else x
    | _ => .nan

/-- `Number(text)`. Whatever `BigInt(text)` accepts is rounded from that integer. -/
def stringToNumber (text : String) : Number :=
  match stringToBigInt text with
  | some n => nearestDouble n
  | none => match trim text.toList with
    | '-' :: cs => (unsignedDecimal cs).neg
    | '+' :: cs => unsignedDecimal cs
    | cs => unsignedDecimal cs

end ZkChat.Js
