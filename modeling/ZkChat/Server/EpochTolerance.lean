import ZkChat.Server.ProofUtils
import Mathlib.Algebra.Order.Floor.Ring
import Mathlib.Tactic.Linarith
import Mathlib.Tactic.Ring

set_option autoImplicit false

/-! # The tolerance for delays

The client names the ten-second slot its clock is in, and the server compares that slot with its
own. The comment in `verifyEpoch` speaks of the difference of the timestamps; what is compared with
the allowed delay is the difference of the slots, which may be larger by almost ten seconds. So a
reading is accepted where it should be unless the delay is between the two (`tolerates_iff`), and for
every delay of whole seconds there are such readings (`exists_refused`). -/

namespace ZkChat

/-- What `Date.now()` returns. The quotient by the length of an epoch is rounded by less than its
    distance to the next integer, so that the floor below is the exact one. -/
structure TimeValue where
  ms : ℤ
  range : |ms| ≤ 8640000000000000

/-- The number of the slot that a time is in. -/
def TimeValue.slot (t : TimeValue) : ℤ := t.ms / (SECONDS_PER_EPOCH * 1000)

/-- `ChatManager.getEpoch`. -/
def getEpoch (now : TimeValue) : String :=
  let millisecondsPerEpoch := SECONDS_PER_EPOCH * 1000
  Js.bigIntToString (now.ms / millisecondsPerEpoch * millisecondsPerEpoch)

/-- `verifyEpoch` for any allowed delay. -/
def verifyEpochWithin (now : ℤ) (epoch : Option Json) (allowedDelay : ℚ) : Except Exn Bool := do
  let millisecondsPerEpoch := SECONDS_PER_EPOCH * 1000
  let serverEpoch := now / millisecondsPerEpoch * millisecondsPerEpoch
  let messageEpoch ← Js.bigInt epoch
  pure (match differenceInSeconds (serverEpoch - messageEpoch) with
    | .finite q => q < allowedDelay
    | _ => false)

/-- For the delays of the configuration. -/
theorem verifyEpoch_eq (now : ℤ) (epoch : Option Json) (allowedDelay : ℕ) :
    verifyEpoch now epoch allowedDelay = verifyEpochWithin now epoch allowedDelay := rfl

/-- Readings of the clocks that differ by less than the delay are accepted, and those that differ by
    the delay and a slot are not. -/
def Tolerates (allowedDelay : ℚ) (client server : TimeValue) : Prop :=
  ((|server.ms - client.ms| : ℤ) < 1000 * allowedDelay →
    verifyEpochWithin server.ms (some (.str (getEpoch client))) allowedDelay = .ok true) ∧
  (1000 * allowedDelay + 10000 ≤ (|server.ms - client.ms| : ℤ) →
    verifyEpochWithin server.ms (some (.str (getEpoch client))) allowedDelay = .ok false)

/-! ## Slots -/

theorem differenceInSeconds_slots {k : ℤ} (hk : |k| ≤ 2 * 864000000000) :
    differenceInSeconds (10000 * k) = .finite (10 * |k| : ℤ) := by
  have hnum : Js.nearestDouble ((10000 * k : ℤ) : ℚ) = .finite ((10000 * k : ℤ) : ℚ) := by
    refine Js.nearestDouble_of_dvd (k := 4) (by decide) ⟨625 * k, by ring⟩ ?_
    have := abs_le.mp hk
    omega
  have hquot : |((10000 * k : ℤ) : ℚ)| / 1000 = ((10 * |k| : ℤ) : ℚ) := by
    push_cast
    rw [abs_mul, abs_of_pos (by norm_num : (0 : ℚ) < 10000)]
    ring
  rw [differenceInSeconds, hnum]
  simp only [hquot]
  refine Js.nearestDouble_of_isSafe ⟨Rat.den_intCast _, ?_⟩
  rw [Rat.num_intCast]
  have := abs_nonneg k
  omega

variable {client server : TimeValue} {allowedDelay : ℚ}

theorem slot_sub_range : |server.slot - client.slot| ≤ 2 * 864000000000 := by
  have hclient := abs_le.mp client.range
  have hserver := abs_le.mp server.range
  rw [abs_le]
  simp only [TimeValue.slot, SECONDS_PER_EPOCH]
  omega

/-- The readings differ by less than their slots and one slot more. -/
theorem abs_sub_lt_slots :
    |server.ms - client.ms| < 10000 * |server.slot - client.slot| + 10000 := by
  have hclient := Int.mul_ediv_add_emod client.ms 10000
  have hserver := Int.mul_ediv_add_emod server.ms 10000
  simp only [TimeValue.slot, SECONDS_PER_EPOCH]
  rw [abs_lt]
  have hle := le_abs_self (server.ms / (10 * 1000) - client.ms / (10 * 1000))
  have hge := neg_abs_le (server.ms / (10 * 1000) - client.ms / (10 * 1000))
  omega

/-- What is compared with the allowed delay are the slots. -/
theorem verifyEpochWithin_getEpoch :
    verifyEpochWithin server.ms (some (.str (getEpoch client))) allowedDelay
      = .ok (decide (((10 * |server.slot - client.slot| : ℤ) : ℚ) < allowedDelay)) := by
  have hsub : server.ms / (SECONDS_PER_EPOCH * 1000) * (SECONDS_PER_EPOCH * 1000)
      - client.ms / (SECONDS_PER_EPOCH * 1000) * (SECONDS_PER_EPOCH * 1000)
      = 10000 * (server.slot - client.slot) := by
    simp only [TimeValue.slot, SECONDS_PER_EPOCH]
    ring
  unfold verifyEpochWithin getEpoch
  rw [Js.bigInt_str_bigIntToString]
  simp only [Bind.bind, Except.bind, hsub, differenceInSeconds_slots slot_sub_range]
  rfl

/-! ## The promise -/

/-- A delay between the difference of the readings and that of their slots. -/
theorem not_tolerates (hnear : (|server.ms - client.ms| : ℤ) < 1000 * allowedDelay)
    (hfar : 1000 * allowedDelay ≤ (10000 * |server.slot - client.slot| : ℤ)) :
    ¬ Tolerates allowedDelay client server := by
  rintro ⟨haccept, -⟩
  have haccepted := haccept hnear
  rw [verifyEpochWithin_getEpoch, Except.ok.injEq, decide_eq_true_eq] at haccepted
  push_cast at haccepted hfar
  linarith

/-- The tolerance is as promised, unless the allowed delay is more than the readings differ by, and
    no more than their slots do. -/
theorem tolerates_iff (allowedDelay : ℚ) (client server : TimeValue) :
    Tolerates allowedDelay client server ↔
      ¬ ((|server.ms - client.ms| : ℤ) < 1000 * allowedDelay ∧
        1000 * allowedDelay ≤ (10000 * |server.slot - client.slot| : ℤ)) := by
  constructor
  · rintro htol ⟨hnear, hfar⟩
    exact not_tolerates hnear hfar htol
  · intro hgap
    unfold Tolerates
    rw [verifyEpochWithin_getEpoch]
    simp only [Except.ok.injEq, decide_eq_true_eq, decide_eq_false_iff_not, not_lt]
    push_cast at hgap ⊢
    constructor
    · intro hnear
      by_contra hle
      exact hgap ⟨hnear, by linarith⟩
    · intro hfar
      have hslots : ((|server.ms - client.ms| : ℤ) : ℚ)
          < ((10000 * |server.slot - client.slot| + 10000 : ℤ) : ℚ) :=
        Int.cast_lt.mpr abs_sub_lt_slots
      push_cast at hslots
      linarith

/-- A time in milliseconds after the epoch. -/
def TimeValue.ofNat (ms : ℕ) (h : ms ≤ 8640000000000000) : TimeValue where
  ms := ms
  range := by
    rw [abs_of_nonneg (Int.natCast_nonneg ms)]
    exact_mod_cast h

/-- For every number of seconds there are clocks that differ by less, and the message is refused. -/
theorem exists_refused (seconds : ℕ) (hpos : 0 < seconds) (hle : seconds ≤ 8640000000000) :
    ∃ client server : TimeValue, ¬ Tolerates seconds client server := by
  -- the last millisecond of the first slot, and the first one of a slot that is far enough
  refine ⟨.ofNat 9999 (by decide), .ofNat ((seconds + 9) / 10 * 10000) (by omega), ?_⟩
  have hslot : (TimeValue.ofNat ((seconds + 9) / 10 * 10000) (by omega)).slot
      = ((seconds + 9) / 10 : ℕ) := by
    simp only [TimeValue.slot, TimeValue.ofNat, SECONDS_PER_EPOCH]
    omega
  have hzero : (TimeValue.ofNat 9999 (by decide)).slot = 0 := by
    decide
  refine not_tolerates ?_ ?_
  · have : |((((seconds + 9) / 10 * 10000 : ℕ) : ℤ) - (9999 : ℕ))| < 1000 * (seconds : ℤ) := by
      rw [abs_lt]
      omega
    exact_mod_cast this
  · rw [hslot, hzero]
    have : 1000 * (seconds : ℤ) ≤ 10000 * |(((seconds + 9) / 10 : ℕ) : ℤ) - 0| := by
      rw [sub_zero, abs_of_nonneg (Int.natCast_nonneg _)]
      omega
    exact_mod_cast this

/-- Two clocks that are one millisecond apart, and a tolerance of five seconds. -/
theorem one_millisecond_refused :
    ¬ ∀ (allowedDelay : ℚ) (client server : TimeValue), 0 ≤ allowedDelay →
      Tolerates allowedDelay client server := by
  intro h
  refine not_tolerates ?_ ?_
    (h 5 (.ofNat 9999 (by decide)) (.ofNat 10000 (by decide)) (by norm_num))
  · have : |((TimeValue.ofNat 10000 (by decide)).ms - (TimeValue.ofNat 9999 (by decide)).ms)| = 1 := by
      decide
    rw [this]
    norm_num
  · have : 10000 * |(TimeValue.ofNat 10000 (by decide)).slot
        - (TimeValue.ofNat 9999 (by decide)).slot| = 10000 := by
      decide
    rw [this]
    norm_num

end ZkChat
