import ZkChat.Server.Replay

set_option autoImplicit false

/-! # The rate limit

How many chat messages one member gets accepted for one epoch of its proofs. The spam rule counts
rows by two texts, the `epoch` field of the message and the internal nullifier; the limit holds
for a member's messages when these texts are functions of what the proof is about. `Bound` says
so for two requests. Nothing in the checks enforces it. -/

namespace ZkChat

open Prog

/-! ## What a valid proof says -/

namespace IZkProofMetadata

/-- The internal nullifier is written as `toString` writes the integer it denotes. -/
def CanonicalNullifier (md : IZkProofMetadata) : Prop :=
  ∀ v n, publicSignal md.zk_proof "internalNullifier" = .ok v → Js.bigInt v = .ok n →
    Js.toText v = .ok (Js.bigIntToString n)

/-- The proofs that clients serialise are canonical. -/
theorem canonicalNullifier_fullProof (e rln root x n sh y : ℤ) (epoch x_share : Option Json) :
    CanonicalNullifier ⟨some (fullProof e rln root x n sh y), epoch, x_share⟩ := by
  intro v k hv hk
  obtain rfl : some (.str (Js.bigIntToString n)) = v := Except.ok.inj hv
  obtain rfl : n = k := Except.ok.inj ((Js.bigInt_str_bigIntToString n).symm.trans hk)
  rfl

theorem proofEpoch_fullProof (e rln root x n sh y : ℤ) (epoch x_share : Option Json) :
    proofEpoch ⟨some (fullProof e rln root x n sh y), epoch, x_share⟩ = .ok e :=
  Js.bigInt_str_bigIntToString e

theorem rlnIdentifier_fullProof (e rln root x n sh y : ℤ) (epoch x_share : Option Json) :
    rlnIdentifier ⟨some (fullProof e rln root x n sh y), epoch, x_share⟩ = .ok rln :=
  Js.bigInt_str_bigIntToString rln

/-- Two requests whose texts follow their proofs: one `epoch` string, one application, and
    nullifiers without alternative spellings. -/
structure Bound (a b : IZkProofMetadata) : Prop where
  epoch : ∃ t, a.epoch = some (.str t) ∧ b.epoch = some (.str t)
  rlnIdentifier : a.rlnIdentifier = b.rlnIdentifier
  canonical : a.CanonicalNullifier ∧ b.CanonicalNullifier

end IZkProofMetadata

section

variable {ι : Type} (maker : Json → ι) (nullifierOf : ι → ℤ → ℤ)

/-- The ideal proof system: `maker` is who made an accepted proof, and its internal nullifier is an
    injective function of that member and the external nullifier. -/
structure IdealProofs (lib : Libraries) : Prop where
  sound : ∀ p, lib.verifySNARKProof (some p) = .ok true → ∃ x,
    HasSignal p "externalNullifier" x ∧ HasSignal p "internalNullifier" (nullifierOf (maker p) x)
  nullifierOf_injective : Function.Injective2 nullifierOf
  genNullifier_injective : Function.Injective2 lib.genNullifier

/-- The request carries a proof that member `i` made for the proof epoch `e`. -/
def Request.MadeBy (i : ι) (e : ℤ) (r : Request) : Prop :=
  ∃ md p, r.metadata = some md ∧ r.snarkProof = some p ∧ maker p = i ∧ md.proofEpoch = .ok e

instance [DecidableEq ι] (i : ι) (e : ℤ) (r : Request) : Decidable (r.MadeBy maker i e) :=
  decidable_of_iff (r.metadata.any (·.proofEpoch = .ok e) ∧ r.snarkProof.any (maker · = i)) <| by
    simp only [Option.any_eq_true, decide_eq_true_eq]
    constructor
    · rintro ⟨⟨md, hmd, he⟩, p, hp, hi⟩
      exact ⟨md, p, hmd, hp, hi, he⟩
    · rintro ⟨md, p, hmd, hp, hi, he⟩
      exact ⟨⟨md, hmd, he⟩, p, hp, hi⟩

end

section Limit

variable {lib : Libraries} {config : IZKServerConfig} {env : CallEnv} {db : Db}

variable {ι : Type} {maker : Json → ι} {nullifierOf : ι → ℤ → ℤ}

/-- The text of the nullifier is determined by the member, the proof epoch and the application. -/
theorem nullifier_of_valid (hideal : IdealProofs maker nullifierOf lib) {r : Request}
    {md : IZkProofMetadata} {i : ι} {e rln : ℤ} {root : String} (hmd : r.metadata = some md)
    (hmade : r.MadeBy maker i e) (hvalid : isZkProofValid lib md.zk_proof root = .ok true)
    (hrln : md.rlnIdentifier = .ok rln) (hcanon : md.CanonicalNullifier) :
    getNullifierFromFullProof md.zk_proof
      = .ok (Js.bigIntToString (nullifierOf i (lib.genNullifier e rln))) := by
  obtain ⟨e', rln', p, he, hrln', hp, hx, hverify⟩ := isZkProofValid_true hvalid
  obtain ⟨md', p', hmd', hp', rfl, he'⟩ := hmade
  obtain rfl := Option.some.inj (hmd.symm.trans hmd')
  obtain rfl : e = e' := Except.ok.inj (he'.symm.trans he)
  obtain rfl : rln = rln' := Except.ok.inj (hrln.symm.trans hrln')
  obtain rfl : p = p' := by
    rw [Request.snarkProof, hmd, Option.bind_some, hp] at hp'
    exact Option.some.inj hp'
  obtain ⟨x, hext, v, hv, hn⟩ := hideal.sound p hverify
  obtain rfl := hext.unique hx
  have hpath : publicSignal md.zk_proof "internalNullifier" = .ok v := by
    rw [publicSignal_eq, hp]
    exact hv
  rw [getNullifierFromFullProof, hpath]
  exact hcanon v _ hpath hn

/-! ## Counting -/

/-- How many rows are counted for an epoch text and a nullifier text. -/
def Db.slot (db : Db) (t n : String) : ℕ :=
  db.requestStats.countP fun row => row.epoch = some t ∧ row.nullifier = n

theorem counted_eq (lib : Libraries) (t n : String) :
    StatsModel.counted lib (some (.str t)) n
      = fun row => decide (row.epoch = some t ∧ row.nullifier = n) := by
  funext row
  simp [StatsModel.counted, Mongoose.matchField]

/-- The requests of member `i` for epoch `e` all count in one slot. -/
def InSlot (lib : Libraries) (maker : Json → ι) (i : ι) (e : ℤ) (t n : String) (r : Request) :
    Prop :=
  ∀ md, r.metadata = some md → r.MadeBy maker i e → md.epoch = some (.str t) ∧
    ∀ root, isZkProofValid lib md.zk_proof root = .ok true →
      getNullifierFromFullProof md.zk_proof = .ok n

/-- Rows are never removed, so a slot only fills up. -/
theorem slot_le_exec (lib : Libraries) (config : IZKServerConfig) (env : CallEnv) (db : Db)
    (r : Request) (t n : String) :
    db.slot t n ≤ (r.exec lib config env db).2.slot t n := by
  rcases r.exec_stats lib config env db with ⟨-, hr⟩ | ⟨md, -, heff⟩
  · rw [hr]
  · cases heff with
    | refused _ hsame =>
        have := hsame .RequestStats
        exact (congrArg _ this).ge
    | recorded _ _ hsame =>
        have h := hsame .RequestStats
        rw [Db.stats_createStats] at h
        show _ ≤ ((r.exec lib config env db).2.stats .RequestStats).countP _
        rw [h, List.countP_append]
        exact Nat.le_add_right _ _

/-- An accepted message of the slot found the slot below the threshold and has filled it by one. -/
theorem slot_of_accepted {message : String} {md : IZkProofMetadata} {t n : String}
    (hthreshold : 1 ≤ config.spamThreshold)
    (hmd : (Request.chat message).metadata = some md)
    (hacc : ((Request.chat message).exec lib config env db).1 = true)
    (hepoch : md.epoch = some (.str t))
    (hnull : ∀ root, isZkProofValid lib md.zk_proof root = .ok true →
      getNullifierFromFullProof md.zk_proof = .ok n) :
    db.slot t n < config.spamThreshold ∧
      db.slot t n + 1 ≤ ((Request.chat message).exec lib config env db).2.slot t n := by
  obtain ⟨md', nullifier, row, hmd', hchecked, hrow, hsame⟩ := Request.recorded_of_accepted hacc
  obtain rfl := Option.some.inj (hmd.symm.trans hmd')
  obtain ⟨root, hvalid⟩ := hchecked.valid
  obtain rfl : nullifier = n :=
    Except.ok.inj (hchecked.hasNullifier.symm.trans (hnull root hvalid))
  have hrowslot : row.epoch = some t ∧ row.nullifier = nullifier := by
    refine ⟨?_, Except.ok.inj (hrow.nullifier.symm.trans hchecked.hasNullifier)⟩
    have := hrow.epoch
    rw [hepoch] at this
    exact (Except.ok.inj this).symm
  constructor
  · have hspam := hchecked.spam
    rw [hepoch, counted_eq] at hspam
    have : ¬ (db.slot t nullifier ≠ 0 ∧ config.spamThreshold ≤ db.slot t nullifier) :=
      of_decide_eq_false hspam.symm
    omega
  · have h := hsame .RequestStats
    rw [Db.stats_createStats] at h
    show _ ≤ (((Request.chat message).exec lib config env db).2.stats .RequestStats).countP _
    rw [h, List.countP_append,
      if_pos (show StatsModel.RequestStats = (Request.chat message).model from rfl),
      List.countP_singleton, if_pos (by simpa using hrowslot)]
    rfl

/-! ## Runs -/

/-- A sequence of chat messages, as requests. -/
def chats (calls : List (CallEnv × String)) : List (CallEnv × Request) :=
  calls.map fun call => (call.1, .chat call.2)

theorem chats_cons (env : CallEnv) (message : String) (calls : List (CallEnv × String)) :
    chats ((env, message) :: calls) = (env, .chat message) :: chats calls := rfl

/-- An accepted request is one of the calls. -/
theorem mem_of_mem_accepted {calls : List (CallEnv × Request)} {r : Request}
    (h : r ∈ Request.accepted lib config calls db) : r ∈ calls.map Prod.snd := by
  induction calls generalizing db with
  | nil => exact h
  | cons call calls ih =>
      rw [Request.accepted] at h
      split at h
      · rcases List.mem_cons.mp h with rfl | h
        · exact List.mem_cons_self
        · exact List.mem_cons_of_mem _ (ih h)
      · exact List.mem_cons_of_mem _ (ih h)

/-- Two bound requests of one member and epoch count in one slot: the first, accepted with
    nullifier text `n`, fixes it. -/
theorem inSlot_of_bound (hideal : IdealProofs maker nullifierOf lib) {i : ι} {e : ℤ} {a b : Request}
    {mda mdb : IZkProofMetadata} {root n t : String} (hmda : a.metadata = some mda)
    (hmdb : b.metadata = some mdb) (hmade : a.MadeBy maker i e)
    (hvalid : isZkProofValid lib mda.zk_proof root = .ok true)
    (hnull : getNullifierFromFullProof mda.zk_proof = .ok n) (hepoch : mda.epoch = some (.str t))
    (hbound : b.MadeBy maker i e → mda.Bound mdb) : InSlot lib maker i e t n b := by
  intro md hmd hmadeb
  obtain rfl := Option.some.inj (hmdb.symm.trans hmd)
  obtain ⟨⟨t', ht, ht'⟩, hrlneq, hcanona, hcanonb⟩ := hbound hmadeb
  have htt : t = t' := by
    rw [hepoch, Option.some.injEq, Json.str.injEq] at ht
    exact ht
  obtain ⟨e', rln, -, -, hrln, -⟩ := isZkProofValid_true hvalid
  have hn := nullifier_of_valid hideal hmda hmade hvalid hrln hcanona
  refine ⟨htt ▸ ht', fun root' hvalid' => ?_⟩
  rw [nullifier_of_valid hideal hmdb hmadeb hvalid' (hrlneq ▸ hrln) hcanonb, ← hn, hnull]

variable [DecidableEq ι]

/-- While a member's messages count in one slot, what is still accepted fits into the room that the
    slot has below the threshold. -/
theorem countP_accepted_le_room (hthreshold : 1 ≤ config.spamThreshold) {i : ι} {e : ℤ}
    {t n : String} {calls : List (CallEnv × String)}
    (hslot : ∀ call ∈ calls, InSlot lib maker i e t n (.chat call.2)) (db : Db) :
    (Request.accepted lib config (chats calls) db).countP (fun r => r.MadeBy maker i e)
      ≤ config.spamThreshold - db.slot t n := by
  induction calls generalizing db with
  | nil => exact Nat.zero_le _
  | cons call calls ih =>
      obtain ⟨env, message⟩ := call
      have hrest := ih (fun call hc => hslot call (by simp [hc]))
        ((Request.chat message).exec lib config env db).2
      have hmono := slot_le_exec lib config env db (.chat message) t n
      rw [chats_cons, Request.accepted]
      split
      · next hacc =>
          rw [List.countP_cons]
          split
          · next hmade =>
              obtain ⟨md, -, -, hmd, -⟩ := Request.recorded_of_accepted hacc
              obtain ⟨hepoch, hnull⟩ := hslot (env, message) (by simp) md hmd (by simpa using hmade)
              obtain ⟨hroom, hfill⟩ := slot_of_accepted hthreshold hmd hacc hepoch hnull
              omega
          · omega
      · omega

/-- The rate limit, where a member's messages for one proof epoch are bound to their proofs. -/
theorem accepted_le_spamThreshold (hideal : IdealProofs maker nullifierOf lib)
    (hthreshold : 1 ≤ config.spamThreshold) (i : ι) (e : ℤ) {calls : List (CallEnv × String)}
    (hbound : calls.Pairwise fun a b => ∀ mda mdb, (Request.chat a.2).metadata = some mda →
      (Request.chat b.2).metadata = some mdb → (Request.chat a.2).MadeBy maker i e →
        (Request.chat b.2).MadeBy maker i e → mda.Bound mdb) (db : Db) :
    (Request.accepted lib config (chats calls) db).countP (fun r => r.MadeBy maker i e)
      ≤ config.spamThreshold := by
  induction calls generalizing db with
  | nil => exact Nat.zero_le _
  | cons call calls ih =>
      obtain ⟨env, message⟩ := call
      obtain ⟨hhead, htail⟩ := List.pairwise_cons.mp hbound
      rw [chats_cons, Request.accepted]
      split
      case isFalse => exact ih htail _
      next hacc =>
      rw [List.countP_cons]
      split
      case isFalse => exact ih htail _
      next hmade =>
      replace hmade : (Request.chat message).MadeBy maker i e := by simpa using hmade
      -- the first accepted message of the member either stays alone or fixes the slot
      by_cases hother : ∃ call ∈ calls, (Request.chat call.2).MadeBy maker i e
      · obtain ⟨⟨env', message'⟩, hmem, hmade'⟩ := hother
        obtain ⟨mdb, -, hmdb, -⟩ := id hmade'
        obtain ⟨mda, n, -, hmda, hchecked, -⟩ := Request.recorded_of_accepted hacc
        obtain ⟨t, ht, -⟩ := (hhead _ hmem mda mdb hmda hmdb hmade hmade').epoch
        obtain ⟨root, hvalid⟩ := hchecked.valid
        have hslot : ∀ call ∈ calls, InSlot lib maker i e t n (.chat call.2) := by
          intro call hcall md hmd hm
          exact inSlot_of_bound hideal hmda hmd hmade hvalid hchecked.hasNullifier ht
            (hhead call hcall mda md hmda hmd hmade) md hmd hm
        obtain ⟨-, hfill⟩ := slot_of_accepted hthreshold hmda hacc ht fun _ _ =>
          hchecked.hasNullifier
        have := countP_accepted_le_room hthreshold hslot
          ((Request.chat message).exec lib config env db).2
        omega
      · have hnone : (Request.accepted lib config (chats calls)
            ((Request.chat message).exec lib config env db).2).countP
              (fun r => r.MadeBy maker i e) = 0 := by
          rw [List.countP_eq_zero]
          intro r hr hmade'
          obtain ⟨c, hc, rfl⟩ := List.mem_map.mp (mem_of_mem_accepted hr)
          obtain ⟨call, hcall, rfl⟩ := List.mem_map.mp hc
          exact hother ⟨call, hcall, by simpa using hmade'⟩
        omega

end Limit

/-! ## The same epoch under two names -/

namespace Demo

/-- The secret that a proof's nullifier was made from. -/
def maker (p : Json) : ℕ :=
  ((List.range 11).find? fun s : ℕ => decide ((signal (some p) "externalNullifier").map (pair s)
    = signal (some p) "internalNullifier")).getD 0

/-- An accepted proof has the public signals that its maker's secret gives. -/
theorem signals_of_verify {p : Json} (h : lib.verifySNARKProof (some p) = .ok true) :
    maker p < 11 ∧ ∃ x sh, HasSignal p "externalNullifier" x ∧
      HasSignal p "internalNullifier" (pair (maker p) x) ∧ HasSignal p "signalHash" sh ∧
      HasSignal p "yShare" (share (maker p) x sh) := by
  obtain ⟨x, hx, h⟩ := Except.bind_ok_iff.mp h
  obtain ⟨n, hn, h⟩ := Except.bind_ok_iff.mp h
  obtain ⟨sh, hsh, h⟩ := Except.bind_ok_iff.mp h
  obtain ⟨y, hy, h⟩ := Except.bind_ok_iff.mp h
  have hany : (List.range 11).any (fun s : ℕ => n = pair s x ∧ y = share s x sh) = true :=
    Except.ok.inj h
  obtain ⟨s, hs, hsn⟩ := List.any_eq_true.mp hany
  simp only [decide_eq_true_eq] at hsn
  obtain ⟨rfl, rfl⟩ := hsn
  have hmaker : maker p = s := by
    have hfind : (List.range 11).find? (fun s : ℕ => decide ((signal (some p)
        "externalNullifier").map (pair s) = signal (some p) "internalNullifier")) = some s := by
      have hsome : ((List.range 11).find? (fun s : ℕ => decide ((signal (some p)
          "externalNullifier").map (pair s) = signal (some p) "internalNullifier"))).isSome := by
        rw [List.find?_isSome]
        refine ⟨s, hs, ?_⟩
        rw [hx, hn]
        exact decide_eq_true rfl
      obtain ⟨s', hs'⟩ := Option.isSome_iff_exists.mp hsome
      have := List.find?_some hs'
      rw [hx, hn, decide_eq_true_eq] at this
      rw [hs', Int.ofNat_inj.mp (pair_injective (Except.ok.inj this)).1]
    rw [maker, hfind, Option.getD_some]
  rw [hmaker]
  refine ⟨List.mem_range.mp hs, x, sh, ?_, ?_, ?_, ?_⟩
  · exact Except.bind_ok_iff.mp hx
  · exact Except.bind_ok_iff.mp hn
  · exact Except.bind_ok_iff.mp hsh
  · exact Except.bind_ok_iff.mp hy

theorem idealProofs : IdealProofs maker (fun s x => pair s x) lib where
  sound p h := by
    obtain ⟨-, x, -, hx, hn, -⟩ := signals_of_verify h
    exact ⟨x, hx, hn⟩
  nullifierOf_injective _ _ _ _ h :=
    ⟨Int.ofNat_inj.mp (pair_injective h).1, (pair_injective h).2⟩
  genNullifier_injective := pair_injective

/-- The `snarkProof` of a member's proof. -/
def snarkProof (s epoch signalHash : ℤ) : Option Json :=
  (Js.prop (some (proof s epoch 1 signalHash)) "snarkProof").toOption.join

theorem snarkProof_chat {s epoch signalHash : ℤ} {epochField x_share : String}
    (hepoch : Js.Unescaped epochField) (hx : Js.Unescaped x_share) :
    (Request.chat (chat s epoch signalHash epochField x_share)).snarkProof
      = snarkProof s epoch signalHash := by
  rw [Request.snarkProof, metadata_chat hepoch hx]
  rfl

/-- Two messages of one member for the proof epoch 0. -/
def twoMessages (epochField epochField' : String) : List (CallEnv × String) :=
  [(env "a", chat 3 0 5 epochField "5"), (env "b", chat 3 0 6 epochField' "6")]

end Demo

/-- With a threshold of one, a member gets two messages accepted for one epoch of its proofs by
    naming the epoch differently beside them. -/
theorem rate_limit_by_epoch_field :
    ¬ ∀ (maker : Json → ℕ) (nullifierOf : ℕ → ℤ → ℤ) (lib : Libraries) (config : IZKServerConfig),
      IdealProofs maker nullifierOf lib → 1 ≤ config.spamThreshold →
      ∀ (i : ℕ) (e : ℤ) (calls : List (CallEnv × String)) (db : Db),
        (Request.accepted lib config (chats calls) db).countP (fun r => r.MadeBy maker i e)
          ≤ config.spamThreshold := by
  intro h
  have hle := h Demo.maker _ Demo.lib (Demo.config 1) Demo.idealProofs le_rfl 3 0
    (Demo.twoMessages "0" "10000") Demo.db
  have hplain : Js.Unescaped "0" ∧ Js.Unescaped "10000" ∧ Js.Unescaped "5" ∧ Js.Unescaped "6" := by
    decide +kernel
  obtain ⟨h0, h1, h5, h6⟩ := hplain
  have hmade : ∀ sh t x, Js.Unescaped t → Js.Unescaped x → (sh = 5 ∨ sh = 6) →
      (Request.chat (Demo.chat 3 0 sh t x)).MadeBy Demo.maker 3 0 := by
    intro sh t x ht hx hsh
    refine ⟨_, _, Demo.metadata_chat ht hx, Demo.snarkProof_chat ht hx, ?_, ?_⟩
    · rcases hsh with rfl | rfl <;> decide +kernel
    · exact IZkProofMetadata.proofEpoch_fullProof ..
  have hacc : Request.accepted Demo.lib (Demo.config 1)
      (chats (Demo.twoMessages "0" "10000")) Demo.db
      = [.chat (Demo.chat 3 0 5 "0" "5"), .chat (Demo.chat 3 0 6 "10000" "6")] := by
    rw [Demo.twoMessages, chats_cons, Request.accepted, Demo.exec_chat _ _ _ h0 h5,
      if_pos (by decide +kernel), chats_cons, Request.accepted, Demo.exec_chat _ _ _ h1 h6,
      if_pos (by decide +kernel)]
    rfl
  rw [hacc, List.countP_eq_length.mpr] at hle
  · exact Nat.not_succ_le_self 1 hle
  · intro r hr
    simp only [List.mem_cons, List.not_mem_nil, or_false] at hr
    rcases hr with rfl | rfl
    · exact decide_eq_true (hmade 5 _ _ h0 h5 (.inl rfl))
    · exact decide_eq_true (hmade 6 _ _ h1 h6 (.inr rfl))

/-- With one name for the epoch, the limit holds for the same two signals. -/
theorem accepted_le_one :
    (Request.accepted Demo.lib (Demo.config 1) (chats (Demo.twoMessages "0" "0")) Demo.db).countP
      (fun r => r.MadeBy Demo.maker 3 0) ≤ 1 := by
  have hplain : Js.Unescaped "0" ∧ Js.Unescaped "5" ∧ Js.Unescaped "6" := by decide +kernel
  obtain ⟨h0, h5, h6⟩ := hplain
  refine accepted_le_spamThreshold Demo.idealProofs le_rfl 3 0 ?_ Demo.db
  refine List.pairwise_pair.mpr fun mda mdb hmda hmdb _ _ => ?_
  rw [Demo.metadata_chat h0 h5] at hmda
  rw [Demo.metadata_chat h0 h6] at hmdb
  cases hmda
  cases hmdb
  exact ⟨⟨"0", rfl, rfl⟩, (IZkProofMetadata.rlnIdentifier_fullProof ..).trans
      (IZkProofMetadata.rlnIdentifier_fullProof ..).symm,
    IZkProofMetadata.canonicalNullifier_fullProof _ _ _ _ _ _ _ _ _,
    IZkProofMetadata.canonicalNullifier_fullProof _ _ _ _ _ _ _ _ _⟩

end ZkChat
