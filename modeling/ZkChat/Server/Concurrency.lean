import ZkChat.Lib.Pool
import ZkChat.Server.RateLimit

set_option autoImplicit false

/-! # The rate limit of concurrent handlers

`handleChatMessage` is called whenever a socket message arrives, and the calls interleave at their
database operations. Between the duplicate check, the spam count and the insertion of one call the
others may insert rows; where the calls that are counted together take turns, none of them inserts
into the other's slot in between, and the checks mean what they do in a sequential run. -/

namespace ZkChat

open Prog

/-- What a row is counted by: its epoch and its nullifier, as texts. -/
abbrev Slot := String × String

namespace Db

def slotRows (db : Db) (slot : Slot) : List IRequestStats :=
  db.requestStats.filter fun row => row.epoch = some slot.1 ∧ row.nullifier = slot.2

/-- No row is there twice, and no slot holds more rows than the threshold. -/
structure WithinLimit (spamThreshold : ℕ) (db : Db) : Prop where
  distinct : db.requestStats.Nodup
  limit : ∀ slot, (db.slotRows slot).length ≤ spamThreshold

instance (spamThreshold : ℕ) (db : Db) : Decidable (db.WithinLimit spamThreshold) :=
  decidable_of_iff (db.requestStats.Nodup ∧ ∀ row ∈ db.requestStats, ∀ t, row.epoch = some t →
    (db.slotRows (t, row.nullifier)).length ≤ spamThreshold) <| by
    constructor
    · rintro ⟨hdistinct, hlimit⟩
      refine ⟨hdistinct, fun slot => ?_⟩
      cases hrows : db.slotRows slot with
      | nil => exact Nat.zero_le _
      | cons row rows =>
          have hmem : row ∈ db.slotRows slot := hrows ▸ List.mem_cons_self
          rw [slotRows, List.mem_filter, decide_eq_true_eq] at hmem
          obtain ⟨hrow, hepoch, hnull⟩ := hmem
          have := hlimit row hrow slot.1 hepoch
          rwa [hnull, Prod.mk.eta, hrows] at this
    · exact fun h => ⟨h.distinct, fun row _ t _ => h.limit (t, row.nullifier)⟩

end Db

/-- The slot of a message: what its row would be counted by. -/
def slotOf (text : String) : Option Slot :=
  (validateFormat text).bind fun m =>
    match m.epoch, getNullifierFromFullProof m.zk_proof with
    | some (.str t), .ok nullifier => some (t, nullifier)
    | _, _ => none

/-- A message of the wrong format, or with a string as its epoch. -/
def StringEpoch (text : String) : Prop :=
  ∀ m, validateFormat text = some m → ∃ t, m.epoch = some (.str t)

/-- A call of the handler. -/
abbrev ChatCall := CallEnv × String

def handler (lib : Libraries) (config : IZKServerConfig) (call : ChatCall) : Server IMessage :=
  MessageHandlerService.handleChatMessage lib config call.1 call.2

/-! ## What the calls do to each other -/

/-- The interference a call of the slot can stand. -/
def SlotKept (slot : Slot) (db db' : Db) : Prop := db'.slotRows slot = db.slotRows slot

/-- What a call of the slot does. -/
inductive Inserts (spamThreshold : ℕ) (slot : Slot) (db db' : Db) : Prop
  | nothing (h : db'.requestStats = db.requestStats)
  | row {row : IRequestStats} (hslot : row.epoch = some slot.1 ∧ row.nullifier = slot.2)
      (hnew : row ∉ db.requestStats) (hroom : (db.slotRows slot).length < spamThreshold)
      (h : db'.requestStats = db.requestStats ++ [row])

/-- What the other actions do. -/
def SameRequestStats (db db' : Db) : Prop := db'.requestStats = db.requestStats

section

variable {spamThreshold : ℕ} {slot slot' : Slot} {db db' : Db}

theorem SameStats.sameRequestStats (h : SameStats db db') : SameRequestStats db db' :=
  h .RequestStats

theorem SameRequestStats.slotKept (h : SameRequestStats db db') : SlotKept slot db db' := by
  rw [SlotKept, Db.slotRows, Db.slotRows, h]

theorem SameRequestStats.inserts (h : SameRequestStats db db') : Inserts spamThreshold slot db db' :=
  .nothing h

theorem SameRequestStats.withinLimit (h : SameRequestStats db db')
    (hlimit : db.WithinLimit spamThreshold) : db'.WithinLimit spamThreshold := by
  refine ⟨?_, fun slot => ?_⟩
  · rw [h]
    exact hlimit.distinct
  · rw [h.slotKept]
    exact hlimit.limit slot

theorem slotRows_append {row : IRequestStats}
    (h : db'.requestStats = db.requestStats ++ [row]) :
    db'.slotRows slot = db.slotRows slot
      ++ if row.epoch = some slot.1 ∧ row.nullifier = slot.2 then [row] else [] := by
  rw [Db.slotRows, h, List.filter_append, Db.slotRows]
  by_cases hrow : row.epoch = some slot.1 ∧ row.nullifier = slot.2
  · rw [if_pos hrow, List.filter_cons_of_pos (by simpa using hrow), List.filter_nil]
  · rw [if_neg hrow, List.filter_cons_of_neg (by simpa using hrow), List.filter_nil]

theorem Inserts.slotKept (hne : slot ≠ slot') (h : Inserts spamThreshold slot db db') :
    SlotKept slot' db db' := by
  cases h with
  | nothing h => exact SameRequestStats.slotKept h
  | row hslot _ _ h =>
      rw [SlotKept, slotRows_append h, if_neg, List.append_nil]
      rintro ⟨hepoch, hnull⟩
      refine hne (Prod.ext ?_ (hslot.2.symm.trans hnull))
      exact Option.some.inj (hslot.1.symm.trans hepoch)

theorem Inserts.withinLimit (h : Inserts spamThreshold slot db db')
    (hlimit : db.WithinLimit spamThreshold) : db'.WithinLimit spamThreshold := by
  cases h with
  | nothing h => exact SameRequestStats.withinLimit h hlimit
  | row hslot hnew hroom h =>
      refine ⟨?_, fun slot' => ?_⟩
      · rw [h]
        refine List.nodup_append.mpr ⟨hlimit.distinct, by simp, ?_⟩
        rintro a ha b hb rfl
        exact hnew (List.mem_singleton.mp hb ▸ ha)
      · rw [slotRows_append h]
        split
        · next hslot' =>
            obtain rfl : slot = slot' := Prod.ext
              (Option.some.inj (hslot.1.symm.trans hslot'.1)) (hslot.2.symm.trans hslot'.2)
            rw [List.length_append]
            exact hroom
        · simpa using hlimit.limit slot'

end

/-! ## One call under interference -/

section

variable {lib : Libraries} {config : IZKServerConfig} {env : CallEnv} {m : RLNMessage} {slot : Slot}

/-- The message has the slot. -/
structure MessageSlot (m : RLNMessage) (slot : Slot) : Prop where
  epoch : m.epoch = some (.str slot.1)
  nullifier : getNullifierFromFullProof m.zk_proof = .ok slot.2

/-- What a call knows after its duplicate check. -/
def NoRow (m : RLNMessage) (slot : Slot) (db : Db) : Prop :=
  ∀ row ∈ db.slotRows slot, ¬ RowOf m.zk_proof m.epoch m.x_share row

/-- What it knows after its spam count. -/
def HasRoom (config : IZKServerConfig) (m : RLNMessage) (slot : Slot) (db : Db) : Prop :=
  (db.slotRows slot).length < config.spamThreshold ∧ NoRow m slot db

theorem NoRow.of_slotKept {db db' : Db} (h : NoRow m slot db) (hkept : SlotKept slot db db') :
    NoRow m slot db' := by
  intro row hrow
  rw [hkept] at hrow
  exact h row hrow

theorem HasRoom.of_slotKept {db db' : Db} (h : HasRoom config m slot db)
    (hkept : SlotKept slot db db') : HasRoom config m slot db' :=
  ⟨by rw [hkept]; exact h.1, h.2.of_slotKept hkept⟩

/-- The row of the message is in its slot. -/
theorem MessageSlot.of_rowOf (hm : MessageSlot m slot) {row : IRequestStats}
    (hrow : RowOf m.zk_proof m.epoch m.x_share row) :
    row.epoch = some slot.1 ∧ row.nullifier = slot.2 := by
  have hepoch := hrow.epoch
  rw [hm.epoch] at hepoch
  exact ⟨(Except.ok.inj hepoch).symm, Except.ok.inj (hrow.nullifier.symm.trans hm.nullifier)⟩

/-- A part that leaves the stats alone keeps what is known about the slot. -/
theorem Within.keeps {α : Type} {p : Server α} (hp : Within SameStats p) {I : Db → Prop}
    (hI : ∀ db db', I db → SlotKept slot db db' → I db') :
    Triple (SlotKept slot) (Inserts config.spamThreshold slot) (fun _ => I) I p :=
  hp.triple (fun _ _ h => h.sameRequestStats.inserts) hI
    fun db db' hdb h => hI db db' hdb h.sameRequestStats.slotKept

theorem triple_isDuplicate :
    Triple (SlotKept slot) (Inserts config.spamThreshold slot)
      (fun r db => r = .ok false → NoRow m slot db) (fun _ => True)
      (StatsModel.RequestStats.isDuplicate lib m.zk_proof m.epoch m.x_share) := by
  have hread : ∀ db db',
      (StatsModel.RequestStats.isDuplicate lib m.zk_proof m.epoch m.x_share).run db
      = (.ok false, db') → NoRow m slot db := by
    intro db db' hrun row hrow
    exact isDuplicate_false hrun row (List.mem_of_mem_filter hrow)
  unfold StatsModel.isDuplicate StatsModel.isDuplicateRequest at hread ⊢
  refine .ofExcept_bind (fun nullifier hnull => ?_) (fun _ _ _ _ h => nomatch h)
  refine .ofExcept_bind (fun yShare hy => ?_) (fun _ _ _ _ h => nomatch h)
  refine .ofExcept_bind (fun matchesEpoch hmatch => ?_) (fun _ _ _ _ h => nomatch h)
  refine .ofExcept_bind (fun matchesXShare hmatch' => ?_) (fun _ _ _ _ h => nomatch h)
  refine .query (fun _ _ _ _ => trivial) (fun _ => .nothing rfl) fun db _ hfalse => ?_
  refine hread db db ?_
  rw [hnull, hy, hmatch, hmatch', run_ofExcept_ok_bind, run_ofExcept_ok_bind, run_ofExcept_ok_bind,
    run_ofExcept_ok_bind, run_query, hfalse]

theorem triple_isSpam (hm : MessageSlot m slot) (hthreshold : 1 ≤ config.spamThreshold) :
    Triple (SlotKept slot) (Inserts config.spamThreshold slot)
      (fun r db => r = .ok false → HasRoom config m slot db) (NoRow m slot)
      (StatsModel.RequestStats.isSpam lib m.zk_proof m.epoch config.spamThreshold) := by
  unfold StatsModel.isSpam StatsModel.isSpamRequest
  rw [hm.nullifier, hm.epoch]
  refine .ofExcept_bind (fun nullifier hnull => ?_) (fun _ _ _ _ h => nomatch h)
  obtain rfl := Except.ok.inj hnull
  rw [counted_eq]
  refine .query (fun _ _ => NoRow.of_slotKept) (fun _ => .nothing rfl) fun db hno hfalse => ?_
  refine ⟨?_, hno⟩
  have hcount : ¬ (db.slot slot.1 slot.2 ≠ 0 ∧ config.spamThreshold ≤ db.slot slot.1 slot.2) :=
    of_decide_eq_false (Except.ok.inj hfalse)
  rw [Db.slot, List.countP_eq_length_filter] at hcount
  change ¬ ((db.slotRows slot).length ≠ 0 ∧ _ ≤ (db.slotRows slot).length) at hcount
  omega

/-- The checks, while the other calls of the slot do not insert. -/
theorem triple_checkRules (hm : MessageSlot m slot) (hthreshold : 1 ≤ config.spamThreshold) :
    Triple (SlotKept slot) (Inserts config.spamThreshold slot)
      (fun r db => r = .ok false → HasRoom config m slot db) (fun _ => True)
      (checkRules lib config env .RequestStats m.zk_proof m.epoch m.x_share) := by
  unfold checkRules
  refine .ofExcept_bind (fun epochValid _ => ?_) (fun _ _ _ _ h => nomatch h)
  split
  · exact .raise fun _ _ h => nomatch h
  refine triple_isDuplicate.bind (fun duplicate => ?_) (fun _ _ _ h => nomatch h)
  split
  · exact .raise fun _ _ h => nomatch h
  next hnot =>
  have hroot : Within SameStats UserService.getRoot := by
    refine .bind (.query SameStats.refl _) fun root => ?_
    cases root with
    | some _ => exact .ret _
    | none => exact .raise _
  refine Triple.bind (Q := fun _ => NoRow m slot) ?_ (fun merkleRoot => ?_)
    (fun _ _ _ h => nomatch h)
  · refine (Within.keeps hroot fun _ _ => NoRow.of_slotKept).pre fun db h => h ?_
    rw [Bool.not_eq_true] at hnot
    rw [hnot]
  refine .ofExcept_bind (fun validZkProof _ => ?_) (fun _ _ _ _ h => nomatch h)
  split
  · exact .raise fun _ _ h => nomatch h
  · exact triple_isSpam hm hthreshold

theorem triple_saveMessage (hm : MessageSlot m slot) :
    Triple (SlotKept slot) (Inserts config.spamThreshold slot) (fun _ _ => True)
      (HasRoom config m slot)
      (StatsModel.RequestStats.saveMessage m.zk_proof m.epoch m.x_share) := by
  unfold StatsModel.saveMessage StatsModel.create
  refine .ofExcept_bind (fun nullifier hnull => ?_) (fun _ _ _ _ => trivial)
  refine .ofExcept_bind (fun yShare hy => ?_) (fun _ _ _ _ => trivial)
  refine .ofExcept_bind (fun epoch hepoch => ?_) (fun _ _ _ _ => trivial)
  refine .ofExcept_bind (fun xShare hx => ?_) (fun _ _ _ _ => trivial)
  refine .modify (fun _ _ => HasRoom.of_slotKept) (fun db hroom => ?_) (fun _ _ => trivial)
  have hrow : RowOf m.zk_proof m.epoch m.x_share ⟨nullifier, epoch, xShare, yShare⟩ :=
    ⟨hnull, hy, castString_of_stringPath hepoch, castString_of_stringPath hx⟩
  refine .row (hm.of_rowOf hrow) (fun hmem => ?_) hroom.1 rfl
  exact hroom.2 _ (List.mem_filter.mpr ⟨hmem, decide_eq_true (hm.of_rowOf hrow)⟩) hrow

/-- A call of the slot. -/
theorem triple_handleValid (hm : MessageSlot m slot) (hthreshold : 1 ≤ config.spamThreshold) :
    Triple (SlotKept slot) (Inserts config.spamThreshold slot) (fun _ _ => True) (fun _ => True)
      (MessageHandlerService.handleValid lib config env m) := by
  unfold MessageHandlerService.handleValid
  refine (triple_checkRules hm hthreshold).bind (fun spamRulesViolated => ?_) (fun _ _ _ => trivial)
  split
  · exact (Within.keeps (banSender_sameStats lib config m) fun _ _ _ _ => trivial).pre
      fun _ _ => trivial
  next hnot =>
  unfold MessageHandlerService.persistAndBroadcast
  refine Triple.bind (Q := fun _ => HasRoom config m slot) ?_ (fun persisted => ?_)
    (fun _ _ _ => trivial)
  · refine (Within.keeps (persistMessage_sameStats env m) fun _ _ => HasRoom.of_slotKept).pre
      fun db h => h ?_
    rw [Bool.not_eq_true] at hnot
    rw [hnot]
  refine (triple_saveMessage hm).bind (fun _ => ?_) (fun _ _ _ => trivial)
  have hpublish : Within SameStats (publish (.message persisted) >>= fun _ =>
      (pure persisted : Server IMessage)) := .bind (publish_sameStats _) fun _ => .ret _
  exact Within.keeps hpublish fun _ _ _ _ => trivial

/-- A call without a slot inserts nothing. -/
theorem handler_idle {call : ChatCall} (hepoch : StringEpoch call.2) (hslot : slotOf call.2 = none) :
    Within SameRequestStats (handler lib config call) := by
  refine Within.mono ?_ fun _ _ => SameStats.sameRequestStats
  unfold handler MessageHandlerService.handleChatMessage
  cases hformat : validateFormat call.2 with
  | none => exact .raise _
  | some m =>
      obtain ⟨t, ht⟩ := hepoch m hformat
      rw [slotOf, hformat, Option.bind_some, ht] at hslot
      cases hnull : getNullifierFromFullProof m.zk_proof with
      | ok n =>
          rw [hnull] at hslot
          cases hslot
      | error e =>
          have hchecks : Within SameStats
              (checkRules lib config call.1 .RequestStats m.zk_proof m.epoch m.x_share) :=
            (checkRules_readOnly ..).mono fun db db' h => h ▸ SameStats.refl db
          refine .bind hchecks fun spam => ?_
          split
          · exact banSender_sameStats lib config m
          · refine .bind (persistMessage_sameStats call.1 m) fun _ => .bind ?_ fun _ =>
              .bind (publish_sameStats _) fun _ => .ret _
            rw [StatsModel.saveMessage, hnull]
            exact .raise e

theorem handler_safe (hthreshold : 1 ≤ config.spamThreshold) {call : ChatCall}
    (hslot : slotOf call.2 = some slot) (db : Db) :
    Safe (SlotKept slot) (Inserts config.spamThreshold slot) (handler lib config call) db := by
  refine Safe.of_triple (P := fun _ => True) ?_ trivial
  unfold handler MessageHandlerService.handleChatMessage
  obtain ⟨m, hformat, hm⟩ := Option.bind_eq_some_iff.mp hslot
  rw [hformat]
  refine triple_handleValid ?_ hthreshold
  split at hm
  · next hepoch hnull =>
      obtain rfl := Option.some.inj hm
      exact ⟨hepoch, hnull⟩
  · cases hm

/-! ## The pool -/

theorem handler_discipline (hthreshold : 1 ≤ config.spamThreshold) :
    Pool.Discipline (handler lib config) (fun call => slotOf call.2) SameRequestStats SlotKept
      (Inserts config.spamThreshold) (fun call => StringEpoch call.2)
      (Db.WithinLimit config.spamThreshold) where
  refl _ := rfl
  refl_slot _ _ := .nothing rfl
  disturbs_none _ _ _ h := h.slotKept
  disturbs_own _ _ _ _ hne h := h.slotKept hne
  inv_idle _ _ h hlimit := h.withinLimit hlimit
  inv_slot _ _ _ h hlimit := h.withinLimit hlimit
  idle _ hepoch hslot := handler_idle hepoch hslot
  safe _ _ _ hslot db := handler_safe hthreshold hslot db

/-- Concurrent handlers keep the limit where the calls of a slot take turns and every epoch is a
    string. -/
theorem concurrent_withinLimit (hthreshold : 1 ≤ config.spamThreshold)
    {pool : Pool ChatCall Db Exn IMessage}
    (h : Pool.Reached (handler lib config) (fun db => db.requestStats = [])
      (fun call => StringEpoch call.2)
      (Pool.Turn (handler lib config) (fun call => slotOf call.2) SameRequestStats) pool) :
    pool.state.WithinLimit config.spamThreshold := by
  refine h.inv (handler_discipline hthreshold) fun db hnone => ⟨by rw [hnone]; exact .nil, ?_⟩
  intro slot
  rw [Db.slotRows, hnone]
  exact Nat.zero_le _

end

/-! ## Two handlers at once -/

namespace Demo

theorem handler_chat {env : CallEnv} {s epoch signalHash : ℤ} {epochField x_share : String}
    (config : IZKServerConfig) (hepoch : Js.Unescaped epochField) (hx : Js.Unescaped x_share) :
    handler lib config (env, chat s epoch signalHash epochField x_share)
      = MessageHandlerService.handleValid lib config env
          (message s epoch signalHash epochField x_share) := by
  rw [handler, MessageHandlerService.handleChatMessage, validateFormat_chat hepoch hx]

theorem slotOf_chat {s epoch signalHash : ℤ} {epochField x_share : String}
    (hepoch : Js.Unescaped epochField) (hx : Js.Unescaped x_share) :
    slotOf (chat s epoch signalHash epochField x_share)
      = some (epochField, Js.bigIntToString (pair s (pair epoch 1))) := by
  rw [slotOf, validateFormat_chat hepoch hx]
  rfl

theorem stringEpoch_chat {s epoch signalHash : ℤ} {epochField x_share : String}
    (hepoch : Js.Unescaped epochField) (hx : Js.Unescaped x_share) :
    StringEpoch (chat s epoch signalHash epochField x_share) := by
  intro m hm
  rw [validateFormat_chat hepoch hx] at hm
  exact ⟨epochField, by rw [← Option.some.inj hm]; rfl⟩

/-- The messages of member 3 for the signal 5 and of member `s` for the signal 6 arrive together. -/
def together (s : ℤ) : Pool ChatCall Db Exn IMessage :=
  ((Pool.mk [] db).start (env "a", chat 3 0 5 "0" "5")
    (handler lib (config 1) (env "a", chat 3 0 5 "0" "5"))).start (env "b", chat s 0 6 "0" "6")
      (handler lib (config 1) (env "b", chat s 0 6 "0" "6"))

/-- The handlers in lockstep, up to the insertion of their rows. -/
def lockstep : List ℕ := [0, 1, 0, 1, 0, 1, 0, 1, 0, 1]

/-- The same state with parsed messages. -/
theorem together_eq (s : ℤ) : together s = ((Pool.mk [] db).start (env "a", chat 3 0 5 "0" "5")
    (MessageHandlerService.handleValid lib (config 1) (env "a") (message 3 0 5 "0" "5"))).start
      (env "b", chat s 0 6 "0" "6")
      (MessageHandlerService.handleValid lib (config 1) (env "b") (message s 0 6 "0" "6")) := by
  have hplain : Js.Unescaped "0" ∧ Js.Unescaped "5" ∧ Js.Unescaped "6" := by decide +kernel
  rw [together, handler_chat _ hplain.1 hplain.2.1, handler_chat _ hplain.1 hplain.2.2]

theorem reached_together {okStep : Pool ChatCall Db Exn IMessage → ℕ → Prop} (s : ℤ) :
    Pool.Reached (handler lib (config 1)) (fun db => db.requestStats = [])
      (fun call => StringEpoch call.2) okStep (together s) := by
  have hplain : Js.Unescaped "0" ∧ Js.Unescaped "5" ∧ Js.Unescaped "6" := by decide +kernel
  have hinit : Pool.Reached (handler lib (config 1)) (fun db => db.requestStats = [])
      (fun call => StringEpoch call.2) okStep ⟨[], db⟩ := .init (by decide +kernel)
  exact (hinit.start (env "a", _) (stringEpoch_chat hplain.1 hplain.2.1)).start (env "b", _)
    (stringEpoch_chat hplain.1 hplain.2.2)

end Demo

/-- Two messages of one member, handled at the same time: both calls count before either inserts,
    and two rows are in a slot whose limit is one. -/
theorem concurrent_handlers_exceed_limit :
    ¬ ∀ (lib : Libraries) (config : IZKServerConfig), 1 ≤ config.spamThreshold →
      ∀ pool : Pool ChatCall Db Exn IMessage,
        Pool.Reached (handler lib config) (fun db => db.requestStats = []) (fun _ => True)
          (fun _ _ => True) pool → pool.state.WithinLimit config.spamThreshold := by
  intro h
  have hreached : Pool.Reached (handler Demo.lib (Demo.config 1)) (fun db => db.requestStats = [])
      (fun _ => True) (fun _ _ => True) (Demo.together 3) :=
    ((Pool.Reached.init (by decide +kernel)).start _ trivial).start _ trivial
  have hlimit := h _ _ le_rfl _ (hreached.steps Demo.lockstep fun _ _ _ _ => trivial)
  rw [Demo.together_eq] at hlimit
  exact absurd hlimit (by decide +kernel)

/-- Messages of two members, handled at the same time. -/
theorem concurrent_handlers_of_two_members :
    ((Demo.together 4).steps Demo.lockstep).state.WithinLimit 1 := by
  have hplain : Js.Unescaped "0" ∧ Js.Unescaped "5" ∧ Js.Unescaped "6" := by decide +kernel
  refine concurrent_withinLimit le_rfl ((Demo.reached_together 4).steps_of_nodup ?_ _)
  show [slotOf (Demo.chat 3 0 5 "0" "5"), slotOf (Demo.chat 4 0 6 "0" "6")].Nodup
  rw [Demo.slotOf_chat hplain.1 hplain.2.1, Demo.slotOf_chat hplain.1 hplain.2.2]
  decide +kernel

end ZkChat
