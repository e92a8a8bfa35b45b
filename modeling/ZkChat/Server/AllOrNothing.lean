import ZkChat.Server.Requests

set_option autoImplicit false

/-! # One message, all or nothing

A message that passes its checks is written twice: as a `Message` row first, then as a row of
`RequestStats`. Whether a call that fails leaves no trace is decided by the second write: the
checks only search with `x_share`, and there are values that a search takes and a document does
not. -/

namespace ZkChat

open Prog

/-- A document can be created with this value in a string path. -/
def Mongoose.Storable (v : Option Json) : Prop := ∃ text, Mongoose.castString v = .ok text

/-- The checks of the message end in the spam branch. -/
def SpamBranch (lib : Libraries) (config : IZKServerConfig) (env : CallEnv) (message : String)
    (db : Db) : Prop :=
  ∃ m, validateFormat message = some m ∧
    ((checkRules lib config env .RequestStats m.zk_proof m.epoch m.x_share).run db).1 = .ok true

/-- What a call that returns has added. -/
structure Added (row : IMessage) (db db' : Db) : Prop where
  messages : db'.messages = db.messages ++ [row]
  requestStats : ∃ stats, db'.requestStats = db.requestStats ++ [stats]
  published : db'.published = db.published ++ [.message row]

/-- The collections that a call which throws must not have touched. -/
structure Untouched (db db' : Db) : Prop where
  messages : db'.messages = db.messages
  requestStats : db'.requestStats = db.requestStats
  bannedUsers : db'.bannedUsers = db.bannedUsers
  treeNodes : db'.treeNodes = db.treeNodes
  treeZeros : db'.treeZeros = db.treeZeros
  published : db'.published = db.published

/-- The call has added one row to each collection and published once, or it has thrown and left no
    trace; the spam branch is exempt. -/
def AllOrNothing (lib : Libraries) (config : IZKServerConfig) (env : CallEnv) (message : String)
    (db : Db) : Prop :=
  match (MessageHandlerService.handleChatMessage lib config env message).run db with
  | (.ok row, db') => Added row db db'
  | (.error _, db') => ¬ SpamBranch lib config env message db → Untouched db db'

/-! ## Which messages reach the writes -/

/-- The message passes every check. -/
structure PassesChecks (lib : Libraries) (config : IZKServerConfig) (env : CallEnv)
    (m : RLNMessage) (db : Db) : Prop where
  fresh : verifyEpoch env.now m.epoch config.epochAllowedDelayThreshold = .ok true
  /-- The filters can be built, and they match no row. -/
  unmatched : ∃ nullifier yShare matchesEpoch matchesXShare,
    getNullifierFromFullProof m.zk_proof = .ok nullifier ∧
    getYShareFromFullProof m.zk_proof = .ok yShare ∧
    Mongoose.filter lib m.epoch = .ok matchesEpoch ∧
    Mongoose.filter lib m.x_share = .ok matchesXShare ∧
    (∀ row ∈ db.requestStats, ¬ (matchesEpoch row.epoch && row.nullifier = nullifier &&
      matchesXShare row.xShare && row.yShare = yShare) = true) ∧
    ¬ (db.requestStats.countP (StatsModel.counted lib m.epoch nullifier) ≠ 0 ∧
      config.spamThreshold ≤ db.requestStats.countP (StatsModel.counted lib m.epoch nullifier))
  valid : ∃ root, db.findRoot = some root ∧ isZkProofValid lib m.zk_proof root.cur.hash = .ok true

/-- The message can be stored as a `Message`. -/
structure StorableMessage (env : CallEnv) (m : RLNMessage) (db : Db) : Prop where
  epoch : ∃ q, Mongoose.requiredNumber m.epoch = .ok (.finite q)
  chat_type : ∃ text, Mongoose.requiredString m.chat_type = .ok text
  message_content : ∃ text, Mongoose.requiredString m.message_content = .ok text
  sender : ∃ text, Mongoose.requiredString m.sender = .ok text
  uuid : ∀ row ∈ db.messages, row.uuid ≠ env.uuid

section

variable {lib : Libraries} {config : IZKServerConfig} {env : CallEnv} {m : RLNMessage} {db db' : Db}

/-- `isDuplicate` finds nothing when both filters can be built and no row matches them. -/
theorem run_isDuplicate_false_iff {zk_proof epoch x_share : Option Json} :
    ((StatsModel.RequestStats.isDuplicate lib zk_proof epoch x_share).run db) = (.ok false, db') ↔
      db' = db ∧ ∃ nullifier yShare matchesEpoch matchesXShare,
        getNullifierFromFullProof zk_proof = .ok nullifier ∧
        getYShareFromFullProof zk_proof = .ok yShare ∧
        Mongoose.filter lib epoch = .ok matchesEpoch ∧
        Mongoose.filter lib x_share = .ok matchesXShare ∧
        ∀ row ∈ db.requestStats, ¬ (matchesEpoch row.epoch && row.nullifier = nullifier &&
          matchesXShare row.xShare && row.yShare = yShare) = true := by
  unfold StatsModel.isDuplicate StatsModel.isDuplicateRequest
  simp only [run_ofExcept_bind_ok_iff, run_query, Prod.mk.injEq, Except.ok.injEq,
    List.any_eq_false, Db.stats]
  constructor
  · rintro ⟨nullifier, hn, yShare, hy, pe, hpe, px, hpx, hrows, rfl⟩
    exact ⟨rfl, nullifier, yShare, pe, px, hn, hy, hpe, hpx, hrows⟩
  · rintro ⟨rfl, nullifier, yShare, pe, px, hn, hy, hpe, hpx, hrows⟩
    exact ⟨nullifier, hn, yShare, hy, pe, hpe, px, hpx, hrows, rfl⟩

theorem run_getRoot_iff {root : String} :
    UserService.getRoot.run db = (.ok root, db') ↔
      db' = db ∧ ∃ node, db.findRoot = some node ∧ node.cur.hash = root := by
  unfold UserService.getRoot MerkleTreeNode.findRoot
  rw [run_query_bind]
  cases db.findRoot with
  | none => simp
  | some node => simp [and_comm, eq_comm]

theorem run_isSpam_iff {zk_proof epoch : Option Json} {spamThreshold : ℕ} {spam : Bool} :
    (StatsModel.RequestStats.isSpam lib zk_proof epoch spamThreshold).run db = (.ok spam, db') ↔
      db' = db ∧ ∃ nullifier, getNullifierFromFullProof zk_proof = .ok nullifier ∧
        spam = decide (db.requestStats.countP (StatsModel.counted lib epoch nullifier) ≠ 0 ∧
          spamThreshold ≤ db.requestStats.countP (StatsModel.counted lib epoch nullifier)) := by
  unfold StatsModel.isSpam StatsModel.isSpamRequest
  simp only [run_ofExcept_bind_ok_iff, run_query, Prod.mk.injEq, Except.ok.injEq, Db.stats]
  constructor
  · rintro ⟨nullifier, hn, rfl, rfl⟩
    exact ⟨rfl, nullifier, hn, rfl⟩
  · rintro ⟨rfl, nullifier, hn, rfl⟩
    exact ⟨nullifier, hn, rfl, rfl⟩

/-- A guard in front of a program. -/
theorem run_guard_iff {α : Type} {c : Prop} [Decidable c] {e : Exn} {p : Server α} {a : α} :
    (if c then throw e else p).run db = (.ok a, db') ↔ ¬ c ∧ p.run db = (.ok a, db') := by
  by_cases h : c
  · simp [h]
  · simp [h]

/-- The checks pass exactly for these messages. -/
theorem run_checkRules_false_iff :
    (checkRules lib config env .RequestStats m.zk_proof m.epoch m.x_share).run db = (.ok false, db')
      ↔ db' = db ∧ PassesChecks lib config env m db := by
  unfold checkRules
  rw [run_ofExcept_bind_ok_iff]
  constructor
  · rintro ⟨epochValid, hfresh, h⟩
    obtain ⟨hvalid, h⟩ := run_guard_iff.mp h
    obtain ⟨duplicate, db₁, hdup, h⟩ := run_bind_ok_iff.mp h
    obtain ⟨hnot, h⟩ := run_guard_iff.mp h
    obtain ⟨root, db₂, hroot, h⟩ := run_bind_ok_iff.mp h
    obtain ⟨valid, hproof, h⟩ := run_ofExcept_bind_ok_iff.mp h
    obtain ⟨hok, hspam⟩ := run_guard_iff.mp h
    simp only [Bool.not_eq_false, Bool.not_eq_true] at hvalid hnot hok
    subst hvalid hnot hok
    obtain ⟨rfl, nullifier, yShare, pe, px, hn, hy, hpe, hpx, hrows⟩ :=
      run_isDuplicate_false_iff.mp hdup
    obtain ⟨rfl, node, hnode, rfl⟩ := run_getRoot_iff.mp hroot
    obtain ⟨rfl, nullifier', hn', hcount⟩ := run_isSpam_iff.mp hspam
    obtain rfl := Except.ok.inj (hn.symm.trans hn')
    exact ⟨rfl, hfresh, ⟨nullifier, yShare, pe, px, hn, hy, hpe, hpx, hrows,
      of_decide_eq_false hcount.symm⟩, node, hnode, hproof⟩
  · rintro ⟨rfl, hfresh, ⟨nullifier, yShare, pe, px, hn, hy, hpe, hpx, hrows, hcount⟩, node, hnode,
      hvalid⟩
    refine ⟨true, hfresh, run_guard_iff.mpr ⟨by simp, run_bind_ok_iff.mpr ⟨false, db',
      run_isDuplicate_false_iff.mpr ⟨rfl, nullifier, yShare, pe, px, hn, hy, hpe, hpx, hrows⟩,
      run_guard_iff.mpr ⟨by simp, run_bind_ok_iff.mpr ⟨_, db',
        run_getRoot_iff.mpr ⟨rfl, node, hnode, rfl⟩, ?_⟩⟩⟩⟩⟩
    exact run_ofExcept_bind_ok_iff.mpr ⟨true, hvalid, run_guard_iff.mpr ⟨by simp,
      run_isSpam_iff.mpr ⟨rfl, nullifier, hn, (decide_eq_false hcount).symm⟩⟩⟩

/-! ## The two writes -/

/-- `persistMessage` creates the row or leaves the store as it is. -/
theorem run_persistMessage (env : CallEnv) (m : RLNMessage) (db : Db) :
    (StorableMessage env m db ∧ ∃ row, (MessageHandlerService.persistMessage env m).run db
        = (.ok row, { db with messages := db.messages ++ [row] })) ∨
      (¬ StorableMessage env m db ∧
        ∃ e, (MessageHandlerService.persistMessage env m).run db = (.error e, db)) := by
  unfold MessageHandlerService.persistMessage
  cases hepoch : Mongoose.requiredNumber m.epoch with
  | error e =>
      refine Or.inr ⟨fun h => ?_, e, by simp⟩
      obtain ⟨q, hq⟩ := h.epoch
      cases hepoch.symm.trans hq
  | ok x =>
  cases htype : Mongoose.requiredString m.chat_type with
  | error e =>
      refine Or.inr ⟨fun h => ?_, e, by simp⟩
      obtain ⟨text, ht⟩ := h.chat_type
      cases htype.symm.trans ht
  | ok chat_type =>
  cases hcontent : Mongoose.requiredString m.message_content with
  | error e =>
      refine Or.inr ⟨fun h => ?_, e, by simp⟩
      obtain ⟨text, ht⟩ := h.message_content
      cases hcontent.symm.trans ht
  | ok message_content =>
  cases hsender : Mongoose.requiredString m.sender with
  | error e =>
      refine Or.inr ⟨fun h => ?_, e, by simp⟩
      obtain ⟨text, ht⟩ := h.sender
      cases hsender.symm.trans ht
  | ok sender =>
  simp only [run_ofExcept_ok_bind]
  cases x with
  | infinity negative =>
      refine Or.inr ⟨fun h => ?_, _, rfl⟩
      obtain ⟨q, hq⟩ := h.epoch
      cases hepoch.symm.trans hq
  | nan =>
      refine Or.inr ⟨fun h => ?_, _, rfl⟩
      obtain ⟨q, hq⟩ := h.epoch
      cases hepoch.symm.trans hq
  | finite q =>
  by_cases huuid : ∃ row ∈ db.messages, row.uuid = env.uuid
  · -- the unique index refuses the row
    refine Or.inr ⟨fun h => ?_, .duplicateKey, by simp [huuid]⟩
    obtain ⟨row, hrow, heq⟩ := huuid
    exact h.uuid row hrow heq
  · refine Or.inl ⟨⟨⟨q, hepoch⟩, ⟨_, htype⟩, ⟨_, hcontent⟩, ⟨_, hsender⟩, fun row hrow heq => ?_⟩,
      _, by simp [huuid]; rfl⟩
    exact huuid ⟨row, hrow, heq⟩

theorem castString_of_requiredNumber {v : Option Json} {x : Js.Number}
    (h : Mongoose.requiredNumber v = .ok x) : Mongoose.Storable v := by
  match v with
  | none => cases h
  | some .null => cases h
  | some (.bool b) => exact ⟨_, rfl⟩
  | some (.num x) => exact ⟨_, rfl⟩
  | some (.str s) => exact ⟨_, rfl⟩
  | some (.arr _) => cases h
  | some (.obj _) => cases h

/-- `saveMessage` of a message that passed the checks fails exactly when its `x_share` cannot be
    stored. -/
theorem run_saveMessage_of_passes (hpass : PassesChecks lib config env m db)
    (hstore : StorableMessage env m db) (db' : Db) :
    (Mongoose.Storable m.x_share ∧ ∃ stats,
        (StatsModel.RequestStats.saveMessage m.zk_proof m.epoch m.x_share).run db'
          = (.ok (), { db' with requestStats := db'.requestStats ++ [stats] })) ∨
      (¬ Mongoose.Storable m.x_share ∧ ∃ e,
        (StatsModel.RequestStats.saveMessage m.zk_proof m.epoch m.x_share).run db'
          = (.error e, db')) := by
  -- the checks have read the nullifier and the share, and the message has the epoch
  obtain ⟨nullifier, yShare, -, -, hn, hy, -⟩ := hpass.unmatched
  obtain ⟨q, hq⟩ := hstore.epoch
  obtain ⟨epochText, hepoch⟩ := castString_of_requiredNumber hq
  unfold StatsModel.saveMessage StatsModel.create
  simp only [hn, hy, run_ofExcept_ok_bind, Mongoose.stringPath, hepoch, Except.mapError]
  cases hx : Mongoose.castString m.x_share with
  | ok text => exact Or.inl ⟨⟨text, hx⟩, _, rfl⟩
  | error e =>
      refine Or.inr ⟨?_, .validationError, rfl⟩
      rintro ⟨text, htext⟩
      cases hx.symm.trans htext

/-! ## The call -/

theorem Untouched.refl (db : Db) : Untouched db db := ⟨rfl, rfl, rfl, rfl, rfl, rfl⟩

/-- Only the messages that pass the checks and can be stored as a `Message` decide whether the
    second write can fail after the first. -/
theorem allOrNothing_persistAndBroadcast (hpass : PassesChecks lib config env m db) :
    (match (MessageHandlerService.persistAndBroadcast env m).run db with
      | (.ok row, db') => Added row db db'
      | (.error _, db') => Untouched db db') ↔
      (StorableMessage env m db → Mongoose.Storable m.x_share) := by
  unfold MessageHandlerService.persistAndBroadcast
  rcases run_persistMessage env m db with ⟨hstore, row, hrun⟩ | ⟨hstore, e, hrun⟩
  · rw [run_bind_of_ok hrun]
    rcases run_saveMessage_of_passes hpass hstore _ with ⟨hx, stats, hsave⟩ | ⟨hx, e, hsave⟩
    · rw [run_bind_of_ok hsave]
      exact ⟨fun _ _ => hx, fun _ => ⟨rfl, ⟨stats, rfl⟩, rfl⟩⟩
    · -- the message stays without its stats
      rw [run_bind_of_error hsave]
      refine ⟨fun h => ?_, fun h => absurd (h hstore) hx⟩
      have hlen : db.messages ++ [row] = db.messages := h.messages
      simp at hlen
  · rw [run_bind_of_error hrun]
    exact ⟨fun _ h => absurd h hstore, fun _ => Untouched.refl db⟩

/-- A call that throws outside the spam branch and has stored its message is not all or nothing. -/
theorem not_allOrNothing {text : String} (hformat : validateFormat text = some m)
    (hnot : ¬ SpamBranch lib config env text db)
    (hthrown : returned ((MessageHandlerService.handleValid lib config env m).run db).1 = false)
    (hstored : ((MessageHandlerService.handleValid lib config env m).run db).2.messages
      ≠ db.messages) : ¬ AllOrNothing lib config env text db := by
  rw [AllOrNothing, handleChatMessage_of_valid hformat]
  cases hrun : (MessageHandlerService.handleValid lib config env m).run db with
  | mk result db' =>
      rw [hrun] at hthrown hstored
      cases result with
      | ok row => cases hthrown
      | error e => exact fun h => hstored (h hnot).messages

theorem allOrNothing_iff (lib : Libraries) (config : IZKServerConfig) (env : CallEnv)
    (message : String) (db : Db) :
    AllOrNothing lib config env message db ↔
      ∀ m, validateFormat message = some m → PassesChecks lib config env m db →
        StorableMessage env m db → Mongoose.Storable m.x_share := by
  unfold AllOrNothing MessageHandlerService.handleChatMessage
  cases hformat : validateFormat message with
  | none => simp [Untouched.refl]
  | some m =>
  simp only [Option.some.injEq, forall_eq']
  unfold MessageHandlerService.handleValid
  cases hcheck : (checkRules lib config env .RequestStats m.zk_proof m.epoch m.x_share).run db with
  | mk out db₁ =>
  have hdb : db₁ = db := by
    have := (checkRules_readOnly lib config env .RequestStats m.zk_proof m.epoch m.x_share).exec_eq
      db
    rwa [exec, hcheck] at this
  subst hdb
  -- a message that does not pass the checks cannot be stored halfway
  have refused : out ≠ .ok false → PassesChecks lib config env m db₁ →
      StorableMessage env m db₁ → Mongoose.Storable m.x_share := by
    intro hne hpass _
    rw [run_checkRules_false_iff.mpr ⟨rfl, hpass⟩] at hcheck
    exact absurd (Prod.mk.inj hcheck).1.symm hne
  cases out with
  | error e =>
      rw [run_bind_of_error hcheck]
      exact iff_of_true (fun _ => Untouched.refl _) (refused (by simp))
  | ok spam =>
  rw [run_bind_of_ok hcheck]
  cases spam with
  | true =>
      rw [if_pos rfl]
      obtain ⟨e, he⟩ := banSender_throws lib config m db₁
      have hspam : SpamBranch lib config env message db₁ := ⟨m, hformat, by rw [hcheck]⟩
      refine iff_of_true ?_ (refused (by simp))
      cases hrun : (MessageHandlerService.banSender lib config m).run db₁ with
      | mk r db₂ =>
          rw [hrun] at he
          subst he
          exact fun hnot => absurd hspam hnot
  | false =>
      rw [if_neg (by simp)]
      have hpass := (run_checkRules_false_iff.mp hcheck).2
      have hnot : ¬ SpamBranch lib config env message db₁ := by
        rintro ⟨m', hm', hspam⟩
        obtain rfl := Option.some.inj (hformat.symm.trans hm')
        rw [hcheck] at hspam
        cases hspam
      have h := allOrNothing_persistAndBroadcast hpass
      cases hrun : (MessageHandlerService.persistAndBroadcast env m).run db₁ with
      | mk r db₂ =>
          rw [hrun] at h
          cases r with
          | ok row => exact h.trans ⟨fun h _ => h, fun h => h hpass⟩
          | error e =>
              exact ⟨fun hall _ => h.mp (hall hnot), fun hall _ => h.mpr (hall hpass)⟩

end

/-! ## A share that only a search accepts -/

namespace Demo

/-- A message of the member with secret 3 whose `x_share` is a list. -/
def listedShare : Json :=
  .obj
    [("zk_proof", proof 3 0 1 5), ("x_share", .arr [.str "5"]), ("epoch", .str "0"),
      ("chat_type", .str "PUBLIC"), ("message_content", .str "hi"), ("sender", .str "me")]

/-- The same message after parsing. -/
def listedShareMessage : RLNMessage :=
  { messageWith (proof 3 0 1 5) "0" "" with x_share := some (.arr [.str "5"]) }

theorem validateFormat_listedShare :
    validateFormat (Js.jsonStringify listedShare) = some listedShareMessage := by
  rw [validateFormat, Js.jsonParse_jsonStringify]
  · rfl
  · have hproof : Js.Plain (proof 3 0 1 5) := plain_proofFor ..
    simp only [listedShare, Js.Plain, Js.PlainFields, Js.PlainElements, hproof, List.map_cons,
      List.map_nil]
    decide +kernel

theorem not_spam_listedShare : ¬ SpamBranch lib (config 2) (env "a") (Js.jsonStringify listedShare)
    db := by
  rintro ⟨m, hm, hspam⟩
  obtain rfl := Option.some.inj (validateFormat_listedShare.symm.trans hm)
  exact absurd hspam (by decide +kernel)

theorem stored_halfway : ∃ message db, ¬ AllOrNothing lib (config 2) (env "a") message db := by
  have hthrown : returned ((MessageHandlerService.handleValid lib (config 2) (env "a")
      listedShareMessage).run db).1 = false := by
    decide +kernel
  have hstored : ((MessageHandlerService.handleValid lib (config 2) (env "a")
      listedShareMessage).run db).2.messages ≠ db.messages := by
    decide +kernel
  exact ⟨_, db, not_allOrNothing validateFormat_listedShare not_spam_listedShare hthrown hstored⟩

end Demo

/-- The search takes the list for `$in`, the document does not take it: the message is stored and
    the call throws. -/
theorem stored_without_stats :
    ¬ ∀ (lib : Libraries) (config : IZKServerConfig) (env : CallEnv) (message : String) (db : Db),
      AllOrNothing lib config env message db := by
  intro h
  obtain ⟨message, db, hnot⟩ := Demo.stored_halfway
  exact hnot (h _ _ _ message db)

end ZkChat
