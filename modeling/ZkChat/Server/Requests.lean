import ZkChat.Js.JsonRoundTrip
import ZkChat.Server.MessageHandler
import ZkChat.Server.TreeFrame
import Mathlib.Data.Nat.Pairing

set_option autoImplicit false

/-! # What a request does to the stats

One description for the three entry points (`Request.exec_stats`): a request either leaves both
collections as they are, or it passed every check and appended exactly one row, made from its own
fields, to the collection it was checked against. Everything about rate limits, replays and shares
is derived from this. -/

namespace ZkChat

open Prog

/-! ## Inversion rules -/

namespace Prog

variable {σ ε α β : Type}

theorem run_ofExcept_bind_ok_iff {x : Except ε α} {f : α → Prog σ ε β} {s s' : σ} {b : β} :
    (ofExcept x >>= f).run s = (.ok b, s') ↔ ∃ a, x = .ok a ∧ (f a).run s = (.ok b, s') := by
  cases x with
  | ok a => simp
  | error e => simp

theorem run_throw_ne_ok {e : ε} {s s' : σ} {b : β} :
    ¬ (throw e : Prog σ ε β).run s = (.ok b, s') := by
  simp

/-- A program that only reads leaves the state as it is. -/
theorem Within.exec_eq {p : Prog σ ε α} (hp : Within (· = ·) p) (s : σ) : p.exec s = s :=
  (hp.exec (fun _ => rfl) (fun _ _ _ => Eq.trans) s).symm

end Prog

/-! ## Proofs -/

/-- The part of a request that the checks look at. -/
structure IZkProofMetadata where
  zk_proof : Option Json
  epoch : Option Json
  x_share : Option Json

namespace IZkProofMetadata

/-- The epoch the proof was made for. -/
def proofEpoch (md : IZkProofMetadata) : Except Exn ℤ := do
  Js.bigInt (← Js.prop md.zk_proof "epoch")

/-- The application the proof was made for. -/
def rlnIdentifier (md : IZkProofMetadata) : Except Exn ℤ := do
  Js.bigInt (← Js.prop md.zk_proof "rlnIdentifier")

end IZkProofMetadata

/-- A valid proof has a `snarkProof` that is about the external nullifier of the proof's own epoch
    and application. -/
theorem isZkProofValid_true {lib : Libraries} {md : IZkProofMetadata} {root : String}
    (h : isZkProofValid lib md.zk_proof root = .ok true) :
    ∃ e rln p, md.proofEpoch = .ok e ∧ md.rlnIdentifier = .ok rln ∧
      Js.prop md.zk_proof "snarkProof" = .ok (some p) ∧
      HasSignal p "externalNullifier" (lib.genNullifier e rln) ∧
      lib.verifySNARKProof (some p) = .ok true := by
  unfold isZkProofValid at h
  obtain ⟨v₀, hv₀, h⟩ := Except.bind_ok_iff.mp h
  obtain ⟨n₀, -, h⟩ := Except.bind_ok_iff.mp h
  obtain ⟨n₁, -, h⟩ := Except.bind_ok_iff.mp h
  split at h
  · cases h
  unfold Hasher.verifyProof at h
  obtain ⟨v₁, hv₁, h⟩ := Except.bind_ok_iff.mp h
  obtain ⟨e, he, h⟩ := Except.bind_ok_iff.mp h
  obtain ⟨v₂, hv₂, h⟩ := Except.bind_ok_iff.mp h
  obtain ⟨rln, hrln, h⟩ := Except.bind_ok_iff.mp h
  obtain ⟨v, hv, h⟩ := Except.bind_ok_iff.mp h
  obtain ⟨x, hx, h⟩ := Except.bind_ok_iff.mp h
  split at h
  · cases h
  next heq =>
  obtain ⟨p, hp, h⟩ := Except.bind_ok_iff.mp h
  rw [publicSignal_eq, hp] at hv
  cases p with
  | none => cases hv
  | some p =>
      exact ⟨e, rln, p, Except.bind_ok_iff.mpr ⟨v₁, hv₁, he⟩,
        Except.bind_ok_iff.mpr ⟨v₂, hv₂, hrln⟩, hp, ⟨v, hv, not_ne_iff.mp heq ▸ hx⟩, h⟩

section

variable {lib : Libraries} {config : IZKServerConfig} {env : CallEnv} {model : StatsModel}
  {zk_proof epoch x_share : Option Json} {db db' : Db}

/-! ## The checks -/

theorem isDuplicate_readOnly (lib : Libraries) (model : StatsModel)
    (zk_proof epoch x_share : Option Json) :
    Within (· = ·) (model.isDuplicate lib zk_proof epoch x_share) :=
  .bind (.ofExcept _) fun _ => .bind (.ofExcept _) fun _ => .bind (.ofExcept _) fun _ =>
    .bind (.ofExcept _) fun _ => .query (fun _ => rfl) _

theorem getRoot_readOnly : Within (· = ·) UserService.getRoot := by
  refine .bind (.query (fun _ => rfl) _) fun root => ?_
  cases root with
  | some _ => exact .ret _
  | none => exact .raise _

/-- The checks read and write nothing. -/
theorem checkRules_readOnly (lib : Libraries) (config : IZKServerConfig) (env : CallEnv)
    (model : StatsModel) (zk_proof epoch x_share : Option Json) :
    Within (· = ·) (checkRules lib config env model zk_proof epoch x_share) := by
  refine .bind (.ofExcept _) fun _ => ?_
  split
  · exact .raise _
  refine .bind (isDuplicate_readOnly ..) fun _ => ?_
  split
  · exact .raise _
  refine .bind getRoot_readOnly fun _ => .bind (.ofExcept _) fun _ => ?_
  split
  · exact .raise _
  · exact .bind (.ofExcept _) fun _ => .query (fun _ => rfl) _

/-- The row that a request with these fields would leave. -/
structure RowOf (zk_proof epoch x_share : Option Json) (row : IRequestStats) : Prop where
  nullifier : getNullifierFromFullProof zk_proof = .ok row.nullifier
  yShare : getYShareFromFullProof zk_proof = .ok row.yShare
  epoch : Mongoose.castString epoch = .ok row.epoch
  xShare : Mongoose.castString x_share = .ok row.xShare

/-- At most one row is that of a request. -/
theorem RowOf.unique {row row' : IRequestStats} (h : RowOf zk_proof epoch x_share row)
    (h' : RowOf zk_proof epoch x_share row') : row = row' := by
  cases row
  cases row'
  have hnull := Except.ok.inj (h.nullifier.symm.trans h'.nullifier)
  have hy := Except.ok.inj (h.yShare.symm.trans h'.yShare)
  have hepoch := Except.ok.inj (h.epoch.symm.trans h'.epoch)
  have hx := Except.ok.inj (h.xShare.symm.trans h'.xShare)
  simp only at hnull hy hepoch hx
  subst hnull hy hepoch hx
  rfl

/-- What the checks have established when they return. -/
structure Checked (lib : Libraries) (config : IZKServerConfig) (env : CallEnv) (model : StatsModel)
    (zk_proof epoch x_share : Option Json) (db : Db) (nullifier : String) (spam : Bool) : Prop where
  fresh : verifyEpoch env.now epoch config.epochAllowedDelayThreshold = .ok true
  hasNullifier : getNullifierFromFullProof zk_proof = .ok nullifier
  /-- Nothing stored is the row that this request would leave. -/
  new : ∀ row ∈ db.stats model, ¬ RowOf zk_proof epoch x_share row
  valid : ∃ root, isZkProofValid lib zk_proof root = .ok true
  spam : spam = decide ((db.stats model).countP (StatsModel.counted lib epoch nullifier) ≠ 0 ∧
    config.spamThreshold ≤ (db.stats model).countP (StatsModel.counted lib epoch nullifier))

theorem isDuplicate_false (h : (model.isDuplicate lib zk_proof epoch x_share).run db
    = (.ok false, db')) : ∀ row ∈ db.stats model, ¬ RowOf zk_proof epoch x_share row := by
  unfold StatsModel.isDuplicate StatsModel.isDuplicateRequest at h
  obtain ⟨nullifier, hnull, h⟩ := run_ofExcept_bind_ok_iff.mp h
  obtain ⟨yShare, hy, h⟩ := run_ofExcept_bind_ok_iff.mp h
  obtain ⟨matchesEpoch, hmatch, h⟩ := run_ofExcept_bind_ok_iff.mp h
  obtain ⟨matchesXShare, hmatch', h⟩ := run_ofExcept_bind_ok_iff.mp h
  simp only [run_query, Prod.mk.injEq, Except.ok.injEq, List.any_eq_false] at h
  intro row hrow hof
  refine h.1 row hrow ?_
  rw [hof.nullifier] at hnull
  rw [hof.yShare] at hy
  simp only [Except.ok.injEq] at hnull hy
  simp [hnull, hy, Mongoose.filter_of_castString hof.epoch hmatch,
    Mongoose.filter_of_castString hof.xShare hmatch']

theorem run_checkRules {spam : Bool}
    (h : (checkRules lib config env model zk_proof epoch x_share).run db = (.ok spam, db')) :
    db' = db ∧ ∃ nullifier,
      Checked lib config env model zk_proof epoch x_share db nullifier spam := by
  have hdb : db' = db := by
    have := (checkRules_readOnly lib config env model zk_proof epoch x_share).exec_eq db
    rwa [exec, h] at this
  refine ⟨hdb, ?_⟩
  unfold checkRules at h
  obtain ⟨epochValid, hfresh, h⟩ := run_ofExcept_bind_ok_iff.mp h
  split at h
  · exact absurd h run_throw_ne_ok
  next hvalid =>
  obtain ⟨duplicate, db₁, hdup, h⟩ := run_bind_ok_iff.mp h
  split at h
  · exact absurd h run_throw_ne_ok
  next hnot =>
  obtain ⟨root, db₂, hroot, h⟩ := run_bind_ok_iff.mp h
  obtain ⟨valid, hproof, h⟩ := run_ofExcept_bind_ok_iff.mp h
  split at h
  · exact absurd h run_throw_ne_ok
  next hok =>
  obtain ⟨nullifier, hnull, h⟩ := run_ofExcept_bind_ok_iff.mp h
  simp only [Bool.not_eq_false] at hvalid hok
  simp only [Bool.not_eq_true] at hnot
  subst hvalid hnot hok
  simp only [StatsModel.isSpamRequest, run_query, Prod.mk.injEq, Except.ok.injEq] at h
  obtain ⟨hspam, rfl⟩ := h
  exact ⟨nullifier, hfresh, hnull, isDuplicate_false hdup, ⟨root, hproof⟩, hdb ▸ hspam.symm⟩

/-! ## Storing the row -/

theorem castString_of_stringPath {v : Option Json} {text : Option String}
    (h : Mongoose.stringPath v = .ok text) : Mongoose.castString v = .ok text := by
  unfold Mongoose.stringPath at h
  cases hv : Mongoose.castString v with
  | ok t => rwa [hv] at h
  | error e => rw [hv] at h; cases h

/-- `saveMessage` either throws before it writes or appends the request's row. -/
theorem run_saveMessage {u : Except Exn Unit}
    (h : (model.saveMessage zk_proof epoch x_share).run db = (u, db')) :
    (∃ e, u = .error e ∧ db' = db) ∨
      ∃ row, u = .ok () ∧ RowOf zk_proof epoch x_share row ∧ db' = db.createStats row model := by
  unfold StatsModel.saveMessage StatsModel.create at h
  cases hnull : getNullifierFromFullProof zk_proof with
  | error e =>
      rw [hnull, run_ofExcept_error_bind] at h
      cases h
      exact Or.inl ⟨e, rfl, rfl⟩
  | ok nullifier =>
      cases hy : getYShareFromFullProof zk_proof with
      | error e =>
          rw [hnull, hy, run_ofExcept_ok_bind, run_ofExcept_error_bind] at h
          cases h
          exact Or.inl ⟨e, rfl, rfl⟩
      | ok yShare =>
          rw [hnull, hy, run_ofExcept_ok_bind, run_ofExcept_ok_bind] at h
          cases he : Mongoose.stringPath epoch with
          | error e =>
              rw [he, run_ofExcept_error_bind] at h
              cases h
              exact Or.inl ⟨e, rfl, rfl⟩
          | ok epochText =>
              cases hx : Mongoose.stringPath x_share with
              | error e =>
                  rw [he, hx, run_ofExcept_ok_bind, run_ofExcept_error_bind] at h
                  cases h
                  exact Or.inl ⟨e, rfl, rfl⟩
              | ok xText =>
                  rw [he, hx, run_ofExcept_ok_bind, run_ofExcept_ok_bind, run_modify] at h
                  cases h
                  exact Or.inr ⟨_, rfl, ⟨hnull, hy, castString_of_stringPath he,
                    castString_of_stringPath hx⟩, rfl⟩

/-- Where there is such a row, it is appended. -/
theorem run_saveMessage_of_rowOf {row : IRequestStats} (h : RowOf zk_proof epoch x_share row) :
    (model.saveMessage zk_proof epoch x_share).run db = (.ok (), db.createStats row model) := by
  unfold StatsModel.saveMessage StatsModel.create Mongoose.stringPath
  rw [h.nullifier, h.yShare, h.epoch, h.xShare]
  rfl

/-! ## What the rest of a call leaves alone -/

/-- Both stats collections are the same. -/
def SameStats (db db' : Db) : Prop := ∀ model, db'.stats model = db.stats model

theorem SameStats.refl (db : Db) : SameStats db db := fun _ => rfl

theorem SameStats.trans {a b c : Db} (h : SameStats a b) (h' : SameStats b c) : SameStats a c :=
  fun model => (h' model).trans (h model)

theorem SameStats.of_eq {a b : Db} (h : a.requestStats = b.requestStats)
    (h' : a.keyExchangeRequestStats = b.keyExchangeRequestStats) : SameStats a b := by
  intro model
  cases model
  · exact h.symm
  · exact h'.symm

theorem Within.exec_sameStats {α : Type} {p : Server α} (hp : Within SameStats p) (db : Db) :
    SameStats db (p.exec db) :=
  hp.exec SameStats.refl (fun _ _ _ => SameStats.trans) db

theorem OnlyTree.sameStats {db db' : Db} (h : OnlyTree db db') : SameStats db db' := by
  obtain ⟨_, rfl⟩ := h
  exact .of_eq rfl rfl

/-- A step that touches neither collection. -/
theorem sameStats_await {α : Type} {op : Db → Except Exn α × Db}
    (h : ∀ db, (op db).2.requestStats = db.requestStats)
    (h' : ∀ db, (op db).2.keyExchangeRequestStats = db.keyExchangeRequestStats) :
    Within SameStats (Prog.await op) :=
  .await fun db => .of_eq (h db).symm (h' db).symm

theorem publish_sameStats (m : ISyncMessage) : Within SameStats (publish m) :=
  .modify fun _ => .of_eq rfl rfl

theorem banUser_sameStats (idCommitment : String) (secret : ℤ) :
    Within SameStats (UserService.banUser idCommitment secret) := by
  refine .bind (.query SameStats.refl _) fun found => ?_
  cases found with
  | none => exact .raise _
  | some d =>
      refine .bind (sameStats_await (fun db => ?_) (fun db => ?_)) fun _ => .ret _
      all_goals split <;> rfl

theorem banRecovered_sameStats (lib : Libraries) (config : IZKServerConfig) (user : RecoveredUser) :
    Within SameStats (MessageHandlerService.banRecovered lib config user) :=
  .bind (banUser_sameStats _ _) fun _ =>
    .bind ((updateUser_onlyTree _ _ _ _).mono fun _ _ => OnlyTree.sameStats) fun _ =>
      .bind (publish_sameStats _) fun _ => .raise _

theorem banSender_sameStats (lib : Libraries) (config : IZKServerConfig) (message : RLNMessage) :
    Within SameStats (MessageHandlerService.banSender lib config message) := by
  refine .bind ?_ fun _ => .bind (.ofExcept _) fun user => banRecovered_sameStats lib config user
  exact .bind (.ofExcept _) fun _ => .bind (.ofExcept _) fun _ => .query SameStats.refl _

/-- The spam branch never returns. -/
theorem banSender_throws (lib : Libraries) (config : IZKServerConfig) (message : RLNMessage) :
    ∀ db, ∃ e, ((MessageHandlerService.banSender lib config message).run db).1 = .error e :=
  run_bind_throws fun _ => run_bind_throws fun _ => run_bind_throws fun _ =>
    run_bind_throws fun _ => run_bind_throws fun _ _ => ⟨_, rfl⟩

theorem SameStats.createStats {db db' : Db} (h : SameStats db db') (row : IRequestStats)
    (model : StatsModel) : SameStats (db.createStats row model) (db'.createStats row model) := by
  intro model'
  rw [Db.stats_createStats, Db.stats_createStats, h model']

theorem persistMessage_sameStats (env : CallEnv) (message : RLNMessage) :
    Within SameStats (MessageHandlerService.persistMessage env message) := by
  refine .bind (.ofExcept _) fun epoch => .bind (.ofExcept _) fun _ => .bind (.ofExcept _) fun _ =>
    .bind (.ofExcept _) fun _ => ?_
  cases epoch with
  | finite q =>
      refine sameStats_await (fun db => ?_) (fun db => ?_)
      all_goals split <;> rfl
  | infinity _ => exact .raise _
  | nan => exact .raise _

/-! ## The three entry points -/

/-- The outcome of a request as far as the stats are concerned: refused without a trace, or passed
    and recorded. A recorded key exchange request may still fail. -/
inductive StatsEffect (lib : Libraries) (config : IZKServerConfig) (env : CallEnv)
    (model : StatsModel) (zk_proof epoch x_share : Option Json) (db db' : Db) (accepted : Bool) :
    Prop
  | refused (hacc : accepted = false) (h : SameStats db db')
  | recorded {nullifier : String} {row : IRequestStats}
      (hchecked : Checked lib config env model zk_proof epoch x_share db nullifier false)
      (hrow : RowOf zk_proof epoch x_share row) (h : SameStats (db.createStats row model) db')

/-- Whether a call returned. -/
def returned {α : Type} : Except Exn α → Bool
  | .ok _ => true
  | .error _ => false

theorem handleChatMessage_of_valid {text : String} {m : RLNMessage}
    (h : validateFormat text = some m) :
    MessageHandlerService.handleChatMessage lib config env text
      = MessageHandlerService.handleValid lib config env m := by
  rw [MessageHandlerService.handleChatMessage, h]

theorem exists_of_returned {α : Type} {p : Server α} (h : returned (p.run db).1 = true) :
    ∃ a db', p.run db = (.ok a, db') := by
  cases hrun : p.run db with
  | mk result db' =>
      rw [hrun] at h
      cases result with
      | ok a => exact ⟨a, db', rfl⟩
      | error e => cases h

theorem handleValid_stats (m : RLNMessage) (db : Db) :
    StatsEffect lib config env .RequestStats m.zk_proof m.epoch m.x_share db
      ((MessageHandlerService.handleValid lib config env m).run db).2
      (returned ((MessageHandlerService.handleValid lib config env m).run db).1) := by
  unfold MessageHandlerService.handleValid
  cases hcheck : (checkRules lib config env .RequestStats m.zk_proof m.epoch m.x_share).run db with
  | mk out db₁ =>
      have hdb : db₁ = db := by
        have := (checkRules_readOnly lib config env .RequestStats m.zk_proof m.epoch
          m.x_share).exec_eq db
        rwa [exec, hcheck] at this
      cases out with
      | error e =>
          rw [run_bind_of_error hcheck, hdb]
          exact .refused rfl (SameStats.refl db)
      | ok spam =>
          obtain ⟨-, nullifier, hchecked⟩ := run_checkRules hcheck
          rw [run_bind_of_ok hcheck, hdb]
          cases spam with
          | true =>
              have hsame := Within.exec_sameStats (banSender_sameStats lib config m) db
              obtain ⟨e, he⟩ := banSender_throws lib config m db
              rw [if_pos rfl, he]
              exact .refused rfl hsame
          | false =>
              rw [if_neg (by simp)]
              unfold MessageHandlerService.persistAndBroadcast
              have hsame := Within.exec_sameStats (persistMessage_sameStats env m) db
              rw [exec] at hsame
              cases hpersist : (MessageHandlerService.persistMessage env m).run db with
              | mk r db₂ =>
                  rw [hpersist] at hsame
                  cases r with
                  | error e =>
                      rw [run_bind_of_error hpersist]
                      exact .refused rfl hsame
                  | ok persisted =>
                      rw [run_bind_of_ok hpersist]
                      cases hsave : (StatsModel.RequestStats.saveMessage m.zk_proof m.epoch
                          m.x_share).run db₂ with
                      | mk u db₃ =>
                          rcases run_saveMessage hsave with ⟨e, rfl, rfl⟩ | ⟨row, rfl, hrow, rfl⟩
                          · rw [run_bind_of_error hsave]
                            exact .refused rfl hsame
                          · rw [run_bind_of_ok hsave]
                            exact .recorded hchecked hrow (hsame.createStats row _)

theorem createRow_sameStats (row : IKeyExchangeBundle) :
    Within SameStats (KeyExchangeService.createRow row) := by
  refine sameStats_await (fun db => ?_) (fun db => ?_)
  all_goals split <;> rfl

theorem deleteEach_sameStats (lib : Libraries) (bundles : List Json) (n : ℕ) :
    Within SameStats (KeyExchangeService.deleteEach lib bundles n) := by
  induction bundles generalizing n with
  | nil => exact .ret n
  | cons bundle bundles ih =>
      refine .bind ?_ fun _ => ih _
      exact .bind (.ofExcept _) fun _ => .bind (.ofExcept _) fun _ => .bind (.ofExcept _) fun _ =>
        .bind (.ofExcept _) fun _ => sameStats_await (fun _ => rfl) (fun _ => rfl)

/-- `validateMessageRules` either throws before it writes or has checked and recorded. -/
theorem run_validateMessageRules {u : Except Exn Unit}
    (h : (KeyExchangeService.validateMessageRules lib config env zk_proof epoch x_share).run db
      = (u, db')) :
    (∃ e, u = .error e ∧ db' = db) ∨ ∃ nullifier row, u = .ok () ∧
      Checked lib config env .KeyExchangeRequestStats zk_proof epoch x_share db nullifier false ∧
      RowOf zk_proof epoch x_share row ∧ db' = db.createStats row .KeyExchangeRequestStats := by
  unfold KeyExchangeService.validateMessageRules at h
  cases hcheck : (checkRules lib config env .KeyExchangeRequestStats zk_proof epoch x_share).run db
    with
  | mk out db₁ =>
      have hdb : db₁ = db := by
        have := (checkRules_readOnly lib config env .KeyExchangeRequestStats zk_proof epoch
          x_share).exec_eq db
        rwa [exec, hcheck] at this
      subst hdb
      cases out with
      | error e =>
          rw [run_bind_of_error hcheck] at h
          cases h
          exact Or.inl ⟨e, rfl, rfl⟩
      | ok spam =>
          obtain ⟨-, nullifier, hchecked⟩ := run_checkRules hcheck
          rw [run_bind_of_ok hcheck] at h
          cases spam with
          | true =>
              rw [if_pos rfl, run_throw] at h
              cases h
              exact Or.inl ⟨_, rfl, rfl⟩
          | false =>
              rw [if_neg (by simp)] at h
              rcases run_saveMessage h with ⟨e, rfl, rfl⟩ | ⟨row, rfl, hrow, rfl⟩
              · exact Or.inl ⟨e, rfl, rfl⟩
              · exact Or.inr ⟨nullifier, row, rfl, hchecked, hrow, rfl⟩

/-- A key exchange request: what follows the checks leaves the stats alone. -/
theorem validateMessageRules_stats {α : Type} {rest : Unit → Server α}
    (hrest : Within SameStats (rest ())) (db : Db) :
    StatsEffect lib config env .KeyExchangeRequestStats zk_proof epoch x_share db
      ((KeyExchangeService.validateMessageRules lib config env zk_proof epoch x_share
        >>= rest).run db).2
      (returned ((KeyExchangeService.validateMessageRules lib config env zk_proof epoch x_share
        >>= rest).run db).1) := by
  cases h : (KeyExchangeService.validateMessageRules lib config env zk_proof epoch x_share).run db
    with
  | mk u db₁ =>
      rcases run_validateMessageRules h with
        ⟨e, rfl, rfl⟩ | ⟨nullifier, row, rfl, hchecked, hrow, rfl⟩
      · rw [run_bind_of_error h]
        exact .refused rfl (SameStats.refl _)
      · rw [run_bind_of_ok h]
        exact .recorded hchecked hrow (Within.exec_sameStats hrest _)

end

/-! ## Requests -/

/-- One call of one of the entry points. -/
inductive Request where
  | chat (message : String)
  | createBundle (m : ICreateBundleMessage)
  | deleteBundles (m : IDeleteBundlesMessage)

namespace Request

/-- `none` for a chat message of the wrong format. -/
def metadata : Request → Option IZkProofMetadata
  | chat message => (validateFormat message).map fun m => ⟨m.zk_proof, m.epoch, m.x_share⟩
  | createBundle m => some ⟨m.zk_proof, m.epoch, m.x_share⟩
  | deleteBundles m => some ⟨m.zk_proof, m.epoch, m.x_share⟩

/-- The collection the request is checked against. -/
def model : Request → StatsModel
  | chat _ => .RequestStats
  | createBundle _ => .KeyExchangeRequestStats
  | deleteBundles _ => .KeyExchangeRequestStats

/-- Whether the call returned, and the state it left. -/
def exec (lib : Libraries) (config : IZKServerConfig) (env : CallEnv) :
    Request → Db → Bool × Db
  | chat message, db =>
      ((MessageHandlerService.handleChatMessage lib config env message).run db).map returned id
  | createBundle m, db => ((KeyExchangeService.createBundle lib config env m).run db).map returned id
  | deleteBundles m, db =>
      ((KeyExchangeService.deleteBundles lib config env m).run db).map returned id

theorem exec_stats (lib : Libraries) (config : IZKServerConfig) (env : CallEnv) (r : Request)
    (db : Db) :
    (r.metadata = none ∧ r.exec lib config env db = (false, db)) ∨
      ∃ md, r.metadata = some md ∧ StatsEffect lib config env r.model md.zk_proof md.epoch md.x_share
        db (r.exec lib config env db).2 (r.exec lib config env db).1 := by
  cases r with
  | chat message =>
      cases hformat : validateFormat message with
      | none =>
          refine Or.inl ⟨by rw [metadata, hformat, Option.map_none], ?_⟩
          simp only [exec, MessageHandlerService.handleChatMessage, hformat]
          rfl
      | some m =>
          refine Or.inr ⟨_, by rw [metadata, hformat, Option.map_some], ?_⟩
          simp only [exec, MessageHandlerService.handleChatMessage, hformat]
          exact handleValid_stats m db
  | createBundle m =>
      refine Or.inr ⟨_, rfl, validateMessageRules_stats ?_ db⟩
      exact .bind (.ofExcept _) fun _ => .bind (.ofExcept _) fun _ => .bind (.ofExcept _) fun _ =>
        .bind (.ofExcept _) fun _ => .bind (createRow_sameStats _) fun _ => .ret _
  | deleteBundles m =>
      refine Or.inr ⟨_, rfl, validateMessageRules_stats ?_ db⟩
      exact .bind (.ofExcept _) fun _ => deleteEach_sameStats lib _ 0

end Request

/-! ## A small deployment

For concrete runs: the field has eleven elements, a proof of the member with secret `s` is accepted
exactly when its public signals are the ones that `s` gives, and two members, with secrets 3 and
4, are in a tree of one level. -/

namespace Demo

/-- An injective pairing of integers. -/
def pair (a b : ℤ) : ℤ :=
  let nat (n : ℤ) : ℕ := if 0 ≤ n then 2 * n.toNat else 2 * (-n).toNat - 1
  Nat.pair (nat a) (nat b)

theorem pair_injective : Function.Injective2 pair := by
  intro a a' b b' h
  have hnat : ∀ m n : ℤ, (if 0 ≤ m then 2 * m.toNat else 2 * (-m).toNat - 1)
      = (if 0 ≤ n then 2 * n.toNat else 2 * (-n).toNat - 1) → m = n := by
    intro m n hmn
    split at hmn <;> split at hmn <;> omega
  obtain ⟨h₁, h₂⟩ := Nat.pair_eq_pair.mp (Int.ofNat_inj.mp h)
  exact ⟨hnat _ _ h₁, hnat _ _ h₂⟩

/-- An injective hash of two values. -/
def pairs : List ℤ → ℤ
  | [a, b] => pair a b
  | _ => 0

/-- The share of the member with secret `s` at the abscissa `x`. -/
def share (s externalNullifier x : ℤ) : ℤ := (s + x * sumHash [s, externalNullifier]) % 11

/-- The proof that the member with secret `s` makes against a root, for an epoch and a signal. -/
def proofFor (merkleRoot s epoch rlnIdentifier signalHash : ℤ) : Json :=
  let externalNullifier := pair epoch rlnIdentifier
  fullProof epoch rlnIdentifier merkleRoot externalNullifier (pair s externalNullifier) signalHash
    (share s externalNullifier signalHash)

/-- The same against the root of the tree with the two members. -/
def proof (s epoch rlnIdentifier signalHash : ℤ) : Json :=
  proofFor (sumHash [sumHash [3], sumHash [4]]) s epoch rlnIdentifier signalHash

def signal (snarkProof : Option Json) (name : String) : Except Exn ℤ := do
  Js.bigInt (← Js.path snarkProof ["publicSignals", name])

def verifySNARKProof (snarkProof : Option Json) : Except Exn Bool := do
  let externalNullifier ← signal snarkProof "externalNullifier"
  let internalNullifier ← signal snarkProof "internalNullifier"
  let signalHash ← signal snarkProof "signalHash"
  let yShare ← signal snarkProof "yShare"
  pure ((List.range 11).any fun s : ℕ =>
    internalNullifier = pair s externalNullifier ∧ yShare = share s externalNullifier signalHash)

/-- Interpolation at zero; `d ^ 9` is the inverse of `d`. -/
def shamirRecovery (x₁ x₂ y₁ y₂ : ℤ) : Except Exn ℤ :=
  if (x₂ - x₁) % 11 = 0 then .error (.error "Zero has no inverse")
  else .ok ((y₁ - x₁ * (y₂ - y₁) * (x₂ - x₁) ^ 9) % 11)

def lib : Libraries where
  poseidon := sumHash
  genNullifier := pair
  verifySNARKProof := verifySNARKProof
  shamirRecovery := shamirRecovery
  filterOperators _ := .error .castError
  matchOperators _ _ := false

def config (spamThreshold : ℕ) : IZKServerConfig :=
  { merkleTreeLevels := 1, spamThreshold, epochAllowedDelayThreshold := 20, zeroValue := 0 }

/-- The store with the two members. -/
def db : Db :=
  (UserService.appendUsers sumHash (config 2)
    [⟨0, Js.bigIntToString (sumHash [3])⟩, ⟨1, Js.bigIntToString (sumHash [4])⟩] "g").exec
      ((seedZeros sumHash 0 1).exec {})

/-- A call ten seconds into the first epoch. -/
def env (uuid : String) : CallEnv := { now := 10000, persistedAt := 10000, uuid }

/-- A chat message as it is sent. -/
def chatWith (zk_proof : Json) (epochField x_share : String) : String :=
  Js.jsonStringify (.obj
    [("zk_proof", zk_proof), ("x_share", .str x_share), ("epoch", .str epochField),
      ("chat_type", .str "PUBLIC"), ("message_content", .str "hi"), ("sender", .str "me")])

/-- The same message after parsing. -/
def messageWith (zk_proof : Json) (epochField x_share : String) : RLNMessage where
  zk_proof := some zk_proof
  x_share := some (.str x_share)
  epoch := some (.str epochField)
  chat_type := some (.str "PUBLIC")
  message_content := some (.str "hi")
  sender := some (.str "me")

theorem plain_proofFor (merkleRoot s epoch rlnIdentifier signalHash : ℤ) :
    Js.Plain (proofFor merkleRoot s epoch rlnIdentifier signalHash) := by
  simp only [proofFor, fullProof, Js.Plain, Js.PlainFields, Js.unescaped_bigIntToString,
    List.map_cons, List.map_nil]
  decide +kernel

theorem validateFormat_chatWith {zk_proof : Json} {epochField x_share : String}
    (hproof : Js.Plain zk_proof) (hepoch : Js.Unescaped epochField) (hx : Js.Unescaped x_share) :
    validateFormat (chatWith zk_proof epochField x_share)
      = some (messageWith zk_proof epochField x_share) := by
  rw [validateFormat, chatWith, Js.jsonParse_jsonStringify]
  · rfl
  · simp only [Js.Plain, Js.PlainFields, hproof, hepoch, hx, List.map_cons, List.map_nil]
    decide +kernel

theorem exec_chatWith (config : IZKServerConfig) (env : CallEnv) (db : Db) {zk_proof : Json}
    {epochField x_share : String} (hproof : Js.Plain zk_proof) (hepoch : Js.Unescaped epochField)
    (hx : Js.Unescaped x_share) :
    (Request.chat (chatWith zk_proof epochField x_share)).exec lib config env db
      = ((MessageHandlerService.handleValid lib config env
          (messageWith zk_proof epochField x_share)).run db).map returned id := by
  simp only [Request.exec, MessageHandlerService.handleChatMessage,
    validateFormat_chatWith hproof hepoch hx]

/-- A chat message of the member with secret `s`. -/
def chat (s epoch signalHash : ℤ) (epochField x_share : String) : String :=
  chatWith (proof s epoch 1 signalHash) epochField x_share

def message (s epoch signalHash : ℤ) (epochField x_share : String) : RLNMessage :=
  messageWith (proof s epoch 1 signalHash) epochField x_share

theorem validateFormat_chat {s epoch signalHash : ℤ} {epochField x_share : String}
    (hepoch : Js.Unescaped epochField) (hx : Js.Unescaped x_share) :
    validateFormat (chat s epoch signalHash epochField x_share)
      = some (message s epoch signalHash epochField x_share) :=
  validateFormat_chatWith (plain_proofFor ..) hepoch hx

theorem exec_chat (config : IZKServerConfig) (env : CallEnv) (db : Db) {s epoch signalHash : ℤ}
    {epochField x_share : String} (hepoch : Js.Unescaped epochField) (hx : Js.Unescaped x_share) :
    (Request.chat (chat s epoch signalHash epochField x_share)).exec lib config env db
      = ((MessageHandlerService.handleValid lib config env
          (message s epoch signalHash epochField x_share)).run db).map returned id :=
  exec_chatWith config env db (plain_proofFor ..) hepoch hx

theorem metadata_chat {s epoch signalHash : ℤ} {epochField x_share : String}
    (hepoch : Js.Unescaped epochField) (hx : Js.Unescaped x_share) :
    (Request.chat (chat s epoch signalHash epochField x_share)).metadata
      = some ⟨some (proof s epoch 1 signalHash), some (.str epochField), some (.str x_share)⟩ := by
  rw [Request.metadata, validateFormat_chat hepoch hx]
  rfl

/-- A request that stores nothing but its stats. -/
def deletion (s epoch signalHash : ℤ) (epochField x_share : String) : Request :=
  .deleteBundles
    { zk_proof := some (proof s epoch 1 signalHash), epoch := some (.str epochField)
      x_share := some (.str x_share), bundles := some (.arr []) }

end Demo

end ZkChat
