import ZkChat.Server.Requests

set_option autoImplicit false

/-! # Deleting and finding bundles

The routes of the key exchange controller hand the values of a request to `KeyExchangeService`, and
the service hands them to the filters of Mongoose. The only check on the way is that the fields are
not empty. A pair of strings removes the bundle it names; what else can be listed is written out in
`Named` and `pairFilter`, and `deletesExactly_iff` says for which requests the two are the same. -/

namespace ZkChat

open Prog

/-! ## The routes -/

/-- `status(500)` with the validation errors, `status(200)`, or `status(500)` with what was thrown. -/
inductive Response (α : Type) where
  | invalid
  | ok (result : α)
  | failed (e : Exn)

/-- A handler after `body(field).notEmpty()` for some fields of the body. -/
def route {α : Type} (notEmpty : Option Json → Bool) (fields : List String)
    (body : List (String × Json)) (handler : Server α) : Server (Response α) :=
  if fields.all fun field => notEmpty (body.lookup field) then
    .tryCatch (do
      let result ← handler
      pure (.ok result)) fun e => pure (.failed e)
  else pure .invalid

section

variable (notEmpty : Option Json → Bool) (lib : Libraries) (config : IZKServerConfig) (env : CallEnv)

namespace KeyExchangeService

/-- `getBundles`, of what the request has as `receiver_public_key`. -/
def getBundles (receiverPublicKey : Option Json) : Server (List IPublicKeyExchangeBundle) := do
  let matchesKey ← Prog.ofExcept (Mongoose.filter lib receiverPublicKey)
  .query fun db => (db.keyExchangeBundles.filter fun b =>
    matchesKey (some b.receiver_public_key)).map fun b =>
      { encrypted_content := b.encrypted_content, encrypted_key := b.encrypted_key
        receiver_public_key := b.receiver_public_key }

end KeyExchangeService

namespace KeyExchangeRouter

def getBundles (body : List (String × Json)) : Server (Response (List IPublicKeyExchangeBundle)) :=
  route notEmpty ["receiver_public_key"] body
    (KeyExchangeService.getBundles lib (body.lookup "receiver_public_key"))

def createFields : List String :=
  ["encrypted_content", "content_hash", "encrypted_key", "receiver_public_key", "zk_proof", "epoch",
    "x_share"]

def createBundle (body : List (String × Json)) : Server (Response IPublicKeyExchangeBundle) :=
  route notEmpty createFields body
    (KeyExchangeService.createBundle lib config env
      { encrypted_content := body.lookup "encrypted_content"
        content_hash := body.lookup "content_hash", encrypted_key := body.lookup "encrypted_key"
        receiver_public_key := body.lookup "receiver_public_key", zk_proof := body.lookup "zk_proof"
        epoch := body.lookup "epoch", x_share := body.lookup "x_share" })

def deleteFields : List String := ["bundles", "zk_proof", "epoch", "x_share"]

def deleteBundles (body : List (String × Json)) : Server (Response ℕ) :=
  route notEmpty deleteFields body
    (KeyExchangeService.deleteBundles lib config env
      { bundles := body.lookup "bundles", zk_proof := body.lookup "zk_proof"
        epoch := body.lookup "epoch", x_share := body.lookup "x_share" })

end KeyExchangeRouter

end

/-! ## What is named and what is matched -/

/-- Both fields of the listed pair are, as strings, those of the bundle. -/
def Named (pair : Json) (b : IKeyExchangeBundle) : Bool :=
  match Js.prop (some pair) "content_hash", Js.prop (some pair) "receiver_public_key" with
  | .ok content_hash, .ok receiver_public_key =>
      Mongoose.castString content_hash = .ok (some b.content_hash) ∧
        Mongoose.castString receiver_public_key = .ok (some b.receiver_public_key)
  | _, _ => false

/-- The filter of `deleteKeyExchangeBundles` for a listed pair. -/
def pairFilter (lib : Libraries) (pair : Json) : Except Exn (IKeyExchangeBundle → Bool) := do
  let content_hash ← Js.prop (some pair) "content_hash"
  let receiver_public_key ← Js.prop (some pair) "receiver_public_key"
  let matchesHash ← Mongoose.filter lib content_hash
  let matchesKey ← Mongoose.filter lib receiver_public_key
  pure fun b => matchesHash (some b.content_hash) && matchesKey (some b.receiver_public_key)

/-- The pairs can be run through, each has a filter, and what a filter matches in the store some pair
    names. -/
def OnlyNamed (lib : Libraries) (bundles : Option Json) (stored : List IKeyExchangeBundle) : Prop :=
  ∃ pairs, KeyExchangeService.iterate bundles = .ok pairs ∧
    (∀ pair ∈ pairs, ∃ f, pairFilter lib pair = .ok f) ∧
    ∀ b ∈ stored, ∀ pair ∈ pairs, ∀ f, pairFilter lib pair = .ok f → f b = true →
      ∃ pair' ∈ pairs, Named pair' b = true

/-- The listed bundles are removed, the others stay, and the answer is how many were removed. -/
def DeletesExactly (notEmpty : Option Json → Bool) (lib : Libraries) (config : IZKServerConfig)
    (env : CallEnv) (body : List (String × Json)) (db : Db) : Prop :=
  ∃ pairs db', KeyExchangeService.iterate (body.lookup "bundles") = .ok pairs ∧
    (KeyExchangeRouter.deleteBundles notEmpty lib config env body).run db
      = (.ok (.ok (db.keyExchangeBundles.countP fun b => pairs.any (Named · b))), db') ∧
    db'.keyExchangeBundles = db.keyExchangeBundles.filter fun b => ! pairs.any (Named · b)

/-- The bundles with that key are returned, in the order they are stored in. -/
def GetsExactly (lib : Libraries) (k : String) (db : Db) : Prop :=
  (KeyExchangeService.getBundles lib (some (.str k))).run db
    = (.ok ((db.keyExchangeBundles.filter fun b => b.receiver_public_key = k).map fun b =>
        ⟨b.encrypted_content, b.encrypted_key, b.receiver_public_key⟩), db)

section

variable {notEmpty : Option Json → Bool} {lib : Libraries} {config : IZKServerConfig} {env : CallEnv}
  {body : List (String × Json)} {db db₁ : Db}

theorem named_iff {pair : Json} {b : IKeyExchangeBundle} :
    Named pair b = true ↔ ∃ content_hash receiver_public_key,
      Js.prop (some pair) "content_hash" = .ok content_hash ∧
      Js.prop (some pair) "receiver_public_key" = .ok receiver_public_key ∧
      Mongoose.castString content_hash = .ok (some b.content_hash) ∧
      Mongoose.castString receiver_public_key = .ok (some b.receiver_public_key) := by
  unfold Named
  cases Js.prop (some pair) "content_hash" with
  | error e => simp
  | ok v =>
      cases Js.prop (some pair) "receiver_public_key" with
      | error e => simp
      | ok w => simp

theorem pairFilter_ok {pair : Json} {f : IKeyExchangeBundle → Bool}
    (h : pairFilter lib pair = .ok f) : ∃ content_hash receiver_public_key matchesHash matchesKey,
      Js.prop (some pair) "content_hash" = .ok content_hash ∧
      Js.prop (some pair) "receiver_public_key" = .ok receiver_public_key ∧
      Mongoose.filter lib content_hash = .ok matchesHash ∧
      Mongoose.filter lib receiver_public_key = .ok matchesKey ∧
      f = fun b => matchesHash (some b.content_hash) && matchesKey (some b.receiver_public_key) := by
  obtain ⟨v, hv, h⟩ := Except.bind_ok_iff.mp h
  obtain ⟨w, hw, h⟩ := Except.bind_ok_iff.mp h
  obtain ⟨p, hp, h⟩ := Except.bind_ok_iff.mp h
  obtain ⟨p', hp', h⟩ := Except.bind_ok_iff.mp h
  exact ⟨v, w, p, p', hv, hw, hp, hp', (Except.ok.inj h).symm⟩

/-- A pair matches the bundles it names. -/
theorem filter_of_named {pair : Json} {b : IKeyExchangeBundle} {f : IKeyExchangeBundle → Bool}
    (hnamed : Named pair b = true) (hf : pairFilter lib pair = .ok f) : f b = true := by
  obtain ⟨v, w, hv, hw, hcast, hcast'⟩ := named_iff.mp hnamed
  obtain ⟨v', w', p, p', hv', hw', hp, hp', rfl⟩ := pairFilter_ok hf
  obtain rfl : v = v' := Except.ok.inj (hv.symm.trans hv')
  obtain rfl : w = w' := Except.ok.inj (hw.symm.trans hw')
  simp only [Mongoose.filter_of_castString hcast hp, Mongoose.filter_of_castString hcast' hp',
    Bool.and_self]

/-! ## The loop -/

theorem deleteKeyExchangeBundles_of_error {pair : Json} {e : Exn}
    (h : pairFilter lib pair = .error e) (db : Db) :
    (KeyExchangeService.deleteKeyExchangeBundles lib pair).run db = (.error e, db) := by
  unfold KeyExchangeService.deleteKeyExchangeBundles
  unfold pairFilter at h
  simp only [Bind.bind, Except.bind] at h
  -- the first of the four steps that throws
  split at h
  · next hv =>
      cases h
      exact run_bind_of_error (by rw [hv, run_ofExcept])
  · next v hv =>
      rw [hv, run_ofExcept_ok_bind]
      split at h
      · next hw =>
          cases h
          exact run_bind_of_error (by rw [hw, run_ofExcept])
      · next w hw =>
          rw [hw, run_ofExcept_ok_bind]
          split at h
          · next hp =>
              cases h
              exact run_bind_of_error (by rw [hp, run_ofExcept])
          · next p hp =>
              rw [hp, run_ofExcept_ok_bind]
              split at h
              · next hp' =>
                  cases h
                  exact run_bind_of_error (by rw [hp', run_ofExcept])
              · cases h

/-- The bundles that a filter leaves. -/
def Db.withoutBundles (f : IKeyExchangeBundle → Bool) (db : Db) : Db :=
  { db with keyExchangeBundles := db.keyExchangeBundles.filter (! f ·) }

theorem deleteKeyExchangeBundles_of_ok {pair : Json} {f : IKeyExchangeBundle → Bool}
    (h : pairFilter lib pair = .ok f) (db : Db) :
    (KeyExchangeService.deleteKeyExchangeBundles lib pair).run db
      = (.ok (db.keyExchangeBundles.countP f), db.withoutBundles f) := by
  obtain ⟨v, w, p, p', hv, hw, hp, hp', rfl⟩ := pairFilter_ok h
  unfold KeyExchangeService.deleteKeyExchangeBundles
  rw [hv, hw, run_ofExcept_ok_bind, run_ofExcept_ok_bind, hp, run_ofExcept_ok_bind, hp',
    run_ofExcept_ok_bind, run_await]
  rfl

/-- The loop returns when every pair has a filter. Then what some filter matches is removed, and each
    bundle is counted once. -/
theorem run_deleteEach {pairs : List Json} {fs : List (IKeyExchangeBundle → Bool)}
    (h : pairs.mapM (pairFilter lib) = .ok fs) (n : ℕ) (db : Db) :
    (KeyExchangeService.deleteEach lib pairs n).run db
      = (.ok (n + db.keyExchangeBundles.countP fun b => fs.any (· b)),
        db.withoutBundles fun b => fs.any (· b)) := by
  induction pairs generalizing n db fs with
  | nil =>
      cases h
      simp [KeyExchangeService.deleteEach, Db.withoutBundles]
  | cons pair pairs ih =>
      rw [List.mapM_cons] at h
      obtain ⟨f, hf, h⟩ := Except.bind_ok_iff.mp h
      obtain ⟨fs, hfs, h⟩ := Except.bind_ok_iff.mp h
      cases h
      rw [KeyExchangeService.deleteEach, run_bind_of_ok (deleteKeyExchangeBundles_of_ok hf db),
        ih hfs]
      refine Prod.ext (congrArg Except.ok ?_) ?_
      · simp only [Db.withoutBundles, List.any_cons, List.countP_filter]
        rw [Nat.add_assoc, Nat.add_left_cancel_iff]
        exact (Collection.countP_or f (fun b => fs.any (· b)) db.keyExchangeBundles).symm
      · simp only [Db.withoutBundles, List.any_cons, List.filter_filter, Bool.not_or, Bool.and_comm]

theorem run_deleteEach_error {pairs : List Json} {pair : Json} {e : Exn} (hpair : pair ∈ pairs)
    (h : pairFilter lib pair = .error e) (n : ℕ) (db : Db) :
    ∃ e db', (KeyExchangeService.deleteEach lib pairs n).run db = (.error e, db') := by
  induction pairs generalizing n db with
  | nil => exact absurd hpair List.not_mem_nil
  | cons first pairs ih =>
      cases hf : pairFilter lib first with
      | error e' => exact ⟨e', db, run_bind_of_error (deleteKeyExchangeBundles_of_error hf db)⟩
      | ok f =>
          rcases List.mem_cons.mp hpair with rfl | hpair
          · cases hf.symm.trans h
          · obtain ⟨e'', db', hrun⟩ := ih hpair (n + db.keyExchangeBundles.countP f)
              (db.withoutBundles f)
            exact ⟨e'', db', (run_bind_of_ok (deleteKeyExchangeBundles_of_ok hf db)).trans hrun⟩

/-! ## The filters of a list of pairs -/

/-- A traversal returns when each of its steps does. -/
theorem mapM_total {α β ε : Type} {f : α → Except ε β} {l : List α} (h : ∀ a ∈ l, ∃ b, f a = .ok b) :
    ∃ bs, l.mapM f = .ok bs := by
  induction l with
  | nil => exact ⟨[], rfl⟩
  | cons a l ih =>
      obtain ⟨b, hb⟩ := h a List.mem_cons_self
      obtain ⟨bs, hbs⟩ := ih fun a' ha' => h a' (List.mem_cons_of_mem a ha')
      exact ⟨b :: bs, by rw [List.mapM_cons, hb, hbs]; rfl⟩

/-- Its results are those of the steps. -/
theorem mem_of_mapM {α β ε : Type} {f : α → Except ε β} {l : List α} {bs : List β}
    (h : l.mapM f = .ok bs) (b : β) : b ∈ bs ↔ ∃ a ∈ l, f a = .ok b := by
  induction l generalizing bs with
  | nil =>
      cases h
      simp
  | cons a l ih =>
      rw [List.mapM_cons] at h
      obtain ⟨b', hb', h⟩ := Except.bind_ok_iff.mp h
      obtain ⟨bs', hbs', h⟩ := Except.bind_ok_iff.mp h
      cases h
      rw [List.mem_cons, ih hbs', List.exists_mem_cons_iff, hb', Except.ok.injEq, eq_comm]

theorem any_filters_iff {pairs : List Json} {fs : List (IKeyExchangeBundle → Bool)}
    (h : pairs.mapM (pairFilter lib) = .ok fs) (b : IKeyExchangeBundle) :
    fs.any (· b) = true ↔ ∃ pair ∈ pairs, ∃ f, pairFilter lib pair = .ok f ∧ f b = true := by
  simp only [List.any_eq_true, mem_of_mapM h]
  constructor
  · rintro ⟨f, ⟨pair, hpair, hf⟩, hb⟩
    exact ⟨pair, hpair, f, hf, hb⟩
  · rintro ⟨pair, hpair, f, hf, hb⟩
    exact ⟨f, ⟨pair, hpair, hf⟩, hb⟩

/-- Where only named bundles are matched, matched and named bundles are the same. -/
theorem any_filters_eq {pairs : List Json} {fs : List (IKeyExchangeBundle → Bool)}
    (h : pairs.mapM (pairFilter lib) = .ok fs) {b : IKeyExchangeBundle}
    (honly : ∀ pair ∈ pairs, ∀ f, pairFilter lib pair = .ok f → f b = true →
      ∃ pair' ∈ pairs, Named pair' b = true) :
    (fs.any (· b)) = pairs.any (Named · b) := by
  rw [Bool.eq_iff_iff, any_filters_iff h, List.any_eq_true]
  constructor
  · rintro ⟨pair, hpair, f, hf, hb⟩
    exact honly pair hpair f hf hb
  · rintro ⟨pair, hpair, hnamed⟩
    obtain ⟨f, hf⟩ : ∃ f, pairFilter lib pair = .ok f := by
      cases hf : pairFilter lib pair with
      | ok f => exact ⟨f, rfl⟩
      | error e =>
          obtain ⟨e', db', hrun⟩ := run_deleteEach_error hpair hf 0 {}
          rw [run_deleteEach h] at hrun
          cases hrun
    exact ⟨pair, hpair, f, hf, filter_of_named hnamed hf⟩

/-! ## The routes on what passes -/

/-- A route that answers has run its handler. -/
theorem run_route_ok_iff {α : Type} {fields : List String} {handler : Server α} {a : α} {db' : Db} :
    (route notEmpty fields body handler).run db = (.ok (.ok a), db') ↔
      (fields.all fun field => notEmpty (body.lookup field)) = true ∧
        handler.run db = (.ok a, db') := by
  unfold route
  split
  · next hpass =>
      rw [and_iff_right hpass]
      have hrun := run_tryCatch (do
        let result ← handler
        pure (.ok result)) (fun e => (pure (.failed e) : Server (Response α))) db
      rcases h : handler.run db with ⟨e | a', db₂⟩
      · rw [run_bind_of_error h] at hrun
        rw [hrun]
        simp
      · rw [run_bind_of_ok h] at hrun
        rw [hrun]
        simp
  · next hnot => simp [hnot]

theorem run_route_ok {α : Type} {fields : List String} {handler : Server α}
    (hpass : (fields.all fun field => notEmpty (body.lookup field)) = true) {a : α} {db' : Db}
    (h : handler.run db = (.ok a, db')) :
    (route notEmpty fields body handler).run db = (.ok (.ok a), db') :=
  run_route_ok_iff.mpr ⟨hpass, h⟩

theorem run_route_error {α : Type} {fields : List String} {handler : Server α}
    (hpass : (fields.all fun field => notEmpty (body.lookup field)) = true) {e : Exn} {db' : Db}
    (h : handler.run db = (.error e, db')) :
    (route notEmpty fields body handler).run db = (.ok (.failed e), db') := by
  rw [route, if_pos hpass, run_tryCatch_of_error (run_bind_of_error h)]
  rfl

/-- What is left of a request once its proof has been accepted. -/
theorem run_deleteBundles_of_rules (hrules : (KeyExchangeService.validateMessageRules lib config env
      (body.lookup "zk_proof") (body.lookup "epoch") (body.lookup "x_share")).run db
        = (.ok (), db₁)) :
    (KeyExchangeService.deleteBundles lib config env
      { bundles := body.lookup "bundles", zk_proof := body.lookup "zk_proof"
        epoch := body.lookup "epoch", x_share := body.lookup "x_share" }).run db
      = (Prog.ofExcept (KeyExchangeService.iterate (body.lookup "bundles")) >>= fun bundles =>
          KeyExchangeService.deleteEach lib bundles 0).run db₁ :=
  run_bind_of_ok hrules

theorem keyExchangeBundles_of_rules (hrules : (KeyExchangeService.validateMessageRules lib config env
      (body.lookup "zk_proof") (body.lookup "epoch") (body.lookup "x_share")).run db
        = (.ok (), db₁)) : db₁.keyExchangeBundles = db.keyExchangeBundles := by
  rcases run_validateMessageRules hrules with ⟨e, he, -⟩ | ⟨_, _, -, -, -, rfl⟩
  · cases he
  · rfl

/-- What is stored by a request for a new bundle: one row, of its own fields, if it is answered, and
    nothing otherwise. -/
theorem createBundle_cases (lib : Libraries) (config : IZKServerConfig) (env : CallEnv)
    (m : ICreateBundleMessage) (db : Db) : ∃ db',
    (∃ e, (KeyExchangeService.createBundle lib config env m).run db = (.error e, db') ∧
      db'.keyExchangeBundles = db.keyExchangeBundles) ∨
    ∃ row a, (KeyExchangeService.createBundle lib config env m).run db = (.ok a, db') ∧
      db'.keyExchangeBundles = db.keyExchangeBundles ++ [row] ∧
      Mongoose.requiredString m.encrypted_content = .ok row.encrypted_content ∧
      Mongoose.requiredString m.content_hash = .ok row.content_hash ∧
      Mongoose.requiredString m.encrypted_key = .ok row.encrypted_key ∧
      Mongoose.requiredString m.receiver_public_key = .ok row.receiver_public_key := by
  unfold KeyExchangeService.createBundle
  cases hrules : (KeyExchangeService.validateMessageRules lib config env m.zk_proof m.epoch
    m.x_share).run db with
  | mk u db₁ =>
  rcases run_validateMessageRules hrules with ⟨e, rfl, rfl⟩ | ⟨_, stats, rfl, -, -, rfl⟩
  · exact ⟨_, Or.inl ⟨e, run_bind_of_error hrules, rfl⟩⟩
  rw [run_bind_of_ok hrules]
  have hthrows : ∀ {α : Type} {x : Except Exn α} {e : Exn} {rest : α → Server _} {db₂ : Db},
      x = .error e → (Prog.ofExcept x >>= rest).run db₂ = ((.error e : Except Exn
        IPublicKeyExchangeBundle), db₂) := by
    rintro α x e rest db₂ rfl
    rfl
  -- nothing is stored unless all four fields can be cast
  cases hcontent : Mongoose.requiredString m.encrypted_content with
  | error e => exact ⟨_, Or.inl ⟨e, hthrows rfl, rfl⟩⟩
  | ok encrypted_content =>
  rw [run_ofExcept_ok_bind]
  cases hhash : Mongoose.requiredString m.content_hash with
  | error e => exact ⟨_, Or.inl ⟨e, hthrows rfl, rfl⟩⟩
  | ok content_hash =>
  rw [run_ofExcept_ok_bind]
  cases hkey : Mongoose.requiredString m.encrypted_key with
  | error e => exact ⟨_, Or.inl ⟨e, hthrows rfl, rfl⟩⟩
  | ok encrypted_key =>
  rw [run_ofExcept_ok_bind]
  cases hreceiver : Mongoose.requiredString m.receiver_public_key with
  | error e => exact ⟨_, Or.inl ⟨e, hthrows rfl, rfl⟩⟩
  | ok receiver_public_key =>
  rw [run_ofExcept_ok_bind, run_bind, KeyExchangeService.createRow, run_await]
  -- a row whose unique fields are taken is refused by the database
  split
  · next hcreate =>
      split at hcreate
      · cases hcreate
      · cases hcreate
        exact ⟨_, Or.inr ⟨⟨encrypted_content, content_hash, encrypted_key, receiver_public_key⟩, _,
          rfl, rfl, rfl, rfl, rfl, rfl⟩⟩
  · next hcreate =>
      split at hcreate
      · cases hcreate
        exact ⟨_, Or.inl ⟨_, rfl, rfl⟩⟩
      · cases hcreate

/-- A string finds the bundles with that key. -/
theorem getsExactly (lib : Libraries) (k : String) (db : Db) : GetsExactly lib k db := by
  unfold GetsExactly KeyExchangeService.getBundles
  simp only [Mongoose.filter, Mongoose.castString, Except.map, run_ofExcept_ok_bind, run_query,
    Option.some.injEq]

/-- The route answers with what the service finds. -/
theorem run_getBundles_route {k : String} (hkey : body.lookup "receiver_public_key" = some (.str k))
    (hpass : notEmpty (some (.str k)) = true) :
    (KeyExchangeRouter.getBundles notEmpty lib body).run db
      = (.ok (.ok ((db.keyExchangeBundles.filter fun b => b.receiver_public_key = k).map fun b =>
          ⟨b.encrypted_content, b.encrypted_key, b.receiver_public_key⟩)), db) := by
  have hfields : (["receiver_public_key"].all fun field => notEmpty (body.lookup field)) = true := by
    simp [hkey, hpass]
  refine run_route_ok hfields ?_
  rw [hkey]
  exact getsExactly lib k db

/-- Where the bundles are deleted exactly, only named ones are matched. -/
theorem DeletesExactly.onlyNamed (h : DeletesExactly notEmpty lib config env body db)
    (hpass : (KeyExchangeRouter.deleteFields.all fun field => notEmpty (body.lookup field)) = true)
    (hrules : (KeyExchangeService.validateMessageRules lib config env
      (body.lookup "zk_proof") (body.lookup "epoch") (body.lookup "x_share")).run db
        = (.ok (), db₁)) : OnlyNamed lib (body.lookup "bundles") db.keyExchangeBundles := by
  obtain ⟨pairs, db', hpairs, hrun, hdb'⟩ := h
  have hrest := run_deleteBundles_of_rules hrules
  rw [hpairs, run_ofExcept_ok_bind] at hrest
  have hok : ∀ pair ∈ pairs, ∃ f, pairFilter lib pair = .ok f := by
    intro pair hpair
    cases hf : pairFilter lib pair with
    | ok f => exact ⟨f, rfl⟩
    | error e =>
        obtain ⟨e', db₂, herr⟩ := run_deleteEach_error hpair hf 0 db₁
        have := run_route_error hpass (hrest.trans herr)
        rw [KeyExchangeRouter.deleteBundles, this] at hrun
        cases hrun
  obtain ⟨fs, hfs⟩ := mapM_total hok
  rw [run_deleteEach hfs] at hrest
  rw [KeyExchangeRouter.deleteBundles, run_route_ok hpass hrest] at hrun
  obtain rfl := (Prod.mk.inj hrun).2
  rw [Db.withoutBundles, keyExchangeBundles_of_rules hrules] at hdb'
  refine ⟨pairs, hpairs, hok, fun b hb pair hpair f hf hmatch => ?_⟩
  have heq := Collection.eq_of_filter_eq hdb' b hb
  have hany : fs.any (· b) = true := (any_filters_iff hfs b).mpr ⟨pair, hpair, f, hf, hmatch⟩
  rw [hany] at heq
  exact List.any_eq_true.mp (by simpa using heq.symm)

/-- Bundles are deleted and found exactly, for a request that passes, when its list is one and only
    named bundles are matched. -/
theorem deletesExactly_iff
    (hpass : (KeyExchangeRouter.deleteFields.all fun field => notEmpty (body.lookup field)) = true)
    (hrules : (KeyExchangeService.validateMessageRules lib config env
      (body.lookup "zk_proof") (body.lookup "epoch") (body.lookup "x_share")).run db
        = (.ok (), db₁)) :
    (DeletesExactly notEmpty lib config env body db ∧ ∀ k, GetsExactly lib k db) ↔
      OnlyNamed lib (body.lookup "bundles") db.keyExchangeBundles := by
  constructor
  · exact fun h => h.1.onlyNamed hpass hrules
  · rintro ⟨pairs, hpairs, hok, honly⟩
    refine ⟨?_, fun k => getsExactly lib k db⟩
    have hrest := run_deleteBundles_of_rules hrules
    have hsame := keyExchangeBundles_of_rules hrules
    obtain ⟨fs, hfs⟩ := mapM_total hok
    rw [hpairs, run_ofExcept_ok_bind, run_deleteEach hfs, hsame, Nat.zero_add] at hrest
    have hany : ∀ b ∈ db.keyExchangeBundles, (fs.any (· b)) = pairs.any (Named · b) :=
      fun b hb => any_filters_eq hfs (honly b hb)
    refine ⟨pairs, db₁.withoutBundles fun b => fs.any (· b), hpairs, ?_, ?_⟩
    · rw [KeyExchangeRouter.deleteBundles, run_route_ok hpass hrest]
      refine Prod.ext (congrArg (Except.ok ∘ Response.ok) (List.countP_congr fun b hb => ?_)) rfl
      rw [hany b hb]
    · rw [Db.withoutBundles, hsame]
      exact List.filter_congr fun b hb => by rw [hany b hb]

/-- A list of pairs of strings is never a problem. -/
theorem onlyNamed_of_strings (lib : Libraries) (pairs : List (String × String))
    (stored : List IKeyExchangeBundle) :
    OnlyNamed lib (some (.arr (pairs.map fun pair =>
      .obj [("content_hash", .str pair.1), ("receiver_public_key", .str pair.2)]))) stored := by
  refine ⟨_, rfl, ?_, ?_⟩
  · intro pair hpair
    obtain ⟨pair, -, rfl⟩ := List.mem_map.mp hpair
    exact ⟨_, rfl⟩
  · intro b _ pair hpair f hf hb
    refine ⟨pair, hpair, ?_⟩
    obtain ⟨pair, -, rfl⟩ := List.mem_map.mp hpair
    obtain rfl := Except.ok.inj hf
    rw [named_iff]
    simp only [Bool.and_eq_true, decide_eq_true_eq] at hb
    exact ⟨_, _, rfl, rfl, congrArg Except.ok hb.1.symm, congrArg Except.ok hb.2.symm⟩

end

/-! ## An operator in place of a string -/

namespace Demo

/-- An element of a list that is not empty. -/
def notEmptyValue : Json → Bool
  | .null => false
  | .str s => s ≠ ""
  | _ => true

/-- The check of the validator, which looks at each element of a list. -/
def notEmpty : Option Json → Bool
  | none => false
  | some (.arr xs) => xs.all notEmptyValue
  | some v => notEmptyValue v

/-- `$ne` with a string. -/
def filterOperators : List (String × Json) → Except Exn (Option String → Bool)
  | [("$ne", .str s)] => .ok fun stored => stored ≠ some s
  | _ => .error .castError

def libOperators : Libraries := { lib with filterOperators }

/-- The store with three bundles, two of one hash and two for one receiver. -/
def dbBundle : Db :=
  { db with
    keyExchangeBundles := [⟨"c", "h", "k", "key"⟩, ⟨"d", "h", "k", "other"⟩, ⟨"e", "i", "k", "key"⟩] }

def deleteBody (pair : Json) : List (String × Json) :=
  [("bundles", .arr [pair]), ("zk_proof", proof 3 0 1 5), ("epoch", .str "0"), ("x_share", .str "5")]

def rules : Server Unit :=
  KeyExchangeService.validateMessageRules libOperators (config 1) (env "a") (some (proof 3 0 1 5))
    (some (.str "0")) (some (.str "5"))

theorem run_rules : rules.run dbBundle = (.ok (), rules.exec dbBundle) :=
  Prod.ext (by decide +kernel) rfl

/-- Both fields of the pair are not the empty string. -/
def operatorPair : Json :=
  .obj [("content_hash", .obj [("$ne", .str "")]), ("receiver_public_key", .obj [("$ne", .str "")])]

end Demo

/-- A pair of two operators deletes the bundle of somebody else. -/
theorem operators_delete_all :
    ¬ ∀ (notEmpty : Option Json → Bool) (lib : Libraries) (config : IZKServerConfig) (env : CallEnv)
      (body : List (String × Json)) (db db₁ : Db),
      (KeyExchangeRouter.deleteFields.all fun field => notEmpty (body.lookup field)) = true →
      (KeyExchangeService.validateMessageRules lib config env (body.lookup "zk_proof")
        (body.lookup "epoch") (body.lookup "x_share")).run db = (.ok (), db₁) →
      DeletesExactly notEmpty lib config env body db ∧ ∀ k, GetsExactly lib k db := by
  intro h
  have hpass : (KeyExchangeRouter.deleteFields.all fun field =>
      Demo.notEmpty ((Demo.deleteBody Demo.operatorPair).lookup field)) = true := by
    decide +kernel
  have hdeletes := (h Demo.notEmpty Demo.libOperators (Demo.config 1) (Demo.env "a")
    (Demo.deleteBody Demo.operatorPair) Demo.dbBundle _ hpass Demo.run_rules).1
  obtain ⟨pairs, hpairs, -, honly⟩ := hdeletes.onlyNamed hpass Demo.run_rules
  obtain rfl : [Demo.operatorPair] = pairs := Except.ok.inj hpairs
  obtain ⟨pair, hpair, hnamed⟩ := honly ⟨"c", "h", "k", "key"⟩ List.mem_cons_self _
    (List.mem_singleton_self _) _ rfl (by decide +kernel)
  obtain rfl := List.mem_singleton.mp hpair
  exact absurd hnamed (by decide +kernel)

/-- A pair of two strings deletes the bundle it names; two bundles that share one of the strings
    stay. -/
theorem strings_delete_named :
    let body := Demo.deleteBody (.obj [("content_hash", .str "h"), ("receiver_public_key", .str "key")])
    DeletesExactly Demo.notEmpty Demo.libOperators (Demo.config 1) (Demo.env "a") body Demo.dbBundle ∧
      ∀ k, GetsExactly Demo.libOperators k Demo.dbBundle := by
  intro body
  have hpass : (KeyExchangeRouter.deleteFields.all fun field =>
      Demo.notEmpty (body.lookup field)) = true := by
    decide +kernel
  exact (deletesExactly_iff hpass Demo.run_rules).mpr
    (onlyNamed_of_strings Demo.libOperators [("h", "key")] Demo.dbBundle.keyExchangeBundles)

end ZkChat
