import ZkChat.Client.Routing
import ZkChat.Client.StoredProfile
import ZkChat.Server.Bundles

set_option autoImplicit false

/-! # Creating a direct room

`create_direct_room` adds the room to the profile, saves the profile, and only then makes the bundle
that the other side needs and posts it. What fails on the way to the request is thrown with the room
already there, and what fails from the request on is not noticed: the API turns it into `null`, and
nobody looks at it (`create_public_room` does). So the call is all or nothing when it fails before
the room is added, and when nothing fails (`createsOrKeeps_iff`). After any other failure the next
try is refused (`retry_refused`). -/

namespace ZkChat

open Prog

/-- The client, whose profile exists, and the server. -/
structure ClientAndServer where
  inMemoryProfile : IProfile
  storage : Option String
  server : Db

/-- What `generateProof` returns. -/
structure IProofData where
  fullProof : Json
  xShare : String
  epoch : String

/-- What the steps of one call come to. The encryptions and the hash are functions while it runs. -/
structure DirectRoomSteps where
  /-- `uuidv4()`. -/
  room_id : String
  generateECDHKeyPair : Except Exn (IKeyPair String)
  /-- The save of the storage provider. -/
  save : Except Exn Unit
  /-- What the `KeyExchangeManager` gets as the user's public key, if there is such a manager. -/
  userPublicKey : Option (Except Exn String)
  generateSymmetricKey : Except Exn String
  /-- Message, key. -/
  encryptMessageSymmetric : String → String → Except Exn String
  /-- Message, public key. -/
  encryptMessageAsymmetric : String → String → Except Exn String
  hash : String → String
  generateProof : Except Exn IProofData
  /-- Whether the request arrives at the server. -/
  arrives : Bool

/-- `JSON.stringify({ dh_public_key, sender_public_key })`. -/
def keyExchangeContent (dh_public_key sender_public_key : String) : String :=
  Js.jsonStringify (.obj [("dh_public_key", .str dh_public_key),
    ("sender_public_key", .str sender_public_key)])

/-- The body of the request for a new bundle. -/
def bundleBody (proofData : IProofData) (encrypted_content content_hash encrypted_key
    receiver_public_key : String) : List (String × Json) :=
  [("zk_proof", proofData.fullProof), ("epoch", .str proofData.epoch),
    ("x_share", .str proofData.xShare), ("encrypted_content", .str encrypted_content),
    ("content_hash", .str content_hash), ("encrypted_key", .str encrypted_key),
    ("receiver_public_key", .str receiver_public_key)]

section

variable (notEmpty : Option Json → Bool) (lib : Libraries) (config : IZKServerConfig) (env : CallEnv)
  (steps : DirectRoomSteps)

/-- `RLNServerApi.saveKeyExchangeBundle`; `none` is `null`. -/
def RLNServerApi.saveKeyExchangeBundle (body : List (String × Json)) :
    Prog ClientAndServer Exn (Option IPublicKeyExchangeBundle) := .await fun s =>
  -- the `catch` of the API returns `null`, whatever was thrown
  if steps.arrives then
    let (answer, server) :=
      (KeyExchangeRouter.createBundle notEmpty lib config env body).run s.server
    (.ok (match answer with
      | .ok (.ok result) => some result
      | _ => none), { s with server })
  else (.ok none, s)

/-- What `KeyExchangeManager.saveKeyExchangeBundle` does before its request. -/
def KeyExchangeManager.makeBundle (userPublicKey : Except Exn String)
    (dhPublicKey receiverPublicKey : String) : Except Exn (List (String × Json)) := do
  let userPublicKey ← userPublicKey
  let symmetricKey ← steps.generateSymmetricKey
  let stringifiedContent := keyExchangeContent dhPublicKey userPublicKey
  let encryptedContentWithSymmetricKey ←
    steps.encryptMessageSymmetric stringifiedContent symmetricKey
  let encryptedSymmetricKey ← steps.encryptMessageAsymmetric symmetricKey receiverPublicKey
  let contentHash := steps.hash stringifiedContent
  let proofData ← steps.generateProof
  pure (bundleBody proofData encryptedContentWithSymmetricKey contentHash encryptedSymmetricKey
    receiverPublicKey)

/-- `key_exchange_manager?.saveKeyExchangeBundle(...)`. -/
def KeyExchangeManager.postBundle (dhPublicKey receiverPublicKey : String) :
    Prog ClientAndServer Exn Unit :=
  match steps.userPublicKey with
  | none => pure ()
  | some userPublicKey => do
      let body ← Prog.ofExcept
        (KeyExchangeManager.makeBundle steps userPublicKey dhPublicKey receiverPublicKey)
      -- the answer is not looked at, so `null` passes for success
      let _ ← RLNServerApi.saveKeyExchangeBundle notEmpty lib config env steps body
      pure ()

/-- `ProfileManager.addDirectRoom`: the profile is changed, and then saved. -/
def ProfileManager.storeDirectRoom (room : IDirectRoom String) : Prog ClientAndServer Exn Unit := do
  .await fun s => match addDirectRoom s.inMemoryProfile.rooms.directRooms room with
    | .error e => (.error e, s)
    | .ok directRooms => (.ok (), { s with inMemoryProfile :=
        { s.inMemoryProfile with rooms := { s.inMemoryProfile.rooms with directRooms } } })
  .await fun s => match steps.save with
    | .error e => (.error e, s)
    | .ok () => (.ok (), { s with storage := some s.inMemoryProfile.stringify })

/-- `create_direct_room`. -/
def createDirectRoom (name receiver_public_key : String) :
    Prog ClientAndServer Exn (IDirectRoom String) := do
  Prog.ofExcept (ProfileManager.checkName name)
  let dh_keypair ← Prog.ofExcept steps.generateECDHKeyPair
  let room : IDirectRoom String :=
    { id := steps.room_id, name, type := "DIRECT", symmetric_key := ""
      recipient_public_key := receiver_public_key, dh_public_key := dh_keypair.publicKey
      dh_private_key := dh_keypair.privateKey }
  ProfileManager.storeDirectRoom steps room
  KeyExchangeManager.postBundle notEmpty lib config env steps dh_keypair.publicKey
    receiver_public_key
  pure room

end

/-! ## All or nothing -/

/-- The profile with a direct room more. -/
def IProfile.addDirectRoom (p : IProfile) (room : IDirectRoom String) : IProfile :=
  { p with rooms := { p.rooms with directRooms := p.rooms.directRooms ++ [room] } }

/-- The bundle is for the receiver and has the key of the room. -/
def BundleOf (steps : DirectRoomSteps) (receiver_public_key dh_public_key : String)
    (b : IKeyExchangeBundle) : Prop :=
  b.receiver_public_key = receiver_public_key ∧ ∃ sender symmetricKey,
    steps.userPublicKey = some (.ok sender) ∧ steps.generateSymmetricKey = .ok symmetricKey ∧
    steps.encryptMessageSymmetric (keyExchangeContent dh_public_key sender) symmetricKey
      = .ok b.encrypted_content ∧
    steps.encryptMessageAsymmetric symmetricKey receiver_public_key = .ok b.encrypted_key

section

variable (notEmpty : Option Json → Bool) (lib : Libraries) (config : IZKServerConfig) (env : CallEnv)
  (steps : DirectRoomSteps) (name receiver_public_key : String) (s : ClientAndServer)

/-- The call succeeds, with one new room in the profile and its bundle on the server; or it throws,
    and the profile is what it was. -/
def CreatesOrKeeps : Prop :=
  let r := (createDirectRoom notEmpty lib config env steps name receiver_public_key).run s
  (∃ room b, r.1 = .ok room ∧ room.recipient_public_key = receiver_public_key ∧
    r.2.inMemoryProfile = s.inMemoryProfile.addDirectRoom room ∧
    r.2.storage = some r.2.inMemoryProfile.stringify ∧
    BundleOf steps receiver_public_key room.dh_public_key b ∧
    r.2.server.keyExchangeBundles = s.server.keyExchangeBundles ++ [b]) ∨
  (∃ e, r.1 = .error e ∧ r.2.inMemoryProfile = s.inMemoryProfile ∧ r.2.storage = s.storage)

/-- The call fails before the room is added: the name is too long, no key pair is generated, or there
    is a room with the receiver. -/
def FailsEarly : Prop :=
  (∃ e, ProfileManager.checkName name = .error e) ∨ (∃ e, steps.generateECDHKeyPair = .error e) ∨
    ∃ r ∈ s.inMemoryProfile.rooms.directRooms, r.recipient_public_key = receiver_public_key

/-- The bundle is made, its request arrives at the server, and is answered with success. -/
def Posted (dhPublicKey : String) (server server' : Db) : Prop :=
  ∃ sender body result, steps.userPublicKey = some (.ok sender) ∧
    KeyExchangeManager.makeBundle steps (.ok sender) dhPublicKey receiver_public_key = .ok body ∧
    steps.arrives = true ∧
    (KeyExchangeRouter.createBundle notEmpty lib config env body).run server
      = (.ok (.ok result), server')

/-- No step fails: the profile is saved, and the bundle is posted. -/
def NoStepFails : Prop :=
  steps.save = .ok () ∧ ∃ dh_keypair server', steps.generateECDHKeyPair = .ok dh_keypair ∧
    Posted notEmpty lib config env steps receiver_public_key dh_keypair.publicKey s.server server'

end

section

variable {notEmpty : Option Json → Bool} {lib : Libraries} {config : IZKServerConfig} {env : CallEnv}
  {steps : DirectRoomSteps} {name receiver_public_key : String} {s : ClientAndServer}

/-! ## The request -/

variable (notEmpty lib config env) in
/-- A request that is not answered with success leaves no bundle. -/
theorem run_createBundle_route (body : List (String × Json)) (db : Db) :
    (∃ result db', (KeyExchangeRouter.createBundle notEmpty lib config env body).run db
      = (.ok (.ok result), db')) ∨
    ((KeyExchangeRouter.createBundle notEmpty lib config env body).exec db).keyExchangeBundles
      = db.keyExchangeBundles := by
  unfold KeyExchangeRouter.createBundle
  by_cases hpass : (KeyExchangeRouter.createFields.all fun field =>
      notEmpty (body.lookup field)) = true
  · obtain ⟨db', ⟨e, hrun, hsame⟩ | ⟨row, a, hrun, -⟩⟩ :=
      createBundle_cases lib config env
        { encrypted_content := body.lookup "encrypted_content"
          content_hash := body.lookup "content_hash", encrypted_key := body.lookup "encrypted_key"
          receiver_public_key := body.lookup "receiver_public_key", zk_proof := body.lookup "zk_proof"
          epoch := body.lookup "epoch", x_share := body.lookup "x_share" } db
    · rw [exec, run_route_error hpass hrun]
      exact Or.inr hsame
    · exact Or.inl ⟨a, db', run_route_ok hpass hrun⟩
  · rw [route, if_neg hpass]
    exact Or.inr rfl

/-- The row that is stored has the texts of the body. -/
theorem run_createBundle_ok {proofData : IProofData} {encrypted_content content_hash encrypted_key :
    String} {db db' : Db} {result : IPublicKeyExchangeBundle}
    (h : (KeyExchangeRouter.createBundle notEmpty lib config env (bundleBody proofData
      encrypted_content content_hash encrypted_key receiver_public_key)).run db
        = (.ok (.ok result), db')) :
    db'.keyExchangeBundles = db.keyExchangeBundles
      ++ [⟨encrypted_content, content_hash, encrypted_key, receiver_public_key⟩] := by
  obtain ⟨-, hrun⟩ := run_route_ok_iff.mp h
  have htext : ∀ {t t' : String}, Mongoose.requiredString (some (.str t)) = .ok t' → t' = t := by
    intro t t' ht
    replace ht : (if t = "" then .error .validationError else .ok t : Except Exn String) = .ok t' := ht
    split at ht
    · cases ht
    · exact (Except.ok.inj ht).symm
  obtain ⟨db₁, ⟨e, herr, -⟩ | ⟨row, a, hok, hrows, h₁, h₂, h₃, h₄⟩⟩ :=
    createBundle_cases lib config env _ db
  · rw [hrun] at herr
    cases herr
  · obtain rfl := (Prod.mk.inj (hrun.symm.trans hok)).2
    rw [hrows]
    obtain ⟨c, h, k, r⟩ := row
    obtain rfl := htext h₁
    obtain rfl := htext h₂
    obtain rfl := htext h₃
    obtain rfl := htext h₄
    rfl

/-- The answer is not looked at, and the server has handled the request. -/
theorem run_postBundle_of_arrives {dhPublicKey : String} {userPublicKey : Except Exn String}
    {body : List (String × Json)} (huser : steps.userPublicKey = some userPublicKey)
    (hbody : KeyExchangeManager.makeBundle steps userPublicKey dhPublicKey receiver_public_key
      = .ok body) (harrives : steps.arrives = true) (s : ClientAndServer) :
    (KeyExchangeManager.postBundle notEmpty lib config env steps dhPublicKey receiver_public_key).run s
      = (.ok (), { s with server :=
          (KeyExchangeRouter.createBundle notEmpty lib config env body).exec s.server }) := by
  unfold KeyExchangeManager.postBundle RLNServerApi.saveKeyExchangeBundle
  rw [huser]
  simp only [hbody, run_ofExcept_ok_bind]
  rw [run_bind, run_await, if_pos harrives]
  rfl

/-- A bundle is posted. -/
theorem Posted.run_postBundle {dhPublicKey : String} {s : ClientAndServer} {server' : Db}
    (h : Posted notEmpty lib config env steps receiver_public_key dhPublicKey s.server server') :
    (KeyExchangeManager.postBundle notEmpty lib config env steps dhPublicKey receiver_public_key).run s
      = (.ok (), { s with server := server' }) := by
  obtain ⟨sender, body, result, huser, hbody, harrives, hroute⟩ := h
  rw [run_postBundle_of_arrives huser hbody harrives, exec, hroute]

/-- No bundle is posted: what fails before the request is thrown, and where the request is lost or
    refused nothing is thrown. The profile is not touched. -/
theorem run_postBundle_of_not {dhPublicKey : String} {s : ClientAndServer}
    (h : ∀ server', ¬ Posted notEmpty lib config env steps receiver_public_key dhPublicKey s.server
      server') : ∃ r server',
    (KeyExchangeManager.postBundle notEmpty lib config env steps dhPublicKey receiver_public_key).run s
      = (r, { s with server := server' }) ∧
      server'.keyExchangeBundles = s.server.keyExchangeBundles := by
  cases huser : steps.userPublicKey with
  | none =>
      refine ⟨.ok (), s.server, ?_, rfl⟩
      rw [KeyExchangeManager.postBundle, huser]
      rfl
  | some userPublicKey =>
  cases hbody : KeyExchangeManager.makeBundle steps userPublicKey dhPublicKey receiver_public_key with
  | error e =>
      refine ⟨.error e, s.server, ?_, rfl⟩
      rw [KeyExchangeManager.postBundle, huser]
      simp only [hbody, run_ofExcept_error_bind]
  | ok body =>
  cases harrives : steps.arrives with
  | false =>
      refine ⟨.ok (), s.server, ?_, rfl⟩
      unfold KeyExchangeManager.postBundle RLNServerApi.saveKeyExchangeBundle
      rw [huser]
      simp only [hbody, run_ofExcept_ok_bind]
      rw [run_bind, run_await, if_neg (by simp [harrives])]
      rfl
  | true =>
  -- the request arrives, so it is the server that has refused it
  refine ⟨.ok (), _, run_postBundle_of_arrives huser hbody harrives s, ?_⟩
  rcases run_createBundle_route notEmpty lib config env body s.server with ⟨result, db', hroute⟩ | hsame
  · obtain ⟨sender, rfl, -⟩ := Except.bind_ok_iff.mp hbody
    exact absurd ⟨sender, body, result, huser, hbody, harrives, hroute⟩ (h db')
  · exact hsame

/-- The bundle that is posted is the room's. -/
theorem Posted.bundleOf {dhPublicKey : String} {server server' : Db}
    (h : Posted notEmpty lib config env steps receiver_public_key dhPublicKey server server') :
    ∃ b, BundleOf steps receiver_public_key dhPublicKey b ∧
      server'.keyExchangeBundles = server.keyExchangeBundles ++ [b] := by
  obtain ⟨sender, body, result, huser, hbody, -, hroute⟩ := h
  obtain ⟨sender', hsender, hbody⟩ := Except.bind_ok_iff.mp hbody
  obtain rfl := Except.ok.inj hsender
  obtain ⟨symmetricKey, hkey, hbody⟩ := Except.bind_ok_iff.mp hbody
  obtain ⟨content, hcontent, hbody⟩ := Except.bind_ok_iff.mp hbody
  obtain ⟨encryptedKey, hencrypted, hbody⟩ := Except.bind_ok_iff.mp hbody
  obtain ⟨proofData, -, hbody⟩ := Except.bind_ok_iff.mp hbody
  obtain rfl := Except.ok.inj hbody
  exact ⟨_, ⟨rfl, sender, symmetricKey, huser, hkey, hcontent, hencrypted⟩,
    run_createBundle_ok hroute⟩

/-! ## The call -/

/-- The room that the call adds. -/
def DirectRoomSteps.room (steps : DirectRoomSteps) (name receiver_public_key : String)
    (dh_keypair : IKeyPair String) : IDirectRoom String :=
  { id := steps.room_id, name, type := "DIRECT", symmetric_key := ""
    recipient_public_key := receiver_public_key, dh_public_key := dh_keypair.publicKey
    dh_private_key := dh_keypair.privateKey }

/-- The client with that room in its memory. -/
def ClientAndServer.added (s : ClientAndServer) (room : IDirectRoom String) : ClientAndServer :=
  { s with inMemoryProfile := s.inMemoryProfile.addDirectRoom room }

/-- The client once the profile is saved. -/
def ClientAndServer.saved (s : ClientAndServer) : ClientAndServer :=
  { s with storage := some s.inMemoryProfile.stringify }

theorem addDirectRoom_of_mem {rooms : List (IDirectRoom String)} (room : IDirectRoom String)
    {r : IDirectRoom String} (hr : r ∈ rooms) (hsame : r.recipient_public_key = room.recipient_public_key) :
    ProfileManager.addDirectRoom rooms room = .error (.text "Room already exists") :=
  if_pos (List.any_eq_true.mpr ⟨r, hr, decide_eq_true hsame⟩)

theorem run_storeDirectRoom_of_mem {room r : IDirectRoom String}
    (hr : r ∈ s.inMemoryProfile.rooms.directRooms)
    (hsame : r.recipient_public_key = room.recipient_public_key) :
    (ProfileManager.storeDirectRoom steps room).run s
      = (.error (.text "Room already exists"), s) := by
  refine run_bind_of_error ?_
  rw [run_await, addDirectRoom_of_mem room hr hsame]

variable (steps) in
theorem run_storeDirectRoom (room : IDirectRoom String)
    (hnone : ∀ r ∈ s.inMemoryProfile.rooms.directRooms,
      r.recipient_public_key ≠ room.recipient_public_key) :
    (ProfileManager.storeDirectRoom steps room).run s
      = match steps.save with
        | .error e => (.error e, s.added room)
        | .ok () => (.ok (), (s.added room).saved) := by
  have hadd : ProfileManager.addDirectRoom s.inMemoryProfile.rooms.directRooms room
      = .ok (s.inMemoryProfile.rooms.directRooms ++ [room]) :=
    ProfileManager.addUnless_eq_ok.mpr ⟨fun r hr => decide_eq_false (hnone r hr), rfl⟩
  have hfirst : (Prog.await fun s : ClientAndServer =>
      match ProfileManager.addDirectRoom s.inMemoryProfile.rooms.directRooms room with
      | .error e => (.error e, s)
      | .ok directRooms => ((.ok () : Except Exn Unit), { s with inMemoryProfile :=
          { s.inMemoryProfile with rooms := { s.inMemoryProfile.rooms with directRooms } } })).run s
      = (.ok (), s.added room) := by
    rw [run_await, hadd]
    rfl
  rw [ProfileManager.storeDirectRoom, run_bind_of_ok hfirst, run_await]
  cases steps.save with
  | error e => rfl
  | ok u => rfl

variable (notEmpty lib config env) in
/-- A call that fails early throws, and nothing has happened. -/
theorem run_createDirectRoom_early (h : FailsEarly steps name receiver_public_key s) :
    ∃ e, (createDirectRoom notEmpty lib config env steps name receiver_public_key).run s
      = (.error e, s) := by
  unfold createDirectRoom
  cases hname : ProfileManager.checkName name with
  | error e => exact ⟨e, rfl⟩
  | ok u =>
  rw [run_ofExcept_ok_bind]
  cases hkeys : steps.generateECDHKeyPair with
  | error e => exact ⟨e, rfl⟩
  | ok dh_keypair =>
  rw [run_ofExcept_ok_bind]
  rcases h with ⟨e, he⟩ | ⟨e, he⟩ | ⟨r, hr, hsame⟩
  · rw [hname] at he
    cases he
  · rw [hkeys] at he
    cases he
  · exact ⟨_, run_bind_of_error (run_storeDirectRoom_of_mem hr hsame)⟩

variable (notEmpty lib config env) in
/-- Any other call goes on with the room in the profile. -/
theorem run_createDirectRoom (h : ¬ FailsEarly steps name receiver_public_key s) :
    ∃ dh_keypair, steps.generateECDHKeyPair = .ok dh_keypair ∧
      (createDirectRoom notEmpty lib config env steps name receiver_public_key).run s
        = match steps.save with
          | .error e => (.error e, s.added (steps.room name receiver_public_key dh_keypair))
          | .ok () => (do
              KeyExchangeManager.postBundle notEmpty lib config env steps dh_keypair.publicKey
                receiver_public_key
              pure (steps.room name receiver_public_key dh_keypair)).run
                (s.added (steps.room name receiver_public_key dh_keypair)).saved := by
  unfold FailsEarly at h
  simp only [not_or, not_exists, not_and] at h
  obtain ⟨hname, hkeys, hnone⟩ := h
  unfold createDirectRoom
  cases hname' : ProfileManager.checkName name with
  | error e => exact absurd hname' (hname e)
  | ok u =>
  cases hkeys' : steps.generateECDHKeyPair with
  | error e => exact absurd hkeys' (hkeys e)
  | ok dh_keypair =>
  refine ⟨dh_keypair, rfl, ?_⟩
  have hstore := run_storeDirectRoom steps
    (steps.room name receiver_public_key dh_keypair) hnone
  rw [run_ofExcept_ok_bind, run_ofExcept_ok_bind]
  -- a save that throws leaves the room in memory
  cases hsave : steps.save with
  | error e =>
      rw [hsave] at hstore
      exact run_bind_of_error hstore
  | ok u =>
      rw [hsave] at hstore
      exact run_bind_of_ok hstore

theorem addDirectRoom_ne (p : IProfile) (room : IDirectRoom String) : p.addDirectRoom room ≠ p := by
  intro h
  have := congrArg (fun p : IProfile => p.rooms.directRooms.length) h
  simp [IProfile.addDirectRoom] at this

variable (s) in
/-- A call that does neither: the room stays in the profile, and there is no bundle. -/
theorem not_createsOrKeeps (hlate : ¬ FailsEarly steps name receiver_public_key s)
    (hfails : ¬ NoStepFails notEmpty lib config env steps receiver_public_key s) :
    ¬ CreatesOrKeeps notEmpty lib config env steps name receiver_public_key s := by
  obtain ⟨dh_keypair, hkeys, hrun⟩ := run_createDirectRoom notEmpty lib config env hlate
  unfold CreatesOrKeeps
  rw [hrun]
  cases hsave : steps.save with
  | error e =>
      rintro (⟨room, b, hok, -⟩ | ⟨e', -, hkept, -⟩)
      · cases hok
      · exact addDirectRoom_ne _ _ hkept
  | ok u =>
  obtain ⟨r, server', hpost, hsame⟩ := run_postBundle_of_not
    (s := (s.added (steps.room name receiver_public_key dh_keypair)).saved)
    fun server' hposted => hfails ⟨hsave, dh_keypair, server', hkeys, hposted⟩
  rw [run_bind, hpost]
  cases r with
  | error e =>
      rintro (⟨room, b, hok, -⟩ | ⟨e', -, hkept, -⟩)
      · cases hok
      · exact addDirectRoom_ne _ _ hkept
  | ok u =>
      rintro (⟨room, b, -, -, -, -, -, hbundles⟩ | ⟨e', herr, -⟩)
      · have := congrArg List.length (hsame.symm.trans hbundles)
        simp [ClientAndServer.added, ClientAndServer.saved] at this
      · cases herr

/-- Creating a direct room is all or nothing exactly when it fails before the room is added, or does
    not fail. -/
theorem createsOrKeeps_iff (notEmpty : Option Json → Bool) (lib : Libraries)
    (config : IZKServerConfig) (env : CallEnv) (steps : DirectRoomSteps)
    (name receiver_public_key : String) (s : ClientAndServer) :
    CreatesOrKeeps notEmpty lib config env steps name receiver_public_key s ↔
      FailsEarly steps name receiver_public_key s ∨
        NoStepFails notEmpty lib config env steps receiver_public_key s := by
  constructor
  · intro h
    by_contra hneither
    rw [not_or] at hneither
    exact not_createsOrKeeps s hneither.1 hneither.2 h
  · intro h
    by_cases hearly : FailsEarly steps name receiver_public_key s
    · obtain ⟨e, hrun⟩ := run_createDirectRoom_early notEmpty lib config env hearly
      unfold CreatesOrKeeps
      rw [hrun]
      exact Or.inr ⟨e, rfl, rfl, rfl⟩
    · obtain ⟨hsave, dh_keypair, server', hkeys, hposted⟩ := h.resolve_left hearly
      obtain ⟨dh_keypair', hkeys', hrun⟩ := run_createDirectRoom notEmpty lib config env hearly
      obtain rfl := Except.ok.inj (hkeys.symm.trans hkeys')
      obtain ⟨b, hb, hbundles⟩ := hposted.bundleOf
      unfold CreatesOrKeeps
      rw [hrun, hsave]
      have hpost := Posted.run_postBundle
        (s := (s.added (steps.room name receiver_public_key dh_keypair)).saved) hposted
      rw [run_bind, hpost]
      exact Or.inl ⟨_, b, rfl, rfl, rfl, rfl, hb, hbundles⟩

variable (notEmpty lib config env) in
/-- The client after a call that has not failed early, as far as its profile goes. -/
theorem exec_createDirectRoom (h : ¬ FailsEarly steps name receiver_public_key s) :
    ∃ dh_keypair, steps.generateECDHKeyPair = .ok dh_keypair ∧
      ((createDirectRoom notEmpty lib config env steps name receiver_public_key).exec s).inMemoryProfile
        = s.inMemoryProfile.addDirectRoom (steps.room name receiver_public_key dh_keypair) := by
  obtain ⟨dh_keypair, hkeys, hrun⟩ := run_createDirectRoom notEmpty lib config env h
  refine ⟨dh_keypair, hkeys, ?_⟩
  rw [exec, hrun]
  cases steps.save with
  | error e => rfl
  | ok u =>
      by_cases hposted : ∃ server', Posted notEmpty lib config env steps receiver_public_key
        dh_keypair.publicKey s.server server'
      · obtain ⟨server', hposted⟩ := hposted
        have hpost := Posted.run_postBundle
          (s := (s.added (steps.room name receiver_public_key dh_keypair)).saved) hposted
        simp only [run_bind, hpost]
        rfl
      · obtain ⟨r, server', hpost, -⟩ := run_postBundle_of_not
          (s := (s.added (steps.room name receiver_public_key dh_keypair)).saved)
          fun server' h => hposted ⟨server', h⟩
        simp only [run_bind, hpost]
        cases r with
        | error e => rfl
        | ok u => rfl

theorem RoomCall.exec_of_run {call : RoomCall} {rooms rooms' : IRooms}
    (h : call.run rooms = .ok rooms') : call.exec rooms = rooms' := by
  rw [RoomCall.exec, h]

/-- However the call ends, the rooms are those of `RoomCall.createDirectRoom`. -/
theorem rooms_exec_createDirectRoom {dh_keypair : IKeyPair String}
    (hkeys : steps.generateECDHKeyPair = .ok dh_keypair) :
    ((createDirectRoom notEmpty lib config env steps name receiver_public_key).exec
        s).inMemoryProfile.rooms
      = (RoomCall.createDirectRoom name receiver_public_key steps.room_id dh_keypair).exec
          s.inMemoryProfile.rooms := by
  by_cases hearly : FailsEarly steps name receiver_public_key s
  · obtain ⟨e, hrun⟩ := run_createDirectRoom_early notEmpty lib config env hearly
    rw [exec, hrun]
    have hthrows : ∃ e, createDirectRoomOfProfile name receiver_public_key steps.room_id dh_keypair
        s.inMemoryProfile.rooms = .error e := by
      unfold createDirectRoomOfProfile
      cases hname : ProfileManager.checkName name with
      | error e => exact ⟨e, rfl⟩
      | ok u =>
      rcases hearly with ⟨e, he⟩ | ⟨e, he⟩ | ⟨r, hr, hsame⟩
      · rw [hname] at he
        cases he
      · rw [hkeys] at he
        cases he
      · refine ⟨.text "Room already exists", ?_⟩
        have hadd := addDirectRoom_of_mem
          (steps.room name receiver_public_key dh_keypair) hr hsame
        exact congrArg (fun x => x >>= fun directRooms =>
          pure { s.inMemoryProfile.rooms with directRooms }) hadd
    obtain ⟨e', he'⟩ := hthrows
    rw [RoomCall.exec, RoomCall.run, he']
  · obtain ⟨dh_keypair', hkeys', hprofile⟩ := exec_createDirectRoom notEmpty lib config env hearly
    obtain rfl := Except.ok.inj (hkeys.symm.trans hkeys')
    rw [hprofile]
    unfold FailsEarly at hearly
    simp only [not_or, not_exists, not_and] at hearly
    obtain ⟨hname, -, hnone⟩ := hearly
    cases hname' : ProfileManager.checkName name with
    | error e => exact absurd hname' (hname e)
    | ok u =>
        have hadd : ProfileManager.addDirectRoom s.inMemoryProfile.rooms.directRooms
            (steps.room name receiver_public_key dh_keypair)
            = .ok (s.inMemoryProfile.rooms.directRooms
              ++ [steps.room name receiver_public_key dh_keypair]) :=
          ProfileManager.addUnless_eq_ok.mpr ⟨fun r hr => decide_eq_false (hnone r hr), rfl⟩
        refine (RoomCall.exec_of_run ?_).symm
        rw [RoomCall.run, createDirectRoomOfProfile, hname']
        exact congrArg (fun x => x >>= fun directRooms =>
          (pure { s.inMemoryProfile.rooms with directRooms } : Except Exn IRooms)) hadd

/-- Whatever fails in a call, its room has an id of its own. -/
theorem idsIdentify_exec_createDirectRoom (hids : IdsIdentify s.inMemoryProfile.rooms)
    (hnew : steps.room_id ∉ s.inMemoryProfile.rooms.ids) :
    IdsIdentify ((createDirectRoom notEmpty lib config env steps name receiver_public_key).exec
      s).inMemoryProfile.rooms := by
  cases hkeys : steps.generateECDHKeyPair with
  | error e =>
      obtain ⟨e, hrun⟩ := run_createDirectRoom_early notEmpty lib config env
        (Or.inr (Or.inl ⟨e, hkeys⟩) : FailsEarly steps name receiver_public_key s)
      rwa [exec, hrun]
  | ok dh_keypair =>
      rw [rooms_exec_createDirectRoom hkeys]
      have huuid : (RoomCall.createDirectRoom name receiver_public_key steps.room_id
          dh_keypair).NewUuid s.inMemoryProfile.rooms := hnew
      exact (RoomCall.exec_idsIdentify_iff huuid hids).mpr trivial

/-- After a call that has not failed early, a call for the same receiver does nothing. -/
theorem retry_refused (h : ¬ FailsEarly steps name receiver_public_key s) (steps' : DirectRoomSteps)
    (name' : String) : ∃ e,
    (createDirectRoom notEmpty lib config env steps' name' receiver_public_key).run
      ((createDirectRoom notEmpty lib config env steps name receiver_public_key).exec s)
      = (.error e, (createDirectRoom notEmpty lib config env steps name receiver_public_key).exec s) := by
  obtain ⟨dh_keypair, -, hprofile⟩ := exec_createDirectRoom notEmpty lib config env h
  refine run_createDirectRoom_early notEmpty lib config env (Or.inr (Or.inr
    ⟨steps.room name receiver_public_key dh_keypair, ?_, rfl⟩))
  rw [hprofile]
  exact List.mem_append_right _ (List.mem_singleton_self _)

end

/-! ## A proof that is refused -/

namespace Demo

/-- A user without direct rooms, and a server without bundles. -/
def clientAndServer : ClientAndServer where
  inMemoryProfile :=
    { rln_identity_commitment := "1", root_hash := some "2", leaves := [], user_private_key := "sk"
      user_public_key := "pk", rooms := ProfileManager.initialRooms, contacts := some .empty
      username := some "", user_id := none }
  storage := none
  server := db

/-- Every step succeeds but the generation of the proof. -/
def refusedProof : DirectRoomSteps where
  room_id := "room"
  generateECDHKeyPair := .ok ⟨"dh", "dh private"⟩
  save := .ok ()
  userPublicKey := some (.ok "pk")
  generateSymmetricKey := .ok "key"
  encryptMessageSymmetric message key := .ok (message ++ key)
  encryptMessageAsymmetric message key := .ok (message ++ key)
  hash text := text
  generateProof := .error (.text "Proof generation refused")
  arrives := true

end Demo

/-- The proof is refused; the call throws, and the room is in the profile. -/
theorem refused_proof_leaves_room :
    ¬ ∀ (notEmpty : Option Json → Bool) (lib : Libraries) (config : IZKServerConfig) (env : CallEnv)
      (steps : DirectRoomSteps) (name receiver_public_key : String) (s : ClientAndServer),
      (Js.codeUnits name).length ≤ ProfileManager.ROOM_NAME_MAX_LENGTH →
      CreatesOrKeeps notEmpty lib config env steps name receiver_public_key s := by
  intro h
  refine not_createsOrKeeps Demo.clientAndServer ?_ ?_
    (h Demo.notEmpty Demo.lib (Demo.config 1) (Demo.env "a") Demo.refusedProof "a" "b"
      Demo.clientAndServer (by decide +kernel))
  · rintro (⟨e, he⟩ | ⟨e, he⟩ | ⟨r, hr, -⟩)
    · cases he
    · cases he
    · cases hr
  · rintro ⟨-, dh_keypair, server', -, sender, body, result, huser, hbody, -⟩
    cases huser
    cases hbody

end ZkChat
