import ZkChat.Client.Rooms
import ZkChat.Lib.Prog
import Mathlib.Logic.Function.Basic

set_option autoImplicit false

/-! # The key exchange

`create_direct_room`, `KeyExchangeManager` and the part of `ProfileManager` they use, for any number
of clients of one server. A client acts on rooms that it has looked up before, and starts
derivations that it does not wait for: each of these becomes an entry of `derivations` where it is
started, and `deriveRoomSecretKey` is what is left of it. A call that fails while it waits does
nothing more; the schedules that leave it alone from there on are those in which it fails. -/

namespace ZkChat

/-- `ICryptography`, with `JSON` for the contents of bundles; `none` is a throw. A field that is
    missing is read as the text `undefined`. -/
structure ICryptography (τ : Type) where
  /-- Message, key. -/
  encryptMessageSymmetric : τ → τ → Option τ
  decryptMessageSymmetric : τ → τ → Option τ
  /-- Message, public key and the coins of the padding. -/
  encryptMessageAsymmetric : τ → τ → τ → Option τ
  decryptMessageAsymmetric : τ → τ → Option τ
  /-- Source private key, target public key. -/
  deriveSharedSecretKey : τ → τ → Option τ
  hash : τ → τ
  /-- `JSON.stringify({ dh_public_key, sender_public_key })`. -/
  stringify : τ → τ → τ
  /-- The two fields of `JSON.parse(text)`. -/
  parse : τ → Option (τ × τ)

/-- A stored bundle. -/
structure Bundle (τ : Type) where
  encrypted_content : τ
  content_hash : τ
  encrypted_key : τ
  receiver_public_key : τ
deriving DecidableEq

/-! ## The state -/

/-- How far a derivation has come. -/
inductive Progress where
  | started
  /-- The room has its key, the profile is being saved. -/
  | derived
  | saved
deriving DecidableEq

/-- A call of `deriveRoomSecretKey`: the position of the room and the other side's public key. -/
structure Derivation (τ : Type) where
  room : ℕ
  dh_public_key : τ
  progress : Progress
deriving DecidableEq

/-- A client. Of the profile, the keys of the user and the direct rooms. -/
structure Session (τ : Type) where
  user_public_key : τ
  user_private_key : τ
  direct : List (IDirectRoom τ)
  /-- The direct rooms of the profile in the storage provider. -/
  storage : List (IDirectRoom τ)
  derivations : List (Derivation τ)

/-- An entry of `bundlesToDeleteFromServer`. The request consists of the first two fields; the
    third is the derivation that was started for the bundle. -/
structure IKeyBundleMetadata (τ : Type) where
  content_hash : τ
  receiver_public_key : τ
  derivation : ℕ

/-- A delete request that went out, with what its client's storage held then. -/
structure DeleteRequest (ι τ : Type) where
  client : ι
  bundles : List (IKeyBundleMetadata τ)
  storage : List (IDirectRoom τ)

/-- The clients `ι` and the server. -/
structure World (ι τ : Type) where
  sessions : ι → Session τ
  bundles : List (Bundle τ)
  /-- Every bundle that was ever stored. -/
  posted : List (Bundle τ)
  requests : List (DeleteRequest ι τ)

namespace World

variable {ι τ : Type}

/-- All clients have fresh profiles. -/
def start (publicKey privateKey : ι → τ) : World ι τ where
  sessions a := ⟨publicKey a, privateKey a, [], [], []⟩
  bundles := []
  posted := []
  requests := []

variable [DecidableEq ι]

def update (w : World ι τ) (a : ι) (s : Session τ) : World ι τ :=
  { w with sessions := Function.update w.sessions a s }

@[simp] theorem sessions_update_self (w : World ι τ) (a : ι) (s : Session τ) :
    (w.update a s).sessions a = s :=
  Function.update_self ..

theorem sessions_update_of_ne {w : World ι τ} {a b : ι} {s : Session τ} (h : b ≠ a) :
    (w.update a s).sessions b = w.sessions b :=
  Function.update_of_ne h ..

end World

/-- An `async` function of a client. -/
abbrev Client (ι τ α : Type) := Prog (World ι τ) Exn α

/-- A library call that throws what it throws. -/
def Client.orThrow {ι τ α : Type} : Option α → Client ι τ α
  | some a => pure a
  | none => throw (.error "OperationError")

section

variable {ι τ : Type} [DecidableEq ι] [DecidableEq τ] [Inhabited τ] (crypto : ICryptography τ)

/-! ## `ProfileManager` -/

namespace ProfileManager

/-- The rest of `persistProfile`: the profile was turned into a text when the call was made. -/
def persistProfile (a : ι) (profile : List (IDirectRoom τ)) : Client ι τ Unit :=
  .modify fun w => w.update a { w.sessions a with storage := profile }

def joinDirectRoom (a : ι) (room : IDirectRoom τ) : Client ι τ Unit := do
  let profile ← .await fun w =>
    match addDirectRoom (w.sessions a).direct room with
    | .error e => (.error e, w)
    | .ok direct => (.ok direct, w.update a { w.sessions a with direct })
  persistProfile a profile

/-- The key of the `n`-th derivation has arrived: it is assigned to the room. -/
def assignKey (n : ℕ) (s : Session τ) : Option (Session τ) := do
  let d ← s.derivations[n]?
  if d.progress ≠ .started then none
  else do
    let room ← s.direct[d.room]?
    let derived_secret_key ← crypto.deriveSharedSecretKey room.dh_private_key d.dh_public_key
    some { s with
      direct := s.direct.set d.room { room with symmetric_key := derived_secret_key }
      derivations := s.derivations.set n { d with progress := .derived } }

/-- The save at the end of the `n`-th derivation is done. -/
def markSaved (n : ℕ) (profile : List (IDirectRoom τ)) (s : Session τ) : Session τ :=
  { s with
    storage := profile
    derivations := s.derivations.modify n fun d => { d with progress := .saved } }

/-- What is left of `deriveRoomSecretKey` when it has been called: the `n`-th derivation. -/
def deriveRoomSecretKey (a : ι) (n : ℕ) : Client ι τ Unit := do
  let profile ← .await fun w =>
    match assignKey crypto n (w.sessions a) with
    | none => (.error (.error "OperationError"), w)
    | some s => (.ok s.direct, w.update a s)
  .modify fun w => w.update a (markSaved n profile (w.sessions a))

end ProfileManager

/-! ## `ServerCommunication` -/

namespace ServerCommunication

/-- The content and its hash have unique indexes; a refused request is `null` and not looked at. -/
def saveKeyExchangeBundle (b : Bundle τ) : Client ι τ Unit :=
  .modify fun w =>
    if w.bundles.any fun b' =>
        b'.encrypted_content = b.encrypted_content ∨ b'.content_hash = b.content_hash
    then w else { w with bundles := w.bundles ++ [b], posted := w.posted ++ [b] }

def getKeyExchangeBundles (receiver_public_key : τ) : Client ι τ (List (Bundle τ)) :=
  .query fun w => w.bundles.filter fun b => b.receiver_public_key = receiver_public_key

/-- The loop of the server's `deleteBundles`. -/
def removeBundles : List (IKeyBundleMetadata τ) → Client ι τ Unit
  | [] => pure ()
  | m :: ms => do
      .modify fun w => { w with bundles := w.bundles.filter fun b =>
        ¬ (b.content_hash = m.content_hash ∧ b.receiver_public_key = m.receiver_public_key) }
      removeBundles ms

def deleteKeyExchangeBundles (a : ι) (bundles : List (IKeyBundleMetadata τ)) :
    Client ι τ Unit := do
  .modify fun w => { w with requests := w.requests ++
    [{ client := a, bundles, storage := (w.sessions a).storage }] }
  removeBundles bundles

end ServerCommunication

/-! ## `KeyExchangeManager` -/

namespace KeyExchangeManager

/-- `symmetricKey` is what `generateSymmetricKey` returns here. -/
def saveKeyExchangeBundle (a : ι) (dhPublicKey receiverPublicKey symmetricKey coins : τ) :
    Client ι τ Unit := do
  let userPublicKey ← .query fun w => (w.sessions a).user_public_key
  let stringifiedContent := crypto.stringify dhPublicKey userPublicKey
  let encrypted_content ←
    Client.orThrow (crypto.encryptMessageSymmetric stringifiedContent symmetricKey)
  let encrypted_key ←
    Client.orThrow (crypto.encryptMessageAsymmetric symmetricKey receiverPublicKey coins)
  ServerCommunication.saveKeyExchangeBundle
    { encrypted_content, content_hash := crypto.hash stringifiedContent, encrypted_key
      receiver_public_key := receiverPublicKey }

/-- What a bundle says, and the hash of its content: the two decryptions and `JSON.parse`. -/
def openBundle (userPrivateKey : τ) (b : Bundle τ) : Option ((τ × τ) × τ) := do
  let decryptedSymmetricKey ← crypto.decryptMessageAsymmetric b.encrypted_key userPrivateKey
  let decryptedContentString ←
    crypto.decryptMessageSymmetric b.encrypted_content decryptedSymmetricKey
  let decryptedContentObject ← crypto.parse decryptedContentString
  some (decryptedContentObject, crypto.hash decryptedContentString)

/-- `deriveRoomSecretKey` is called and not awaited. -/
def startDerivation (a : ι) (room : ℕ) (dh_public_key : τ) : Client ι τ ℕ :=
  .step
    (fun w => w.update a { w.sessions a with
      derivations := (w.sessions a).derivations ++ [⟨room, dh_public_key, .started⟩] })
    (fun w => pure (w.sessions a).derivations.length)

/-- The loop over the bundles: a bundle that cannot be opened is skipped, and so is one that no
    room waits for. -/
def handleBundles (a : ι) (rooms : List (IDirectRoom τ × ℕ)) (userPublicKey userPrivateKey : τ) :
    List (Bundle τ) → List (IKeyBundleMetadata τ) → Client ι τ (List (IKeyBundleMetadata τ))
  | [], bundlesToDelete => pure bundlesToDelete
  | b :: bs, bundlesToDelete =>
      match openBundle crypto userPrivateKey b with
      | none => handleBundles a rooms userPublicKey userPrivateKey bs bundlesToDelete
      | some ((dh_public_key, sender_public_key), contentHash) =>
          match rooms.find? fun r => r.1.recipient_public_key = sender_public_key with
          | none => handleBundles a rooms userPublicKey userPrivateKey bs bundlesToDelete
          | some room => do
              let n ← startDerivation a room.2 dh_public_key
              handleBundles a rooms userPublicKey userPrivateKey bs
                (bundlesToDelete ++ [⟨contentHash, userPublicKey, n⟩])

def runKeyExchangeProtocol (a : ι) (rooms : List (IDirectRoom τ × ℕ)) : Client ι τ Unit := do
  let (userPublicKey, userPrivateKey) ← .query fun w =>
    ((w.sessions a).user_public_key, (w.sessions a).user_private_key)
  let bundles ← ServerCommunication.getKeyExchangeBundles userPublicKey
  let bundlesToDelete ← handleBundles crypto a rooms userPublicKey userPrivateKey bundles []
  if bundlesToDelete.isEmpty then pure ()
  else ServerCommunication.deleteKeyExchangeBundles a bundlesToDelete

/-- The scheduled task. -/
def scheduledRun (a : ι) : Client ι τ Unit := do
  let rooms ← .query fun w =>
    ProfileManager.getAllRoomsAvailableForKeyExchange (w.sessions a).direct
  runKeyExchangeProtocol crypto a rooms

end KeyExchangeManager

/-- The uuid, the key pair, the symmetric key and the coins are what the generators return. -/
def create_direct_room (a : ι) (name : String) (receiver_public_key : τ) (room_id : String)
    (dh_keypair : IKeyPair τ) (symmetricKey coins : τ) : Client ι τ Unit := do
  Prog.ofExcept (ProfileManager.checkName name)
  ProfileManager.joinDirectRoom a
    { id := room_id, name, type := "DIRECT", symmetric_key := default
      recipient_public_key := receiver_public_key, dh_public_key := dh_keypair.publicKey
      dh_private_key := dh_keypair.privateKey }
  KeyExchangeManager.saveKeyExchangeBundle crypto a dh_keypair.publicKey receiver_public_key
    symmetricKey coins

/-! ## Calls -/

/-- The calls of a client. -/
inductive KeyExchangeCall (ι τ : Type) where
  | createDirectRoom (a : ι) (name : String) (receiver_public_key : τ) (room_id : String)
      (dh_keypair : IKeyPair τ) (symmetricKey coins : τ)
  | scheduledRun (a : ι)
  | deriveRoomSecretKey (a : ι) (n : ℕ)

def KeyExchangeCall.body : KeyExchangeCall ι τ → Client ι τ Unit
  | createDirectRoom a name receiver_public_key room_id dh_keypair symmetricKey coins =>
      create_direct_room crypto a name receiver_public_key room_id dh_keypair symmetricKey coins
  | scheduledRun a => KeyExchangeManager.scheduledRun crypto a
  | deriveRoomSecretKey a n => ProfileManager.deriveRoomSecretKey crypto a n

end

end ZkChat
