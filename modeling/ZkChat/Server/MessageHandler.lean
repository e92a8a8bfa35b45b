import ZkChat.Server.ProofUtils
import ZkChat.Server.UserService

set_option autoImplicit false

/-! # The three entry points that take a proof

`MessageHandlerService.handleChatMessage`, and `createBundle` and `deleteBundles` of
`KeyExchangeService`. They share their checks (`checkRules`), made against different collections,
and part ways afterwards: a chat message that breaks the spam rule costs its sender the
membership, a key exchange request is only refused. -/

namespace ZkChat

/-- What a call reads from outside the store: `Date.now()` at its epoch check, and the time and the
    `randomUUID()` with which it persists a message. -/
structure CallEnv where
  now : ℤ
  persistedAt : ℤ
  uuid : String

structure RLNMessage where
  zk_proof : Option Json
  x_share : Option Json
  epoch : Option Json
  chat_type : Option Json
  message_content : Option Json
  sender : Option Json

def interfaceKeys : List String :=
  ["zk_proof", "x_share", "epoch", "chat_type", "message_content", "sender"]

/-- `none` is the throw of `constructRLNMessage`. Only an object can have the six keys. -/
def constructRLNMessage : Json → Option RLNMessage
  | .obj fields =>
      if fields.length ≠ 6 ∨ ¬ interfaceKeys.all (fun key => (fields.lookup key).isSome) then none
      else some
        { zk_proof := fields.lookup "zk_proof"
          x_share := fields.lookup "x_share"
          epoch := fields.lookup "epoch"
          chat_type := fields.lookup "chat_type"
          message_content := fields.lookup "message_content"
          sender := fields.lookup "sender" }
  | _ => none

def validateFormat (message : String) : Option RLNMessage :=
  (Js.jsonParse message).bind constructRLNMessage

section

variable (lib : Libraries) (config : IZKServerConfig) (env : CallEnv)

/-- The checks all three make, in this order, against the stats of `model`; the result is whether
    the spam rule is broken. -/
def checkRules (model : StatsModel) (zk_proof epoch x_share : Option Json) : Server Bool := do
  let epochValid ← Prog.ofExcept (verifyEpoch env.now epoch config.epochAllowedDelayThreshold)
  if epochValid = false then throw (.text "Epoch invalid")
  else do
    let duplicate ← model.isDuplicate lib zk_proof epoch x_share
    if duplicate then throw (.text "Message is a duplicate")
    else do
      let merkleRoot ← UserService.getRoot
      let validZkProof ← Prog.ofExcept (isZkProofValid lib zk_proof merkleRoot)
      if validZkProof = false then throw (.text "ZK Proof is invalid, ignoring message")
      else model.isSpam lib zk_proof epoch config.spamThreshold

/-! ## `MessageHandlerService` -/

namespace MessageHandlerService

/-- `Message.create`, `uuid` has a unique index. An epoch that `verifyEpoch` let through is an
    integer and does not round to infinity. -/
def persistMessage (message : RLNMessage) : Server IMessage := do
  let epoch ← Prog.ofExcept (Mongoose.requiredNumber message.epoch)
  let chat_type ← Prog.ofExcept (Mongoose.requiredString message.chat_type)
  let message_content ← Prog.ofExcept (Mongoose.requiredString message.message_content)
  let sender ← Prog.ofExcept (Mongoose.requiredString message.sender)
  match epoch with
  | .finite q =>
      let row : IMessage :=
        { uuid := env.uuid, epoch := q.num, chat_type, message_content,
          timestamp := env.persistedAt, sender }
      .await fun db =>
        if db.messages.any (·.uuid = row.uuid) then (.error .duplicateKey, db)
        else (.ok row, { db with messages := db.messages ++ [row] })
  | _ => throw .validationError

/-- Ban the user, set the leaf to zero, announce the new tree. -/
def banRecovered (user : RecoveredUser) : Server IMessage := do
  let _ ← UserService.banUser user.idCommitment user.secret
  UserService.updateUser lib.poseidon config user.idCommitment
    (Js.bigIntToString config.zeroValue)
  publish (.event "TREE_UPDATE")
  throw (.text "Message is a spam, banning user and ignoring message")

/-- The branch of a message that breaks the spam rule. -/
def banSender (message : RLNMessage) : Server IMessage := do
  let requestStats ← StatsModel.RequestStats.getRequestStats lib message.zk_proof message.epoch
  let user ← Prog.ofExcept
    (getUserFromShares lib message.zk_proof message.x_share requestStats)
  banRecovered lib config user

/-- The branch of a message that passes. -/
def persistAndBroadcast (message : RLNMessage) : Server IMessage := do
  let persistedMessage ← persistMessage env message
  StatsModel.RequestStats.saveMessage message.zk_proof message.epoch message.x_share
  publish (.message persistedMessage)
  pure persistedMessage

def handleValid (validMessage : RLNMessage) : Server IMessage := do
  let spamRulesViolated ←
    checkRules lib config env .RequestStats validMessage.zk_proof validMessage.epoch
      validMessage.x_share
  if spamRulesViolated then banSender lib config validMessage
  else persistAndBroadcast env validMessage

def handleChatMessage (message : String) : Server IMessage :=
  match validateFormat message with
  | none => throw (.text "Message format invalid")
  | some validMessage => handleValid lib config env validMessage

end MessageHandlerService

/-! ## `KeyExchangeService` -/

structure ICreateBundleMessage where
  zk_proof : Option Json
  epoch : Option Json
  x_share : Option Json
  encrypted_content : Option Json
  content_hash : Option Json
  encrypted_key : Option Json
  receiver_public_key : Option Json

structure IDeleteBundlesMessage where
  zk_proof : Option Json
  epoch : Option Json
  x_share : Option Json
  bundles : Option Json

structure IPublicKeyExchangeBundle where
  encrypted_content : String
  encrypted_key : String
  receiver_public_key : String

namespace KeyExchangeService

def validateMessageRules (zk_proof epoch x_share : Option Json) : Server Unit := do
  let spam ← checkRules lib config env .KeyExchangeRequestStats zk_proof epoch x_share
  if spam then throw (.text "Message is a spam, ignoring")
  else StatsModel.KeyExchangeRequestStats.saveMessage zk_proof epoch x_share

/-- `KeyExchangeBundle.create`: the content and its hash have unique indexes. -/
def createRow (row : IKeyExchangeBundle) : Server Unit := .await fun db =>
  if db.keyExchangeBundles.any fun b =>
      b.encrypted_content = row.encrypted_content ∨ b.content_hash = row.content_hash
  then (.error .duplicateKey, db)
  else (.ok (), { db with keyExchangeBundles := db.keyExchangeBundles ++ [row] })

def createBundle (m : ICreateBundleMessage) : Server IPublicKeyExchangeBundle := do
  validateMessageRules lib config env m.zk_proof m.epoch m.x_share
  let encrypted_content ← Prog.ofExcept (Mongoose.requiredString m.encrypted_content)
  let content_hash ← Prog.ofExcept (Mongoose.requiredString m.content_hash)
  let encrypted_key ← Prog.ofExcept (Mongoose.requiredString m.encrypted_key)
  let receiver_public_key ← Prog.ofExcept (Mongoose.requiredString m.receiver_public_key)
  createRow { encrypted_content, content_hash, encrypted_key, receiver_public_key }
  pure { encrypted_content, encrypted_key, receiver_public_key }

/-- What `for (let bundle of bundles)` runs through. -/
def iterate : Option Json → Except Exn (List Json)
  | some (.arr xs) => .ok xs
  | some (.str s) => .ok (s.toList.map fun c => .str c.toString)
  | _ => .error .typeError

/-- `deleteKeyExchangeBundles`. -/
def deleteKeyExchangeBundles (bundle : Json) : Server ℕ := do
  let content_hash ← Prog.ofExcept (Js.prop (some bundle) "content_hash")
  let receiver_public_key ← Prog.ofExcept (Js.prop (some bundle) "receiver_public_key")
  let matchesHash ← Prog.ofExcept (Mongoose.filter lib content_hash)
  let matchesKey ← Prog.ofExcept (Mongoose.filter lib receiver_public_key)
  .await fun db =>
    let hit (b : IKeyExchangeBundle) : Bool :=
      matchesHash (some b.content_hash) && matchesKey (some b.receiver_public_key)
    (.ok (db.keyExchangeBundles.countP hit),
      { db with keyExchangeBundles := db.keyExchangeBundles.filter (! hit ·) })

/-- The loop of `deleteBundles`. -/
def deleteEach : List Json → ℕ → Server ℕ
  | [], deletedItemsCount => pure deletedItemsCount
  | bundle :: bundles, deletedItemsCount => do
      let deleted ← deleteKeyExchangeBundles lib bundle
      deleteEach bundles (deletedItemsCount + deleted)

def deleteBundles (m : IDeleteBundlesMessage) : Server ℕ := do
  validateMessageRules lib config env m.zk_proof m.epoch m.x_share
  let bundles ← Prog.ofExcept (iterate m.bundles)
  deleteEach lib bundles 0

end KeyExchangeService

end

end ZkChat
