import ZkChat.Js.Json
import ZkChat.Lib.Collection
import ZkChat.Lib.Prog

set_option autoImplicit false

/-! # The server's state

The Mongo collections the services read and write, and the log of what was published. `Server α`
is an `async` function of the server: each database operation is one atomic action on `Db`. -/

namespace ZkChat

/-- The part of the configuration that the modelled services read. -/
structure IZKServerConfig where
  merkleTreeLevels : ℕ
  spamThreshold : ℕ
  /-- In seconds. -/
  epochAllowedDelayThreshold : ℕ
  zeroValue : ℤ

/-! ## Documents -/

structure IMerkleTreeNodeKey where
  groupId : String
  level : ℕ
  /-- `-1` above the leaves. -/
  indexInGroup : ℤ
  /-- Index in the actual tree. -/
  index : ℕ
deriving DecidableEq

structure IMerkleTreeNode where
  key : IMerkleTreeNodeKey
  /-- The object id of the parent; the root has none. -/
  parent : Option ℕ := none
  siblingHash : Option String := none
  hash : String
deriving DecidableEq

structure IMerkleTreeZero where
  level : ℕ
  hash : String
deriving DecidableEq

structure IMessage where
  uuid : String
  epoch : ℤ
  chat_type : String
  message_content : String
  timestamp : ℤ
  sender : String
deriving DecidableEq

/-- A row of `requestStats`, and of `keyExchangeRequestStats`: the schemas have the same fields.
    A `null` share is stored as such. -/
structure IRequestStats where
  nullifier : String
  epoch : Option String
  xShare : Option String
  yShare : String
deriving DecidableEq

structure IKeyExchangeBundle where
  encrypted_content : String
  content_hash : String
  encrypted_key : String
  receiver_public_key : String
deriving DecidableEq

structure IBannedUser where
  idCommitment : String
  leafIndex : ℕ
  secret : String
deriving DecidableEq

/-- What goes out on the pub/sub channel: a stored message or the name of an event. -/
inductive ISyncMessage where
  | message (m : IMessage)
  | event (name : String)
deriving DecidableEq

structure Db where
  treeNodes : List IMerkleTreeNode := []
  treeZeros : List IMerkleTreeZero := []
  messages : List IMessage := []
  requestStats : List IRequestStats := []
  keyExchangeRequestStats : List IRequestStats := []
  keyExchangeBundles : List IKeyExchangeBundle := []
  bannedUsers : List IBannedUser := []
  published : List ISyncMessage := []

/-- An `async` function of the server. -/
abbrev Server (α : Type) := Prog Db Exn α

/-- `pubSub.publish`. -/
def publish (m : ISyncMessage) : Server Unit :=
  .modify fun db => { db with published := db.published ++ [m] }

end ZkChat
