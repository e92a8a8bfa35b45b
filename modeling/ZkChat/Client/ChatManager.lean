import ZkChat.Server.ChatHistory

set_option autoImplicit false

/-! # The client's message store and its history sync

`decryptMessage` and `syncMessagesForAllRooms` of `ChatManager`, with the parts of
`ProfileManager` and `LocalChatDB` they use. The profile is loaded; the decryption and the server
are parameters. -/

namespace ZkChat

/-! ## Rooms -/

structure IChatRoom where
  id : String
  symmetric_key : String

/-- `inMemoryProfile.rooms`. -/
structure Rooms where
  publicRooms : List IChatRoom
  privateRooms : List IChatRoom
  directRooms : List IChatRoom

def ProfileManager.getUserRoomsForChatType (rooms : Rooms) (type : String) : List IChatRoom :=
  if type = "PUBLIC" then rooms.publicRooms
  else if type = "PRIVATE" then rooms.privateRooms
  else if type = "DIRECT" then rooms.directRooms
  else []

/-! ## `LocalChatDB` -/

structure IZkMessage where
  uuid : String
  roomId : String
  epoch : ℤ
  chat_type : String
  message_content : String
  timestamp : ℤ
  sender : String
deriving DecidableEq

/-- The `messages` table. The primary key is generated, so a `put` always adds a record. -/
abbrev LocalChatDB := List IZkMessage

namespace LocalChatDB

/-- The record of a message in a room. -/
def record (roomId : String) (message : IMessage) : IZkMessage :=
  { uuid := message.uuid, roomId, epoch := message.epoch, chat_type := message.chat_type,
    message_content := message.message_content, timestamp := message.timestamp,
    sender := message.sender }

def saveMessage (db : LocalChatDB) (roomId : String) (message : IMessage) : LocalChatDB :=
  db ++ [record roomId message]

/-- `-1` when there is no message. -/
def getMaxTimestampForAllMessages (db : LocalChatDB) : ℤ := ((db.map (·.timestamp)).max?).getD (-1)

end LocalChatDB

/-! ## `ChatManager` -/

namespace ChatManager

section

variable (rooms : Rooms)
  /- `decryptMessageSymmetric`; `none` when it throws. -/
  (decryptMessageSymmetric : String → String → Option String)
  /- `getTimeRangeChatHistory`; `none` is `null`. -/
  (getTimeRangeChatHistory : ℤ → ℤ → Option ITimeRangeMessages)

/-- The message as the first room of its type that decrypts it shows it, and the room's id. -/
def decryptMessage (message : IMessage) : Option (IMessage × String) :=
  (ProfileManager.getUserRoomsForChatType rooms message.chat_type).findSome? fun room =>
    (decryptMessageSymmetric message.message_content room.symmetric_key).map fun decrypted =>
      ({ message with message_content := decrypted }, room.id)

/-- The loop over the messages of a page. -/
def saveMessages (db : LocalChatDB) : List IMessage → LocalChatDB
  | [] => db
  | message :: messages =>
      match decryptMessage rooms decryptMessageSymmetric message with
      | some (decryptedMessage, room_id) =>
          saveMessages (db.saveMessage room_id decryptedMessage) messages
      | none => saveMessages db messages

def getAndSaveMessagesForTimeRange (fromTimestamp toTimestamp : ℤ) (db : LocalChatDB) :
    Option ITimeRangeMessages × LocalChatDB :=
  match getTimeRangeChatHistory fromTimestamp toTimestamp with
  | none => (none, db)
  | some messageData =>
      (some messageData, saveMessages rooms decryptMessageSymmetric db messageData.messages)

/-- The `while` loop; `none` when it has not ended after `fuel` more requests. `parseInt` reads a
    time back as it is. -/
def syncLoop (toTimestamp : ℤ) :
    ℕ → Option ITimeRangeMessages → LocalChatDB → Option LocalChatDB
  | _, none, db => some db
  | fuel, some messageData, db =>
      if messageData.messages.length = messageData.limit then
        match fuel with
        | 0 => none
        | fuel + 1 =>
            let fromTimestamp := messageData.returnedToTimestamp + 1
            let next := getAndSaveMessagesForTimeRange rooms decryptMessageSymmetric
              getTimeRangeChatHistory fromTimestamp toTimestamp db
            syncLoop toTimestamp fuel next.1 next.2
      else some db

/-- Where a sync begins. -/
def startTimestamp (toTimestamp : ℤ) (db : LocalChatDB) : ℤ :=
  let fromTimestamp := db.getMaxTimestampForAllMessages + 1
  if fromTimestamp = -1 then toTimestamp - 24 * 60 * 60 * 100 else fromTimestamp

def syncMessagesForAllRooms (fuel : ℕ) (toTimestamp : ℤ) (db : LocalChatDB) :
    Option LocalChatDB :=
  let first := getAndSaveMessagesForTimeRange rooms decryptMessageSymmetric
    getTimeRangeChatHistory (startTimestamp toTimestamp db) toTimestamp db
  syncLoop rooms decryptMessageSymmetric getTimeRangeChatHistory toTimestamp fuel first.1 first.2

end

end ChatManager

/-- `getTimeRangeChatHistory` against a server in the state `server`: whatever is thrown there is
    `null` here. -/
def getTimeRangeChatHistory (sort : List IMessage → List IMessage) (limit : ℕ) (server : Db)
    (fromTimestamp toTimestamp : ℤ) : Option ITimeRangeMessages :=
  match ((timeRangeChatHistory sort limit fromTimestamp toTimestamp).run server).1 with
  | .ok messageData => some messageData
  | .error _ => none

end ZkChat
