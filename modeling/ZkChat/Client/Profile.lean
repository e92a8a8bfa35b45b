import ZkChat.Client.Rooms

set_option autoImplicit false

/-! # The rooms of a profile

`ProfileManager` on the three lists of rooms, and the calls of the client that create a room or join
one. A call that throws leaves the profile as it was. The profile exists throughout. -/

namespace ZkChat

/-- `inMemoryProfile.rooms`. -/
structure IRooms where
  publicRooms : List IRoom
  privateRooms : List IRoom
  directRooms : List (IDirectRoom String)

/-- A room of any type. -/
inductive ChatRoom where
  | room (r : IRoom)
  | direct (r : IDirectRoom String)
deriving DecidableEq

namespace ChatRoom

def id : ChatRoom → String
  | room r => r.id
  | direct r => r.id

def type : ChatRoom → String
  | room r => r.type
  | direct r => r.type

def symmetric_key : ChatRoom → String
  | room r => r.symmetric_key
  | direct r => r.symmetric_key

end ChatRoom

namespace ProfileManager

/-- The rooms of a profile that `initProfile` has made. -/
def initialRooms : IRooms := ⟨[defaultChatroom], [], []⟩

/-- Return a room by id; the lists are searched in this order. -/
def getRoomById (rooms : IRooms) (id : String) : Except Exn ChatRoom :=
  match rooms.publicRooms.find? fun r => r.id = id with
  | some r => .ok (.room r)
  | none =>
      match rooms.privateRooms.find? fun r => r.id = id with
      | some r => .ok (.room r)
      | none =>
          match rooms.directRooms.find? fun r => r.id = id with
          | some r => .ok (.direct r)
          | none => .error (.text "Room doesn't exist")

/-- Encrypts a message using the target room's key. -/
def encryptMessageForRoom (encryptMessageSymmetric : String → String → Except Exn String)
    (rooms : IRooms) (id message : String) : Except Exn String :=
  match rooms.publicRooms.find? fun r => r.id = id with
  | some room => encryptMessageSymmetric message room.symmetric_key
  | none =>
      match rooms.privateRooms.find? fun r => r.id = id with
      | some room => encryptMessageSymmetric message room.symmetric_key
      | none =>
          match rooms.directRooms.find? fun r => r.id = id with
          | some room => encryptMessageSymmetric message room.symmetric_key
          | none => .error (.text "Room doesn't exist")

end ProfileManager

open ProfileManager

/-! ## The calls -/

/-- `created` is whether the server has stored the room. -/
def create_public_room (name room_id symmetric_key : String) (created : Bool) (rooms : IRooms) :
    Except Exn IRooms := do
  checkName name
  if created = false then throw (.text "Server error! Room could not be created")
  else do
    let publicRooms ← addPublicRoom rooms.publicRooms
      { id := room_id, name, type := "PUBLIC", symmetric_key }
    pure { rooms with publicRooms }

/-- The server answers with the name and the key of the room it has stored under the id. -/
def join_public_room (room_id : String) (room_from_server : Option (String × String))
    (rooms : IRooms) : Except Exn IRooms :=
  match getRoomById rooms room_id with
  | .ok _ => .error (.text "Room already exists as part of your profile.")
  | .error _ =>
      match room_from_server with
      | some (name, symmetric_key) => do
          let publicRooms ← addPublicRoom rooms.publicRooms
            { id := room_id, name, type := "PUBLIC", symmetric_key }
          pure { rooms with publicRooms }
      | none => .error (.text "Unknown room")

def create_private_room (name room_id symmetric_key : String) (rooms : IRooms) :
    Except Exn IRooms := do
  checkName name
  let privateRooms ← addPrivateRoom rooms.privateRooms
    { id := room_id, name, type := "PRIVATE", symmetric_key }
  pure { rooms with privateRooms }

/-- The three components of the decrypted invite, which are strings. -/
def join_private_room (room_symmetric_key room_id room_name : String) (rooms : IRooms) :
    Except Exn IRooms := do
  let privateRooms ← addPrivateRoom rooms.privateRooms
    { id := room_id, name := room_name, type := "PRIVATE", symmetric_key := room_symmetric_key }
  pure { rooms with privateRooms }

/-- The part of `create_direct_room` that changes the profile. -/
def createDirectRoomOfProfile (name receiver_public_key room_id : String)
    (dh_keypair : IKeyPair String) (rooms : IRooms) : Except Exn IRooms := do
  checkName name
  let directRooms ← addDirectRoom rooms.directRooms
    { id := room_id, name, type := "DIRECT", symmetric_key := ""
      recipient_public_key := receiver_public_key, dh_public_key := dh_keypair.publicKey
      dh_private_key := dh_keypair.privateKey }
  pure { rooms with directRooms }

/-- A call, with what the generators and the server return to it. -/
inductive RoomCall where
  | createPublicRoom (name room_id symmetric_key : String) (created : Bool)
  | joinPublicRoom (room_id : String) (room_from_server : Option (String × String))
  | createPrivateRoom (name room_id symmetric_key : String)
  | joinPrivateRoom (room_symmetric_key room_id room_name : String)
  | createDirectRoom (name receiver_public_key room_id : String) (dh_keypair : IKeyPair String)

namespace RoomCall

def run : RoomCall → IRooms → Except Exn IRooms
  | createPublicRoom name room_id symmetric_key created =>
      create_public_room name room_id symmetric_key created
  | joinPublicRoom room_id room_from_server => join_public_room room_id room_from_server
  | createPrivateRoom name room_id symmetric_key => create_private_room name room_id symmetric_key
  | joinPrivateRoom room_symmetric_key room_id room_name =>
      join_private_room room_symmetric_key room_id room_name
  | createDirectRoom name receiver_public_key room_id dh_keypair =>
      createDirectRoomOfProfile name receiver_public_key room_id dh_keypair

/-- The rooms after the call. -/
def exec (call : RoomCall) (rooms : IRooms) : IRooms :=
  match call.run rooms with
  | .ok rooms' => rooms'
  | .error _ => rooms

end RoomCall

end ZkChat
