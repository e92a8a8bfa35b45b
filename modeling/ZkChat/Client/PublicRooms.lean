import ZkChat.Client.RoomIds
import ZkChat.Lib.Interleaving
import ZkChat.Server.Libraries
import Mathlib.Data.List.Nodup

set_option autoImplicit false

/-! # Public rooms

A public room is created by one user, stored by the server, and joined by others under its id; the
default room is written into every new profile, and each instance tries to store it before it
listens. Names and keys come from different places, requests and answers get lost, and anybody may
send the server a room. Since the server stores nothing under an id that it has, whoever has a
public room has the same one (`public_rooms_agree`). -/

namespace ZkChat

open Prog

structure IPublicChatRoom where
  uuid : String
  name : String
  symmetric_key : String
deriving DecidableEq

/-- As a room of a profile. -/
def IPublicChatRoom.toRoom (room : IPublicChatRoom) : IRoom where
  id := room.uuid
  name := room.name
  type := "PUBLIC"
  symmetric_key := room.symmetric_key

/-- What the server has stored, the number of instances that listen, and the profiles. -/
structure PublicChat where
  public_chat_rooms : List IPublicChatRoom := []
  listening : ℕ := 0
  profiles : ℕ → IRooms := fun _ => ProfileManager.initialRooms

/-! ## The server -/

/-- `PublicChatRoom.create`: `uuid` has a unique index. -/
def PublicRoomService.saveRoom (uuid name symmetric_key : Option Json) :
    Prog PublicChat Exn IPublicChatRoom := do
  let uuid ← Prog.ofExcept (Mongoose.requiredString uuid)
  let name ← Prog.ofExcept (Mongoose.requiredString name)
  let symmetric_key ← Prog.ofExcept (Mongoose.requiredString symmetric_key)
  .await fun w =>
    if w.public_chat_rooms.any (·.uuid = uuid) then (.error .duplicateKey, w)
    else (.ok { uuid, name, symmetric_key },
      { w with public_chat_rooms := w.public_chat_rooms ++ [{ uuid, name, symmetric_key }] })

def PublicRoomService.findRoomById (id : String) : Prog PublicChat Exn (Option IPublicChatRoom) :=
  .query fun w => w.public_chat_rooms.find? (·.uuid = id)

def defaultPublicRoom : IPublicChatRoom where
  uuid := "c44e8b47-2c9e-4575-b87d-70ee9f2e1a2f"
  name := "Lobby"
  symmetric_key := "\x7b\"alg\":\"A128GCM\",\"ext\":true,\"k\":\"clgPxSs2Tk9xKGYrTNU8eA\"," ++
    "\"key_ops\":[\"encrypt\",\"decrypt\"],\"kty\":\"oct\"\x7d"

/-- The pattern that the text of an exception is searched for is that of a duplicate key. -/
def tryCreateDefaultChatroom : Prog PublicChat Exn Unit :=
  .tryCatch (do
    let _ ← PublicRoomService.saveRoom (some (.str defaultPublicRoom.uuid))
      (some (.str defaultPublicRoom.name)) (some (.str defaultPublicRoom.symmetric_key))
    pure ()) fun e => if e = .duplicateKey then pure () else throw e

/-- The end of it: the room, then `app.listen`. -/
def initZKChatServer : Prog PublicChat Exn Unit := do
  tryCreateDefaultChatroom
  .modify fun w => { w with listening := w.listening + 1 }

section

variable (notEmpty : Option Json → Bool)

namespace RoomRouter

/-- The handler of `POST /`; `none` is status 500. -/
def post (body : List (String × Json)) : Prog PublicChat Exn (Option Unit) :=
  if ["uuid", "name", "symmetric_key"].all fun field => notEmpty (body.lookup field) then
    .tryCatch (do
      let _ ← PublicRoomService.saveRoom (body.lookup "uuid") (body.lookup "name")
        (body.lookup "symmetric_key")
      pure (some ())) fun _ => pure none
  else pure none

/-- The handler of `GET /one/:room_id`; `none` is status 404. -/
def one (room_id : String) : Prog PublicChat Exn (Option IPublicChatRoom) :=
  PublicRoomService.findRoomById room_id

end RoomRouter

/-! ## The client -/

/-- What becomes of a request: it gets lost, its answer gets lost, or all goes well. -/
inductive Fate where
  | lost
  | unanswered
  | answered
deriving DecidableEq

/-- A request to an instance that listens; for the client every failure is `null`. -/
def request {α : Type} (fate : Fate) (handler : Prog PublicChat Exn (Option α)) :
    Prog PublicChat Exn (Option α) :=
  if fate = .lost then pure none
  else do
    let listening ← .query fun w => w.listening
    if listening = 0 then pure none
    else do
      let answer ← handler
      pure (if fate = .answered then answer else none)

/-- The id is put into the path as it is; `param` is what the route finds there. -/
def RLNServerApi.getPublicRoom (param : String → Option String) (fate : Fate) (id : String) :
    Prog PublicChat Exn (Option IPublicChatRoom) :=
  match param id with
  | none => pure none
  | some room_id => request fate (RoomRouter.one room_id)

def RLNServerApi.createPublicRoom (fate : Fate) (room_id room_name symmetric_key : String) :
    Prog PublicChat Exn (Option Unit) :=
  request fate (RoomRouter.post notEmpty [("uuid", .str room_id), ("name", .str room_name),
    ("symmetric_key", .str symmetric_key)])

/-- `ProfileManager.addPublicRoom` of the user. -/
def addPublicRoomOf (user : ℕ) (room : IRoom) : Prog PublicChat Exn Unit := .await fun w =>
  match ProfileManager.addPublicRoom (w.profiles user).publicRooms room with
  | .error e => (.error e, w)
  | .ok publicRooms =>
      (.ok (), { w with
        profiles := Function.update w.profiles user { w.profiles user with publicRooms } })

/-- `create_public_room`, with what the generators return. -/
def createPublicRoomBy (fate : Fate) (user : ℕ) (name room_id symmetric_key : String) :
    Prog PublicChat Exn Unit := do
  Prog.ofExcept (ProfileManager.checkName name)
  let created ← RLNServerApi.createPublicRoom notEmpty fate room_id name symmetric_key
  if created = none then throw (.text "Server error! Room could not be created")
  else addPublicRoomOf user { id := room_id, name, type := "PUBLIC", symmetric_key }

/-- `join_public_room`. -/
def joinPublicRoomBy (param : String → Option String) (fate : Fate) (user : ℕ) (room_id : String) :
    Prog PublicChat Exn Unit := do
  let known ← .query fun w => ProfileManager.getRoomById (w.profiles user) room_id
  match known with
  | .ok _ => throw (.text "Room already exists as part of your profile.")
  | .error _ =>
      let room_from_server ← RLNServerApi.getPublicRoom param fate room_id
      match room_from_server with
      | none => throw (.text "Unknown room")
      | some room => addPublicRoomOf user room.toRoom

/-- An instance is started, a user creates a room or joins one, or somebody sends a room. -/
inductive PublicRoomCall where
  | start
  | create (fate : Fate) (user : ℕ) (name room_id symmetric_key : String)
  | join (fate : Fate) (user : ℕ) (room_id : String)
  | send (body : List (String × Json))

def PublicRoomCall.body (param : String → Option String) :
    PublicRoomCall → Prog PublicChat Exn Unit
  | start => initZKChatServer
  | create fate user name room_id symmetric_key =>
      createPublicRoomBy notEmpty fate user name room_id symmetric_key
  | join fate user room_id => joinPublicRoomBy param fate user room_id
  | send body => do
      let _ ← request .answered (RoomRouter.post notEmpty body)
      pure ()

end

/-- What else happens: an instance stops, a user starts with a new profile, or does something with
    other rooms. -/
inductive PublicChat.Beside (w : PublicChat) : PublicChat → Prop
  | stop : Beside w { w with listening := w.listening - 1 }
  | initProfile (user : ℕ) : Beside w { w with
      profiles := Function.update w.profiles user ProfileManager.initialRooms }
  | otherRooms (user : ℕ) (rooms : IRooms)
      (h : rooms.publicRooms = (w.profiles user).publicRooms) :
      Beside w { w with profiles := Function.update w.profiles user rooms }

/-! ## What every run keeps -/

/-- The ids are unique, the default room is what it should be, and what the profiles have is what
    the server has. -/
structure Agreed (w : PublicChat) : Prop where
  unique : (w.public_chat_rooms.map (·.uuid)).Nodup
  default_only : ∀ room ∈ w.public_chat_rooms, room.uuid = defaultPublicRoom.uuid →
    room = defaultPublicRoom
  listening : w.listening ≠ 0 → defaultPublicRoom ∈ w.public_chat_rooms
  joined : ∀ user, ∀ r ∈ (w.profiles user).publicRooms,
    r = defaultPublicRoom.toRoom ∨ ∃ room ∈ w.public_chat_rooms, r = room.toRoom

/-- What everything that happens does: rooms are appended, and what is agreed stays so. -/
structure Moves (w w' : PublicChat) : Prop where
  grows : w.public_chat_rooms <+: w'.public_chat_rooms
  agreed : Agreed w → Agreed w'

/-- The rooms are stored. -/
def Stores (rooms : List IPublicChatRoom) (w : PublicChat) : Prop :=
  Agreed w ∧ ∀ room ∈ rooms, room ∈ w.public_chat_rooms

section

variable {w w' : PublicChat} {room : IPublicChatRoom} {rooms : List IPublicChatRoom}

theorem Moves.refl (w : PublicChat) : Moves w w := ⟨List.prefix_rfl, id⟩

theorem Stores.of_moves (h : Stores rooms w) (hmoves : Moves w w') : Stores rooms w' :=
  ⟨hmoves.agreed h.1, fun room hroom => hmoves.grows.mem (h.2 room hroom)⟩

theorem agreed_init : Agreed {} where
  unique := .nil
  default_only _ h := by simp at h
  listening h := absurd rfl h
  joined user r hr := by
    have hdefault : r = ProfileManager.defaultChatroom := List.mem_singleton.mp hr
    exact .inl (hdefault.trans (by decide))

/-- Two stored rooms with one id are the same. -/
theorem Agreed.eq_of_uuid (h : Agreed w) {room' : IPublicChatRoom}
    (hroom : room ∈ w.public_chat_rooms) (hroom' : room' ∈ w.public_chat_rooms)
    (huuid : room.uuid = room'.uuid) : room = room' :=
  List.inj_on_of_nodup_map h.unique hroom hroom' huuid

/-- A room is stored under a new id; under that of the default room only the default room. -/
theorem moves_create (hnew : ∀ r ∈ w.public_chat_rooms, r.uuid ≠ room.uuid)
    (hdefault : room.uuid = defaultPublicRoom.uuid → room = defaultPublicRoom) :
    Moves w { w with public_chat_rooms := w.public_chat_rooms ++ [room] } where
  grows := List.prefix_append _ _
  agreed h := by
    refine ⟨?_, ?_, ?_, ?_⟩
    · rw [List.map_append]
      refine List.nodup_append.mpr ⟨h.unique, by simp, ?_⟩
      simpa using hnew
    · intro r hr huuid
      rcases List.mem_append.mp hr with hr | hr
      · exact h.default_only r hr huuid
      · obtain rfl := List.mem_singleton.mp hr
        exact hdefault huuid
    · exact fun hlistening => List.mem_append_left _ (h.listening hlistening)
    · intro user r hr
      refine (h.joined user r hr).imp_right ?_
      rintro ⟨room, hroom, rfl⟩
      exact ⟨room, List.mem_append_left _ hroom, rfl⟩

/-- The profile of a user has other public rooms now. -/
theorem Agreed.update (h : Agreed w) (user : ℕ) {rooms : IRooms}
    (hrooms : ∀ r ∈ rooms.publicRooms,
      r = defaultPublicRoom.toRoom ∨ ∃ room ∈ w.public_chat_rooms, r = room.toRoom) :
    Agreed { w with profiles := Function.update w.profiles user rooms } where
  unique := h.unique
  default_only := h.default_only
  listening := h.listening
  joined user' r hr := by
    by_cases huser : user' = user
    · subst huser
      simp only [Function.update_self] at hr
      exact hrooms r hr
    · simp only [Function.update_of_ne huser] at hr
      exact h.joined user' r hr

theorem PublicChat.Beside.moves (h : w.Beside w') : Moves w w' := by
  cases h with
  | stop =>
      refine ⟨List.prefix_rfl, fun h => ⟨h.unique, h.default_only, fun hstill => ?_, h.joined⟩⟩
      exact h.listening fun hnone => hstill (by simp [hnone])
  | initProfile user =>
      refine ⟨List.prefix_rfl, fun h => h.update user fun r hr => ?_⟩
      exact (agreed_init.joined user r hr).imp_right (by simp)
  | otherRooms user rooms hrooms =>
      exact ⟨List.prefix_rfl, fun h => h.update user fun r hr => h.joined user r (hrooms ▸ hr)⟩

end

/-! ## The operations under interference -/

section

variable {w : PublicChat} {room : IPublicChatRoom} {α : Type}

theorem eq_of_requiredString {s t : String} (h : Mongoose.requiredString (some (.str s)) = .ok t) :
    t = s := by
  simp only [Mongoose.requiredString, Mongoose.castString] at h
  split at h
  · cases h
  · exact (Except.ok.inj h).symm

/-- The room is what these values are cast to. -/
structure CastTo (uuid name symmetric_key : Option Json) (room : IPublicChatRoom) : Prop where
  uuid : Mongoose.requiredString uuid = .ok room.uuid
  name : Mongoose.requiredString name = .ok room.name
  symmetric_key : Mongoose.requiredString symmetric_key = .ok room.symmetric_key

theorem CastTo.eq {uuid name symmetric_key : String}
    (h : CastTo (some (.str uuid)) (some (.str name)) (some (.str symmetric_key)) room) :
    room = ⟨uuid, name, symmetric_key⟩ := by
  obtain ⟨u, n, k⟩ := room
  obtain ⟨huuid, hname, hkey⟩ := h
  obtain rfl : u = uuid := eq_of_requiredString huuid
  obtain rfl : n = name := eq_of_requiredString hname
  obtain rfl : k = symmetric_key := eq_of_requiredString hkey
  rfl

/-- A room that is saved was new, and is stored as it was given; one that is refused as a duplicate
    has the id of a stored one. -/
theorem triple_saveRoom {P : PublicChat → Prop} {uuid name symmetric_key : Option Json}
    (hstable : ∀ w w', P w → Moves w w' → P w') (hagreed : ∀ w, P w → Agreed w)
    (hdefault : ∀ w room, P w → CastTo uuid name symmetric_key room →
      (∀ r ∈ w.public_chat_rooms, r.uuid ≠ room.uuid) →
      room.uuid = defaultPublicRoom.uuid → room = defaultPublicRoom) :
    Triple Moves Moves (fun r w => Agreed w ∧
        (∀ room, r = .ok room →
          room ∈ w.public_chat_rooms ∧ CastTo uuid name symmetric_key room) ∧
        (r = .error .duplicateKey → ∃ room ∈ w.public_chat_rooms,
          Mongoose.requiredString uuid = .ok room.uuid)) P
      (PublicRoomService.saveRoom uuid name symmetric_key) := by
  have hraise : ∀ (v : Option Json) (e : Exn), Mongoose.requiredString v = .error e →
      e ≠ .duplicateKey := by
    rintro v e hv rfl
    unfold Mongoose.requiredString at hv
    repeat' split at hv
    all_goals cases hv
  unfold PublicRoomService.saveRoom
  refine .ofExcept_bind (fun u hu => ?_) fun e he w hw =>
    ⟨hagreed w hw, by simp, fun h => absurd (Except.error.inj h) (hraise _ _ he)⟩
  refine .ofExcept_bind (fun n hn => ?_) fun e he w hw =>
    ⟨hagreed w hw, by simp, fun h => absurd (Except.error.inj h) (hraise _ _ he)⟩
  refine .ofExcept_bind (fun k hk => ?_) fun e he w hw =>
    ⟨hagreed w hw, by simp, fun h => absurd (Except.error.inj h) (hraise _ _ he)⟩
  have hmoves : ∀ w, P w → w.public_chat_rooms.any (·.uuid = u) = false →
      Moves w { w with public_chat_rooms := w.public_chat_rooms ++ [⟨u, n, k⟩] } := by
    intro w hw hnew
    have hnew' : ∀ r ∈ w.public_chat_rooms, r.uuid ≠ u := by simpa using hnew
    exact moves_create hnew' fun huuid => hdefault w ⟨u, n, k⟩ hw ⟨hu, hn, hk⟩ hnew' huuid
  refine .await hstable (fun w hw => ?_) (fun w hw => ?_)
  · split
    · exact .refl w
    · next hnew => exact hmoves w hw (by simpa using hnew)
  · split
    · next hold =>
        obtain ⟨room, hroom, huuid⟩ := List.any_eq_true.mp hold
        refine ⟨hagreed w hw, by simp, fun _ => ⟨room, hroom, ?_⟩⟩
        rw [hu, of_decide_eq_true huuid]
    · next hnew =>
        refine ⟨(hmoves w hw (by simpa using hnew)).agreed (hagreed w hw), ?_, by simp⟩
        rintro room hroom
        obtain rfl := Except.ok.inj hroom
        exact ⟨by simp, hu, hn, hk⟩

/-- What saving the default room ends with: it is there, or something else has gone wrong. -/
def SavesDefault (r : Except Exn Unit) (w : PublicChat) : Prop :=
  Agreed w ∧ (r = .ok () ∨ r = .error .duplicateKey → defaultPublicRoom ∈ w.public_chat_rooms)

theorem triple_saveDefault : Triple Moves Moves SavesDefault Agreed (do
    let _ ← PublicRoomService.saveRoom (some (.str defaultPublicRoom.uuid))
      (some (.str defaultPublicRoom.name)) (some (.str defaultPublicRoom.symmetric_key))
    (pure () : Prog PublicChat Exn Unit)) := by
  refine (triple_saveRoom (fun w w' hw h => h.agreed hw) (fun _ => id)
    fun w room _ hcast _ _ => hcast.eq).bind
      (fun room => .ret fun w hw => ⟨hw.1, fun _ => ?_⟩) fun e w hw => ⟨hw.1, fun he => ?_⟩
  · obtain ⟨hmem, hcast⟩ := hw.2.1 room rfl
    obtain rfl : room = defaultPublicRoom := hcast.eq
    exact hmem
  · obtain ⟨room, hroom, huuid⟩ := hw.2.2 (by simpa using he)
    exact hw.1.default_only room hroom (eq_of_requiredString huuid) ▸ hroom

/-- An instance listens after the default room is there, whoever has stored it. -/
theorem triple_initZKChatServer :
    Triple Moves Moves (fun _ _ => True) Agreed initZKChatServer := by
  refine Triple.bind (Q := SavesDefault) ?_ (fun _ => ?_) fun _ _ _ => trivial
  · refine triple_saveDefault.tryCatch (fun _ _ => id) fun e => ?_
    split
    · next he => exact .ret fun w hw => ⟨hw.1, fun _ => hw.2 (.inr (he ▸ rfl))⟩
    · next he => exact .raise fun w hw => ⟨hw.1, fun h => hw.2 h⟩
  · have hstored : ∀ w, SavesDefault (.ok ()) w → Stores [defaultPublicRoom] w :=
      fun w hw => ⟨hw.1, by simpa using hw.2 (.inl rfl)⟩
    refine Triple.pre (.modify (fun _ _ => Stores.of_moves) (fun w hw => ?_) fun _ _ => trivial)
      hstored
    exact ⟨List.prefix_rfl, fun h =>
      ⟨h.unique, h.default_only, fun _ => hw.2 _ (List.mem_singleton_self _), h.joined⟩⟩

/-- A room that is sent. -/
theorem triple_post (notEmpty : Option Json → Bool) (body : List (String × Json)) :
    Triple Moves Moves (fun r w => r = .ok (some ()) → ∃ room, Stores [room] w ∧
        CastTo (body.lookup "uuid") (body.lookup "name") (body.lookup "symmetric_key") room)
      (Stores [defaultPublicRoom]) (RoomRouter.post notEmpty body) := by
  unfold RoomRouter.post
  split
  · refine Triple.tryCatch (Q := fun r w => r = .ok (some ()) → ∃ room, Stores [room] w ∧
        CastTo (body.lookup "uuid") (body.lookup "name") (body.lookup "symmetric_key") room)
      ?_ (fun _ _ => id) fun e => .ret fun w _ h => nomatch h
    refine (triple_saveRoom (fun _ _ => Stores.of_moves) (fun _ hw => hw.1) ?_).bind
      (fun room => .ret fun w hw _ => ⟨room, ?_⟩) fun e w _ h => nomatch h
    · intro w room hw _ hnew huuid
      exact absurd huuid.symm (hnew _ (hw.2 _ (List.mem_singleton_self _)))
    · obtain ⟨hmem, hcast⟩ := hw.2.1 room rfl
      exact ⟨⟨hw.1, by simpa using hmem⟩, hcast⟩
  · exact .ret fun w _ h => nomatch h

theorem triple_one (room_id : String) :
    Triple Moves Moves (fun r w => ∀ room, r = .ok (some room) → Stores [room] w)
      (Stores [defaultPublicRoom]) (RoomRouter.one room_id) := by
  refine .query (fun _ _ => Stores.of_moves) .refl fun w hw room hroom => ⟨hw.1, ?_⟩
  have hfound := List.mem_of_find?_eq_some (Option.some.inj (congrArg Except.toOption hroom))
  simpa using hfound

/-- An instance answers when the default room is there. -/
theorem triple_request {Q : α → PublicChat → Prop} {handler : Prog PublicChat Exn (Option α)}
    (fate : Fate) (h : Triple Moves Moves (fun r w => ∀ a, r = .ok (some a) → Q a w)
      (Stores [defaultPublicRoom]) handler) :
    Triple Moves Moves (fun r w => ∀ a, r = .ok (some a) → Q a w) Agreed
      (request fate handler) := by
  unfold request
  split
  · exact .ret fun w _ a ha => nomatch ha
  · refine Triple.bind (Q := fun r w => ∀ n, r = .ok n → n ≠ 0 → Stores [defaultPublicRoom] w)
      (.query (fun w w' hw hmoves => hmoves.agreed hw) .refl ?_) (fun listening => ?_)
      fun e w _ a ha => nomatch ha
    · intro w hw n hn hlistening
      obtain rfl := Except.ok.inj hn
      exact ⟨hw, by simpa using hw.listening hlistening⟩
    · split
      · exact .ret fun w _ a ha => nomatch ha
      · next hlistening =>
          refine Triple.pre (h.bind (fun answer => .ret fun w hw a ha => ?_) fun e w _ a ha =>
            nomatch ha) fun w hw => hw listening rfl hlistening
          split at ha
          · exact hw a ha
          · cases ha

/-- A room that is stored is added to a profile. -/
theorem triple_addPublicRoomOf (user : ℕ) (room : IPublicChatRoom) :
    Triple Moves Moves (fun _ _ => True) (Stores [room]) (addPublicRoomOf user room.toRoom) := by
  refine .await (fun _ _ => Stores.of_moves) (fun w hw => ?_) fun _ _ => trivial
  split
  · exact .refl w
  · next publicRooms hadd =>
      obtain ⟨-, rfl⟩ := ProfileManager.addUnless_eq_ok.mp hadd
      refine ⟨List.prefix_rfl, fun h => h.update user fun r hr => ?_⟩
      rcases List.mem_append.mp hr with hr | hr
      · exact h.joined user r hr
      · obtain rfl := List.mem_singleton.mp hr
        exact .inr ⟨room, hw.2 room (List.mem_singleton_self _), rfl⟩

variable (notEmpty : Option Json → Bool) (param : String → Option String)

theorem triple_createPublicRoomBy (fate : Fate) (user : ℕ) (name room_id symmetric_key : String) :
    Triple Moves Moves (fun _ _ => True) Agreed
      (createPublicRoomBy notEmpty fate user name room_id symmetric_key) := by
  refine .ofExcept_bind (fun _ _ => ?_) fun _ _ _ _ => trivial
  refine (triple_request (Q := fun _ => Stores [⟨room_id, name, symmetric_key⟩]) fate
    ((triple_post notEmpty _).post ?_)).bind (fun created => ?_) fun _ _ _ => trivial
  · rintro r w h ⟨⟩ hr
    obtain ⟨room, hstored, hcast⟩ := h hr
    exact hcast.eq ▸ hstored
  · split
    · exact .raise fun _ _ => trivial
    · next hcreated =>
        obtain ⟨u, rfl⟩ := Option.ne_none_iff_exists'.mp hcreated
        exact (triple_addPublicRoomOf user ⟨room_id, name, symmetric_key⟩).pre
          fun w hw => hw () rfl

theorem triple_joinPublicRoomBy (fate : Fate) (user : ℕ) (room_id : String) :
    Triple Moves Moves (fun _ _ => True) Agreed (joinPublicRoomBy param fate user room_id) := by
  refine Triple.bind (Q := fun _ => Agreed)
    (.query (fun w w' hw hmoves => hmoves.agreed hw) .refl fun _ hw => hw) (fun known => ?_)
    fun _ _ _ => trivial
  cases known with
  | ok _ => exact .raise fun _ _ => trivial
  | error _ =>
      refine Triple.bind (Q := fun r w => ∀ room, r = .ok (some room) → Stores [room] w) ?_
        (fun room_from_server => ?_) fun _ _ _ => trivial
      · unfold RLNServerApi.getPublicRoom
        cases param room_id with
        | none => exact .ret fun w _ room h => nomatch h
        | some id => exact triple_request fate (triple_one id)
      · cases room_from_server with
        | none => exact .raise fun _ _ => trivial
        | some room => exact (triple_addPublicRoomOf user room).pre fun w hw => hw room rfl

/-! ## Every run -/

theorem rooms_guarantee : Pool.Guarantee (PublicRoomCall.body notEmpty param) (fun _ => True)
    (fun _ _ => True) PublicChat.Beside Agreed Moves Moves where
  refl := .refl
  safe call _ w hw := by
    refine Safe.of_triple (P := Agreed) ?_ hw
    cases call with
    | start => exact triple_initZKChatServer
    | create fate user name room_id symmetric_key =>
        exact triple_createPublicRoomBy notEmpty fate user name room_id symmetric_key
    | join fate user room_id => exact triple_joinPublicRoomBy param fate user room_id
    | send body =>
        refine Triple.bind (Q := fun _ _ => True) ?_ (fun _ => .ret fun _ _ => trivial)
          fun _ _ _ => trivial
        exact (triple_request .answered
          ((triple_post notEmpty body).post fun _ _ _ _ _ => trivial)).post fun _ _ _ => trivial
  step _ _ hw hmoves _ := ⟨hmoves.agreed hw, hmoves⟩
  env _ _ hw hbeside := ⟨hbeside.moves.agreed hw, hbeside.moves⟩

/-- The pools of runs that begin with an empty store and new profiles. -/
abbrev PublicRoomRuns (pool : Pool PublicRoomCall PublicChat Exn Unit) : Prop :=
  Pool.Runs (PublicRoomCall.body notEmpty param) (fun _ => True) (fun _ _ => True)
    PublicChat.Beside ⟨[], {}⟩ pool

end

section

variable {notEmpty : Option Json → Bool} {param : String → Option String}
  {pool : Pool PublicRoomCall PublicChat Exn Unit}

/-- However the calls of users, instances and strangers overlap and whichever messages get lost: two
    public rooms with one id, in whosever profiles, have one name and one key. -/
theorem public_rooms_agree (hruns : PublicRoomRuns notEmpty param pool) {user user' : ℕ}
    {r r' : IRoom} (hr : r ∈ (pool.state.profiles user).publicRooms)
    (hr' : r' ∈ (pool.state.profiles user').publicRooms) (hid : r.id = r'.id) : r = r' := by
  have hagreed : Agreed pool.state := (rooms_guarantee notEmpty param).inv agreed_init hruns
  have hdefault : ∀ room ∈ pool.state.public_chat_rooms,
      room.toRoom.id = defaultPublicRoom.toRoom.id → room.toRoom = defaultPublicRoom.toRoom :=
    fun room hroom huuid => congrArg _ (hagreed.default_only room hroom huuid)
  rcases hagreed.joined user r hr with rfl | ⟨room, hroom, rfl⟩
  · rcases hagreed.joined user' r' hr' with rfl | ⟨room', hroom', rfl⟩
    · rfl
    · exact (hdefault room' hroom' hid.symm).symm
  · rcases hagreed.joined user' r' hr' with rfl | ⟨room', hroom', rfl⟩
    · exact hdefault room hroom hid
    · exact congrArg _ (hagreed.eq_of_uuid hroom hroom' hid)

/-- Saving the default room fails only with a duplicate. -/
theorem initZKChatServer_ends : Ends (· = .ok ()) initZKChatServer := by
  refine Ends.bind (Q := (· = .ok ())) ?_ (by simp) fun _ _ => .step fun _ => .ret rfl
  have hplain : ∀ s : String, s ≠ "" → Mongoose.requiredString (some (.str s)) = .ok s := by
    intro s hs
    simp [Mongoose.requiredString, Mongoose.castString, hs]
  unfold tryCreateDefaultChatroom PublicRoomService.saveRoom
  rw [hplain _ (by decide), hplain _ (by decide), hplain _ (by decide)]
  refine .step fun w => ?_
  by_cases hstored : w.public_chat_rooms.any (·.uuid = defaultPublicRoom.uuid) = true
  · simp only [hstored, if_true]
    exact .ret rfl
  · simp only [hstored]
    exact .ret rfl

/-- However many instances are started, at the same time or again later: none fails for the default
    room, and while one listens that room is stored once, under its name and with its key. -/
theorem default_room_once (hruns : PublicRoomRuns notEmpty param pool) :
    (∀ thread ∈ pool.threads, thread.1 = .start → ∀ e, thread.2 ≠ .raise e) ∧
      (pool.state.listening ≠ 0 → pool.state.public_chat_rooms.filter
        (·.uuid = defaultPublicRoom.uuid) = [defaultPublicRoom]) := by
  have hagreed : Agreed pool.state := (rooms_guarantee notEmpty param).inv agreed_init hruns
  constructor
  · intro thread hthread hstart e he
    have hends : Ends (· = .ok ()) thread.2 := by
      refine hruns.threads (fun call p => call = .start → Ends (· = .ok ()) p) ?_ ?_ (by simp)
        thread hthread hstart
      · rintro call - rfl
        exact initZKChatServer_ends
      · exact fun call p w h hcall => (h hcall).advance w
    rw [he] at hends
    cases hends with
    | raise h => cases h
  · intro hlistening
    have hdistinct : pool.state.public_chat_rooms.Nodup := hagreed.unique.of_map
    refine List.perm_singleton.mp ((List.perm_ext_iff_of_nodup (hdistinct.filter _) (by simp)).mpr
      fun room => ?_)
    rw [List.mem_filter, List.mem_singleton, decide_eq_true_eq]
    constructor
    · exact fun h => hagreed.default_only room h.1 h.2
    · rintro rfl
      exact ⟨hagreed.listening hlistening, rfl⟩

end

/-! ## Calls that nothing interrupts -/

section

variable {notEmpty : Option Json → Bool} {param : String → Option String} {α : Type}

/-- The call of a user has ended as the call on the rooms does, and has left those. -/
def RunsAs (user : ℕ) (call : RoomCall) (w : PublicChat) (r : Except Exn Unit × PublicChat) : Prop :=
  r.1 = (call.run (w.profiles user)).map (fun _ => ()) ∧
    r.2.profiles = Function.update w.profiles user (call.exec (w.profiles user))

/-- The program returns an answer of this kind, and leaves the profiles alone. -/
def Replies (Q : Option α → Prop) (p : Prog PublicChat Exn (Option α)) : Prop :=
  ∀ w, ∃ answer w', p.run w = (.ok answer, w') ∧ w'.profiles = w.profiles ∧ Q answer

theorem profiles_saveRoom (uuid name symmetric_key : Option Json) (w : PublicChat) :
    ((PublicRoomService.saveRoom uuid name symmetric_key).run w).2.profiles = w.profiles := by
  have hwithin : Within (fun w w' : PublicChat => w'.profiles = w.profiles)
      (PublicRoomService.saveRoom uuid name symmetric_key) := by
    refine .bind (.ofExcept _) fun uuid => .bind (.ofExcept _) fun name =>
      .bind (.ofExcept _) fun symmetric_key => .await fun w => ?_
    split <;> rfl
  exact hwithin.exec (fun _ => rfl) (fun _ _ _ h h' => h'.trans h) w

theorem replies_post (notEmpty : Option Json → Bool) (body : List (String × Json)) :
    Replies (fun _ => True) (RoomRouter.post notEmpty body) := by
  intro w
  unfold RoomRouter.post
  split
  · have hprofiles := profiles_saveRoom (body.lookup "uuid") (body.lookup "name")
      (body.lookup "symmetric_key") w
    rw [run_tryCatch, run_bind]
    cases hrun : (PublicRoomService.saveRoom (body.lookup "uuid") (body.lookup "name")
        (body.lookup "symmetric_key")).run w with
    | mk r w' =>
        rw [hrun] at hprofiles
        cases r with
        | ok room => exact ⟨some (), w', rfl, hprofiles, trivial⟩
        | error e => exact ⟨none, w', rfl, hprofiles, trivial⟩
  · exact ⟨none, w, rfl, rfl, trivial⟩

/-- What is found has the id that was asked for. -/
theorem replies_one (room_id : String) :
    Replies (fun answer => ∀ room, answer = some room → room.uuid = room_id)
      (RoomRouter.one room_id) := by
  refine fun w => ⟨w.public_chat_rooms.find? (·.uuid = room_id), w, rfl, rfl, fun room hroom => ?_⟩
  simpa using List.find?_some hroom

theorem Replies.request {Q : Option α → Prop} {handler : Prog PublicChat Exn (Option α)}
    (h : Replies Q handler) (hnone : Q none) (fate : Fate) : Replies Q (request fate handler) := by
  intro w
  unfold ZkChat.request
  split
  · exact ⟨none, w, rfl, rfl, hnone⟩
  rw [run_query_bind]
  split
  · exact ⟨none, w, rfl, rfl, hnone⟩
  obtain ⟨answer, w', hrun, hprofiles, hanswer⟩ := h w
  rw [run_bind_of_ok hrun]
  refine ⟨_, w', rfl, hprofiles, ?_⟩
  split
  · exact hanswer
  · exact hnone

theorem runsAs_addPublicRoomOf {user : ℕ} {room : IRoom} {call : RoomCall} {w w' : PublicChat}
    (hprofiles : w'.profiles = w.profiles) (hcall : call.run (w.profiles user) = (do
      let publicRooms ← ProfileManager.addPublicRoom (w.profiles user).publicRooms room
      pure { w.profiles user with publicRooms })) :
    RunsAs user call w ((addPublicRoomOf user room).run w') := by
  unfold addPublicRoomOf RunsAs RoomCall.exec
  rw [run_await, hcall, hprofiles]
  cases ProfileManager.addPublicRoom (w.profiles user).publicRooms room with
  | error e => exact ⟨rfl, by simp [hprofiles]⟩
  | ok publicRooms => exact ⟨rfl, rfl⟩

theorem runsAs_of_error {user : ℕ} {call : RoomCall} {w w' : PublicChat} {e : Exn}
    (hprofiles : w'.profiles = w.profiles) (hcall : call.run (w.profiles user) = .error e) :
    RunsAs user call w (.error e, w') := by
  unfold RunsAs RoomCall.exec
  rw [hcall]
  exact ⟨rfl, by simp [hprofiles]⟩

variable (notEmpty) in
/-- With what the server has come to, creating a room is the call on the rooms. -/
theorem run_createPublicRoomBy (fate : Fate) (user : ℕ) (name room_id symmetric_key : String)
    (w : PublicChat) : ∃ created,
      RunsAs user (.createPublicRoom name room_id symmetric_key created) w
        ((createPublicRoomBy notEmpty fate user name room_id symmetric_key).run w) := by
  unfold createPublicRoomBy
  cases hname : ProfileManager.checkName name with
  | error e =>
      refine ⟨true, runsAs_of_error rfl ?_⟩
      rw [RoomCall.run, create_public_room, hname]
      rfl
  | ok u =>
      obtain ⟨created, w', hrun, hprofiles, -⟩ :=
        (replies_post notEmpty [("uuid", .str room_id), ("name", .str name),
          ("symmetric_key", .str symmetric_key)]).request trivial fate w
      refine ⟨created.isSome, ?_⟩
      rw [run_ofExcept_ok_bind]
      unfold RLNServerApi.createPublicRoom
      rw [run_bind_of_ok hrun]
      cases created with
      | none =>
          refine runsAs_of_error hprofiles ?_
          rw [RoomCall.run, create_public_room, hname]
          rfl
      | some u =>
          refine runsAs_addPublicRoomOf hprofiles ?_
          rw [RoomCall.run, create_public_room, hname]
          rfl

/-- So is joining one, where the route finds the id that was put into the path. -/
theorem run_joinPublicRoomBy {room_id : String}
    (hparam : ∀ id, param room_id = some id → id = room_id) (fate : Fate) (user : ℕ)
    (w : PublicChat) : ∃ room_from_server,
      RunsAs user (.joinPublicRoom room_id room_from_server) w
        ((joinPublicRoomBy param fate user room_id).run w) := by
  unfold joinPublicRoomBy
  rw [run_query_bind]
  cases hknown : ProfileManager.getRoomById (w.profiles user) room_id with
  | ok room =>
      refine ⟨none, runsAs_of_error rfl ?_⟩
      rw [RoomCall.run, join_public_room, hknown]
  | error e =>
      obtain ⟨answer, w', hrun, hprofiles, hroom⟩ :
          ∃ answer w', (RLNServerApi.getPublicRoom param fate room_id).run w = (.ok answer, w') ∧
            w'.profiles = w.profiles ∧ ∀ room, answer = some room → room.uuid = room_id := by
        unfold RLNServerApi.getPublicRoom
        cases hid : param room_id with
        | none => exact ⟨none, w, rfl, rfl, by simp⟩
        | some id =>
            obtain rfl := hparam id hid
            exact (replies_one id).request (by simp) fate w
      refine ⟨answer.map fun room => (room.name, room.symmetric_key), ?_⟩
      rw [run_bind_of_ok hrun]
      cases answer with
      | none =>
          refine runsAs_of_error (e := .text "Unknown room") hprofiles ?_
          show join_public_room room_id none (w.profiles user) = _
          unfold join_public_room
          rw [hknown]
      | some room =>
          refine runsAs_addPublicRoomOf hprofiles ?_
          obtain rfl := hroom room rfl
          show join_public_room _ (some (room.name, room.symmetric_key)) (w.profiles user) = _
          unfold join_public_room
          rw [hknown]
          rfl

theorem RunsAs.idsIdentify {user : ℕ} {call : RoomCall} {w : PublicChat}
    {r : Except Exn Unit × PublicChat} (h : RunsAs user call w r)
    (hids : IdsIdentify (w.profiles user)) (huuid : call.NewUuid (w.profiles user))
    (hinvite : call.NewInvite (w.profiles user)) : IdsIdentify (r.2.profiles user) := by
  rw [h.2, Function.update_self]
  exact (RoomCall.exec_idsIdentify_iff huuid hids).mpr hinvite

/-- So creating public rooms and joining them never makes two rooms of one id. -/
theorem idsIdentify_publicCalls {fate : Fate} {user : ℕ} {w : PublicChat}
    (hids : IdsIdentify (w.profiles user)) :
    (∀ name room_id symmetric_key, room_id ∉ (w.profiles user).ids → IdsIdentify
      (((createPublicRoomBy notEmpty fate user name room_id symmetric_key).exec w).profiles user)) ∧
    ∀ room_id, (∀ id, param room_id = some id → id = room_id) → IdsIdentify
      (((joinPublicRoomBy param fate user room_id).exec w).profiles user) := by
  constructor
  · intro name room_id symmetric_key hnew
    obtain ⟨created, hruns⟩ := run_createPublicRoomBy notEmpty fate user name room_id symmetric_key w
    exact hruns.idsIdentify hids hnew trivial
  · intro room_id hparam
    obtain ⟨room_from_server, hruns⟩ := run_joinPublicRoomBy hparam fate user w
    exact hruns.idsIdentify hids trivial trivial

end

/-! ## A room of two users -/

namespace Demo

/-- `notEmpty` of the strings of a body. -/
def filled : Option Json → Bool
  | some (.str s) => s ≠ ""
  | some _ => true
  | none => false

/-- An instance starts, user 0 creates a room, user 1 joins it; then another instance starts. -/
def roomOfTwo : Pool PublicRoomCall PublicChat Exn Unit :=
  (Pool.startAll (PublicRoomCall.body filled some)
    [.start, .create .answered 0 "room" "id" "key", .join .answered 1 "id", .start] {}).steps
      [0, 0, 1, 1, 1, 2, 2, 2, 2, 3, 3]

theorem runs_roomOfTwo : PublicRoomRuns filled some roomOfTwo :=
  (Pool.Runs.startAll (fun _ _ => trivial) _).steps (fun _ _ => trivial) _

end Demo

/-- Both users have the room now. -/
theorem public_rooms_agree_two : ∃ r, r ∈ (Demo.roomOfTwo.state.profiles 0).publicRooms ∧
    r ∈ (Demo.roomOfTwo.state.profiles 1).publicRooms ∧ r.id = "id" := by
  have hcreated : ∃ r ∈ (Demo.roomOfTwo.state.profiles 0).publicRooms, r.id = "id" := by
    decide +kernel
  have hjoined : ∃ r ∈ (Demo.roomOfTwo.state.profiles 1).publicRooms, r.id = "id" := by
    decide +kernel
  obtain ⟨r, hr, hid⟩ := hcreated
  obtain ⟨r', hr', hid'⟩ := hjoined
  have hsame := public_rooms_agree Demo.runs_roomOfTwo hr hr' (hid.trans hid'.symm)
  exact ⟨r, hr, hsame ▸ hr', hid⟩

/-- The second instance has started, too. -/
theorem default_room_once_restarted : Demo.roomOfTwo.state.listening = 2 ∧
    Demo.roomOfTwo.state.public_chat_rooms.filter (·.uuid = defaultPublicRoom.uuid)
      = [defaultPublicRoom] := by
  have htwo : Demo.roomOfTwo.state.listening = 2 := by decide +kernel
  exact ⟨htwo, (default_room_once Demo.runs_roomOfTwo).2 (by simp [htwo])⟩

end ZkChat
