import ZkChat.Client.Profile
import ZkChat.Lib.Prog
import Mathlib.Data.List.Nodup

set_option autoImplicit false

/-! # Ids of rooms

The add operations compare keys, each within its own list, and never ids; a room is looked up by its
id, in all lists. The ids of a profile stay distinct exactly as long as no invite is joined whose id
is one of them: created rooms have new uuids, and a public room is not joined twice. -/

namespace ZkChat

open ProfileManager

namespace IRooms

/-- All rooms, in the order in which they are searched. -/
def all (rooms : IRooms) : List ChatRoom :=
  rooms.publicRooms.map .room ++ rooms.privateRooms.map .room ++ rooms.directRooms.map .direct

def ids (rooms : IRooms) : List String := rooms.all.map (·.id)

/-- The first of all rooms with this id. -/
def lookup (rooms : IRooms) (id : String) : Option ChatRoom := rooms.all.find? fun r => r.id = id

end IRooms

/-- The ids are distinct, and every room is found, and used, under its id. -/
structure IdsIdentify (rooms : IRooms) : Prop where
  distinct : rooms.ids.Nodup
  found : ∀ r ∈ rooms.all, getRoomById rooms r.id = .ok r
  used : ∀ r ∈ rooms.all, ∀ encryptMessageSymmetric message,
    encryptMessageForRoom encryptMessageSymmetric rooms r.id message
      = encryptMessageSymmetric message r.symmetric_key

/-! ## Lookups -/

section

variable {rooms : IRooms}

theorem IRooms.lookup_eq (rooms : IRooms) (id : String) : rooms.lookup id =
    ((rooms.publicRooms.find? fun r => r.id = id).map ChatRoom.room).or
      (((rooms.privateRooms.find? fun r => r.id = id).map ChatRoom.room).or
        ((rooms.directRooms.find? fun r => r.id = id).map ChatRoom.direct)) := by
  simp only [IRooms.lookup, IRooms.all, List.find?_append, List.find?_map, Option.or_assoc]
  rfl

theorem getRoomById_eq (rooms : IRooms) (id : String) : getRoomById rooms id =
    match rooms.lookup id with
    | some r => .ok r
    | none => .error (.text "Room doesn't exist") := by
  rw [getRoomById, IRooms.lookup_eq]
  cases rooms.publicRooms.find? fun r => r.id = id with
  | some r => rfl
  | none =>
      cases rooms.privateRooms.find? fun r => r.id = id with
      | some r => rfl
      | none => cases rooms.directRooms.find? fun r => r.id = id <;> rfl

theorem encryptMessageForRoom_eq (encryptMessageSymmetric : String → String → Except Exn String)
    (rooms : IRooms) (id message : String) :
    encryptMessageForRoom encryptMessageSymmetric rooms id message =
      match rooms.lookup id with
      | some r => encryptMessageSymmetric message r.symmetric_key
      | none => .error (.text "Room doesn't exist") := by
  rw [encryptMessageForRoom, IRooms.lookup_eq]
  cases rooms.publicRooms.find? fun r => r.id = id with
  | some r => rfl
  | none =>
      cases rooms.privateRooms.find? fun r => r.id = id with
      | some r => rfl
      | none => cases rooms.directRooms.find? fun r => r.id = id <;> rfl

theorem IRooms.lookup_eq_none {id : String} : rooms.lookup id = none ↔ id ∉ rooms.ids := by
  simp [IRooms.lookup, IRooms.ids]

/-- With distinct ids, the room that is found is the one that is looked for. -/
theorem IRooms.lookup_of_mem (h : rooms.ids.Nodup) {r : ChatRoom} (hr : r ∈ rooms.all) :
    rooms.lookup r.id = some r := by
  cases hfound : rooms.lookup r.id with
  | none => exact absurd (List.mem_map_of_mem hr) (IRooms.lookup_eq_none.mp hfound)
  | some r' =>
      have hid : r'.id = r.id := by simpa using List.find?_some hfound
      rw [List.inj_on_of_nodup_map h (List.mem_of_find?_eq_some hfound) hr hid]

theorem idsIdentify_iff : IdsIdentify rooms ↔ rooms.ids.Nodup := by
  refine ⟨fun h => h.distinct, fun h => ⟨h, fun r hr => ?_, fun r hr _ _ => ?_⟩⟩
  · rw [getRoomById_eq, IRooms.lookup_of_mem h hr]
  · rw [encryptMessageForRoom_eq, IRooms.lookup_of_mem h hr]

end

/-! ## Runs -/

/-- `uuidv4` returns no id that the profile has already. -/
def RoomCall.NewUuid (rooms : IRooms) : RoomCall → Prop
  | createPublicRoom _ room_id _ _ => room_id ∉ rooms.ids
  | createPrivateRoom _ room_id _ => room_id ∉ rooms.ids
  | createDirectRoom _ _ room_id _ => room_id ∉ rooms.ids
  | _ => True

/-- An invite with an id that the profile has is one to a private room whose key it has, too. -/
def RoomCall.NewInvite (rooms : IRooms) : RoomCall → Prop
  | joinPrivateRoom room_symmetric_key room_id _ =>
      room_id ∈ rooms.ids → ∃ r ∈ rooms.privateRooms, r.symmetric_key = room_symmetric_key
  | _ => True

/-- The profiles that a sequence of calls leads to from the initial one. -/
inductive ReachableRooms (ok : IRooms → RoomCall → Prop) : IRooms → Prop
  | initial : ReachableRooms ok initialRooms
  | call {rooms : IRooms} (call : RoomCall) (h : ReachableRooms ok rooms)
      (huuid : call.NewUuid rooms)
      (hok : ok rooms call) : ReachableRooms ok (call.exec rooms)

/-! ## One call -/

def RoomCall.room_id : RoomCall → String
  | createPublicRoom _ room_id _ _ => room_id
  | joinPublicRoom room_id _ => room_id
  | createPrivateRoom _ room_id _ => room_id
  | joinPrivateRoom _ room_id _ => room_id
  | createDirectRoom _ _ room_id _ => room_id

section

variable {rooms rooms' : IRooms}

theorem IRooms.ids_eq (rooms : IRooms) : rooms.ids =
    rooms.publicRooms.map (·.id) ++ rooms.privateRooms.map (·.id) ++
      rooms.directRooms.map (·.id) := by
  simp only [IRooms.ids, IRooms.all, List.map_append, List.map_map]
  rfl

theorem ids_of_addPublicRoom {room : IRoom} (h : (do
      let publicRooms ← addPublicRoom rooms.publicRooms room
      pure { rooms with publicRooms }) = Except.ok rooms') :
    rooms'.ids.Perm (room.id :: rooms.ids) := by
  obtain ⟨list, hlist, h⟩ := Except.bind_ok_iff.mp h
  obtain ⟨-, rfl⟩ := addUnless_eq_ok.mp hlist
  cases h
  simp [IRooms.ids_eq]

theorem ids_of_addPrivateRoom {room : IRoom} (h : (do
      let privateRooms ← addPrivateRoom rooms.privateRooms room
      pure { rooms with privateRooms }) = Except.ok rooms') :
    rooms'.ids.Perm (room.id :: rooms.ids) := by
  obtain ⟨list, hlist, h⟩ := Except.bind_ok_iff.mp h
  obtain ⟨-, rfl⟩ := addUnless_eq_ok.mp hlist
  cases h
  have hmiddle := @List.perm_middle _ room.id
    (rooms.publicRooms.map (·.id) ++ rooms.privateRooms.map (·.id)) (rooms.directRooms.map (·.id))
  simpa [IRooms.ids_eq] using hmiddle

theorem ids_of_addDirectRoom {room : IDirectRoom String} (h : (do
      let directRooms ← addDirectRoom rooms.directRooms room
      pure { rooms with directRooms }) = Except.ok rooms') :
    rooms'.ids.Perm (room.id :: rooms.ids) := by
  obtain ⟨list, hlist, h⟩ := Except.bind_ok_iff.mp h
  obtain ⟨-, rfl⟩ := addUnless_eq_ok.mp hlist
  cases h
  rw [IRooms.ids_eq, IRooms.ids_eq, List.map_append, ← List.append_assoc]
  exact List.perm_append_singleton _ _

/-- A public room is only joined under an id that is not in the profile. -/
theorem join_public_room_ok {room_id : String} {room_from_server : Option (String × String)}
    (h : join_public_room room_id room_from_server rooms = .ok rooms') :
    room_id ∉ rooms.ids ∧ rooms'.ids.Perm (room_id :: rooms.ids) := by
  unfold join_public_room at h
  rw [getRoomById_eq] at h
  cases hlookup : rooms.lookup room_id with
  | some r =>
      rw [hlookup] at h
      cases h
  | none =>
      rw [hlookup] at h
      refine ⟨IRooms.lookup_eq_none.mp hlookup, ?_⟩
      cases room_from_server with
      | none => cases h
      | some room => exact ids_of_addPublicRoom h

/-- A call that returns has added one room, under its id. -/
theorem RoomCall.ids_of_run {call : RoomCall} (h : call.run rooms = .ok rooms') :
    rooms'.ids.Perm (call.room_id :: rooms.ids) := by
  cases call with
  | createPublicRoom name room_id symmetric_key created =>
      obtain ⟨_, -, h⟩ := Except.bind_ok_iff.mp h
      by_cases hcreated : created = false
      · rw [if_pos hcreated] at h
        cases h
      · rw [if_neg hcreated] at h
        exact ids_of_addPublicRoom h
  | joinPublicRoom room_id room_from_server => exact (join_public_room_ok h).2
  | createPrivateRoom name room_id symmetric_key =>
      obtain ⟨_, -, h⟩ := Except.bind_ok_iff.mp h
      exact ids_of_addPrivateRoom h
  | joinPrivateRoom room_symmetric_key room_id room_name => exact ids_of_addPrivateRoom h
  | createDirectRoom name receiver_public_key room_id dh_keypair =>
      obtain ⟨_, -, h⟩ := Except.bind_ok_iff.mp h
      exact ids_of_addDirectRoom h

/-- Only a joined invite brings an id that the profile has. -/
theorem RoomCall.room_id_new {call : RoomCall} (huuid : call.NewUuid rooms)
    (hinvite : call.NewInvite rooms) (h : call.run rooms = .ok rooms') :
    call.room_id ∉ rooms.ids := by
  cases call with
  | createPublicRoom name room_id symmetric_key created => exact huuid
  | joinPublicRoom room_id room_from_server => exact (join_public_room_ok h).1
  | createPrivateRoom name room_id symmetric_key => exact huuid
  | createDirectRoom name receiver_public_key room_id dh_keypair => exact huuid
  | joinPrivateRoom room_symmetric_key room_id room_name =>
      -- with a key that is there the invite is refused
      intro hmem
      obtain ⟨r, hr, hkey⟩ := hinvite hmem
      obtain ⟨list, hlist, -⟩ := Except.bind_ok_iff.mp h
      have hother := (addUnless_eq_ok.mp hlist).1 r hr
      simp [hkey] at hother

/-- An invite with an id of the profile and a key that is new is joined. -/
theorem RoomCall.run_of_not_newInvite {call : RoomCall} (h : ¬ call.NewInvite rooms) :
    ∃ rooms', call.run rooms = .ok rooms' ∧ call.room_id ∈ rooms.ids := by
  cases call with
  | joinPrivateRoom room_symmetric_key room_id room_name =>
      simp only [NewInvite, Classical.not_imp, not_exists, not_and] at h
      obtain ⟨hmem, hkey⟩ := h
      have hadd : ∃ list, addPrivateRoom rooms.privateRooms
          ⟨room_id, room_name, "PRIVATE", room_symmetric_key⟩ = .ok list :=
        ⟨_, addUnless_eq_ok.mpr ⟨fun r hr => by simpa using hkey r hr, rfl⟩⟩
      obtain ⟨list, hlist⟩ := hadd
      exact ⟨_, Except.bind_ok_iff.mpr ⟨list, hlist, rfl⟩, hmem⟩
  | _ => exact absurd trivial h

/-- What one call does to the invariant. -/
theorem RoomCall.exec_idsIdentify_iff {call : RoomCall} (huuid : call.NewUuid rooms)
    (h : IdsIdentify rooms) : IdsIdentify (call.exec rooms) ↔ call.NewInvite rooms := by
  rw [idsIdentify_iff] at h ⊢
  constructor
  · intro hnext
    by_contra hinvite
    obtain ⟨rooms', hrun, hmem⟩ := RoomCall.run_of_not_newInvite hinvite
    rw [RoomCall.exec, hrun, (RoomCall.ids_of_run hrun).nodup_iff, List.nodup_cons] at hnext
    exact hnext.1 hmem
  · intro hinvite
    cases hrun : call.run rooms with
    | error e => rwa [RoomCall.exec, hrun]
    | ok rooms' =>
        rw [RoomCall.exec, hrun, (RoomCall.ids_of_run hrun).nodup_iff, List.nodup_cons]
        exact ⟨RoomCall.room_id_new huuid hinvite hrun, h⟩

end

/-! ## All calls -/

/-- In every run whose invites are new to the profile when they are joined, ids identify rooms. -/
theorem idsIdentify_of_newInvites {rooms : IRooms}
    (h : ReachableRooms (fun rooms call => call.NewInvite rooms) rooms) : IdsIdentify rooms := by
  induction h with
  | initial =>
      rw [idsIdentify_iff]
      decide
  | call call _ huuid hinvite ih => exact (RoomCall.exec_idsIdentify_iff huuid ih).mpr hinvite

namespace Demo

/-- A room to which another user has invited, with the id of the default room. -/
def invited : IRoom := ⟨defaultChatroom.id, "room", "PRIVATE", "key"⟩

def joinInvited : RoomCall :=
  .joinPrivateRoom invited.symmetric_key invited.id invited.name

end Demo

/-- The invite is joined, and what is written in its room is encrypted with the key of the lobby. -/
theorem lobby_found_first :
    ¬ ∀ rooms, ReachableRooms (fun _ _ => True) rooms → IdsIdentify rooms := by
  intro h
  have hrooms := h _ (ReachableRooms.initial.call Demo.joinInvited trivial trivial)
  have hmem : ChatRoom.room Demo.invited ∈ (Demo.joinInvited.exec initialRooms).all := by decide
  have hused := hrooms.used _ hmem (fun _ symmetricKey => .ok symmetricKey) "message"
  exact absurd hused (by decide)

theorem invite_identified :
    IdsIdentify ((RoomCall.joinPrivateRoom "key" "id" "room").exec initialRooms) :=
  idsIdentify_of_newInvites (ReachableRooms.initial.call _ trivial fun h => absurd h (by decide))

end ZkChat
