import ZkChat.Js.JsonRoundTrip
import Mathlib.Data.List.Basic

set_option autoImplicit false

/-! # Rooms

The rooms of a profile and the operations of `ProfileManager` that add one. Keys and names of keys
are texts of any kind `τ`, with `default` for the empty text: the client works on strings, the
analysis of the key exchange on symbolic terms. -/

namespace ZkChat

/-- A public or a private room. -/
structure IRoom where
  id : String
  name : String
  type : String
  symmetric_key : String
deriving DecidableEq

structure IDirectRoom (τ : Type) where
  id : String
  name : String
  type : String
  symmetric_key : τ
  recipient_public_key : τ
  dh_public_key : τ
  dh_private_key : τ
deriving DecidableEq

structure IKeyPair (τ : Type) where
  publicKey : τ
  privateKey : τ

/-- The UTF-16 code units of a string: what `length`, `substring` and `charCodeAt` count. -/
def Js.codeUnits (s : String) : List ℕ := s.toList.flatMap Js.utf16

namespace ProfileManager

/-- The room that a new profile starts with. -/
def defaultChatroom : IRoom where
  id := "c44e8b47-2c9e-4575-b87d-70ee9f2e1a2f"
  name := "Lobby"
  type := "PUBLIC"
  symmetric_key := "\x7b\"alg\":\"A128GCM\",\"ext\":true,\"k\":\"clgPxSs2Tk9xKGYrTNU8eA\",\"key_ops\":[\"encrypt\",\"decrypt\"],\"kty\":\"oct\"\x7d"

def ROOM_NAME_MAX_LENGTH : ℕ := 200

/-- The check of a name that every call which creates a room begins with. -/
def checkName (name : String) : Except Exn Unit :=
  if ROOM_NAME_MAX_LENGTH < (Js.codeUnits name).length then
    .error (.text ("Room name cannot have more than " ++ toString ROOM_NAME_MAX_LENGTH
      ++ " characters"))
  else .ok ()

/-- A room joins its list unless it is there already. -/
def addUnless {α : Type} (isSame : α → Bool) (rooms : List α) (room : α) : Except Exn (List α) :=
  if rooms.any isSame then .error (.text "Room already exists") else .ok (rooms ++ [room])

theorem addUnless_eq_ok {α : Type} {isSame : α → Bool} {rooms rooms' : List α} {room : α} :
    addUnless isSame rooms room = .ok rooms' ↔
      (∀ r ∈ rooms, isSame r = false) ∧ rooms' = rooms ++ [room] := by
  unfold addUnless
  by_cases h : rooms.any isSame = true
  · rw [if_pos h]
    refine iff_of_false (by simp) ?_
    rintro ⟨hnone, -⟩
    obtain ⟨r, hr, hsame⟩ := List.any_eq_true.mp h
    exact absurd hsame (by simp [hnone r hr])
  · have hnone : ∀ r ∈ rooms, isSame r = false := by simpa using h
    rw [if_neg h, Except.ok.injEq]
    exact ⟨fun heq => ⟨hnone, heq.symm⟩, fun h => h.2.symm⟩

def addPublicRoom (rooms : List IRoom) (room : IRoom) : Except Exn (List IRoom) :=
  addUnless (fun r => r.symmetric_key = room.symmetric_key) rooms room

def addPrivateRoom (rooms : List IRoom) (room : IRoom) : Except Exn (List IRoom) :=
  addUnless (fun r => r.symmetric_key = room.symmetric_key) rooms room

variable {τ : Type} [DecidableEq τ]

def addDirectRoom (rooms : List (IDirectRoom τ)) (room : IDirectRoom τ) :
    Except Exn (List (IDirectRoom τ)) :=
  addUnless (fun r => r.recipient_public_key = room.recipient_public_key) rooms room

/-- The rooms that `getAllRoomsAvailableForKeyExchange` returns, with their positions: they are
    the rooms of the profile themselves, not copies. -/
def getAllRoomsAvailableForKeyExchange [Inhabited τ] (rooms : List (IDirectRoom τ)) :
    List (IDirectRoom τ × ℕ) :=
  rooms.zipIdx.filter fun room => room.1.symmetric_key = default

end ProfileManager

end ZkChat
