import ZkChat.Client.HistorySync
import Mathlib.Data.List.Perm.Basic

set_option autoImplicit false

/-! # Live messages and syncs together

A message of the user's rooms can reach the local database in two ways: by its broadcast and in the
answer to a sync. Saving never looks at the uuid, and a sync starts from the largest local timestamp,
whatever put it there. Each await of `messageHandlerForRooms` and of `syncMessagesForAllRooms` is a
point at which anything else may happen; a sync takes a single page. -/

namespace ZkChat

open ChatManager Ranking

/-- A call, at the await at which it stands. -/
inductive HistoryCall where
  /-- `messageHandlerForRooms`, with the message it was given and then with the decrypted one. -/
  | decrypting (message : IMessage)
  | saving (decryptedMessage : IMessage) (room_id : String)
  /-- `syncMessagesForAllRooms`, before the largest timestamp is read and before the answer. -/
  | starting (toTimestamp : ℤ)
  | requesting (toTimestamp fromTimestamp : ℤ)
  /-- The loop over the answer: what is left of it, and the message that has been decrypted. -/
  | looping (toTimestamp : ℤ) (messages : List IMessage)
  | loopSaving (toTimestamp : ℤ) (decryptedMessage : IMessage) (room_id : String)
      (messages : List IMessage)

structure HistoryState where
  rooms : Rooms
  /-- What the server has stored. -/
  messages : List IMessage
  /-- The stored messages that were sent while the user was in their rooms. -/
  owed : List IMessage
  /-- Broadcasts on their way to the client. -/
  transit : List IMessage
  db : LocalChatDB
  calls : List HistoryCall
  /-- What the completed syncs owe to the local database. -/
  settled : List IMessage

inductive HistoryEvent where
  /-- The server stores a message and broadcasts it. -/
  | persist (message : IMessage)
  /-- A broadcast arrives. -/
  | receive (i : ℕ)
  /-- A broadcast finds the client offline. -/
  | lose (i : ℕ)
  | join (rooms : Rooms)
  | sync (toTimestamp : ℤ)
  /-- The `i`-th call goes on to its next await. -/
  | proceed (i : ℕ)

/-! ## The calls -/

section

variable (sort : List IMessage → List IMessage) (limit : ℕ)
  (decryptMessageSymmetric : String → String → Option String)

/-- The messages of the page, none if the request is refused. -/
def HistoryState.answer (s : HistoryState) (fromTimestamp toTimestamp : ℤ) : List IMessage :=
  match getTimeRangeChatHistory sort limit { messages := s.messages } fromTimestamp toTimestamp with
  | some messageData => messageData.messages
  | none => []

/-- The state after the call has gone on to its next await, and the await. -/
def HistoryCall.next (s : HistoryState) : HistoryCall → HistoryState × Option HistoryCall
  | decrypting message =>
      (s, (decryptMessage s.rooms decryptMessageSymmetric message).map
        fun (decryptedMessage, room_id) => saving decryptedMessage room_id)
  | saving decryptedMessage room_id =>
      ({ s with db := s.db.saveMessage room_id decryptedMessage }, none)
  | starting toTimestamp =>
      (s, some (requesting toTimestamp (startTimestamp toTimestamp s.db)))
  | requesting toTimestamp fromTimestamp =>
      (s, some (looping toTimestamp (s.answer sort limit fromTimestamp toTimestamp)))
  | looping toTimestamp [] =>
      ({ s with settled := s.settled ++ s.owed.filter fun m => m.timestamp < toTimestamp }, none)
  | looping toTimestamp (message :: messages) =>
      match decryptMessage s.rooms decryptMessageSymmetric message with
      | some (decryptedMessage, room_id) =>
          (s, some (loopSaving toTimestamp decryptedMessage room_id messages))
      | none => (s, some (looping toTimestamp messages))
  | loopSaving toTimestamp decryptedMessage room_id messages =>
      ({ s with db := s.db.saveMessage room_id decryptedMessage },
        some (looping toTimestamp messages))

/-- The user is in the room of the message. -/
def HistoryState.InRoom (s : HistoryState) (message : IMessage) : Prop :=
  (decryptMessage s.rooms decryptMessageSymmetric message).isSome = true

instance (s : HistoryState) (message : IMessage) :
    Decidable (s.InRoom decryptMessageSymmetric message) :=
  inferInstanceAs (Decidable (_ = true))

def Rooms.join (rooms added : Rooms) : Rooms where
  publicRooms := rooms.publicRooms ++ added.publicRooms
  privateRooms := rooms.privateRooms ++ added.privateRooms
  directRooms := rooms.directRooms ++ added.directRooms

def HistoryState.on (s : HistoryState) : HistoryEvent → HistoryState
  | .persist message =>
      if message.uuid ∈ s.messages.map (·.uuid) then s
      else
        { s with
          messages := s.messages ++ [message]
          owed := if s.InRoom decryptMessageSymmetric message then s.owed ++ [message] else s.owed
          transit := s.transit ++ [message] }
  | .receive i =>
      match s.transit[i]? with
      | some message =>
          { s with transit := s.transit.eraseIdx i, calls := s.calls ++ [.decrypting message] }
      | none => s
  | .lose i => { s with transit := s.transit.eraseIdx i }
  | .join rooms => { s with rooms := s.rooms.join rooms }
  | .sync toTimestamp => { s with calls := s.calls ++ [.starting toTimestamp] }
  | .proceed i =>
      match s.calls[i]? with
      | some call =>
          let (s', next) := call.next sort limit decryptMessageSymmetric s
          { s' with calls := s.calls.take i ++ next.toList ++ s.calls.drop (i + 1) }
      | none => s

/-- A new client, with the messages that the server has stored before. -/
def HistoryState.initial (rooms : Rooms) (messages : List IMessage) : HistoryState :=
  { rooms, messages, owed := [], transit := [], db := [], calls := [], settled := [] }

inductive HistoryRun (ok : HistoryState → HistoryEvent → Prop) : HistoryState → Prop
  | initial (rooms : Rooms) {messages : List IMessage} (h : (messages.map (·.uuid)).Nodup) :
      HistoryRun ok (.initial rooms messages)
  | event {s : HistoryState} (e : HistoryEvent) (h : HistoryRun ok s) (hok : ok s e) :
      HistoryRun ok (s.on sort limit decryptMessageSymmetric e)

end

/-! ## Where a message is -/

namespace HistoryCall

/-- The uuids that the call may still save. -/
def uuids : HistoryCall → List String
  | decrypting message => [message.uuid]
  | saving decryptedMessage _ => [decryptedMessage.uuid]
  | starting _ => []
  | requesting _ _ => []
  | looping _ messages => messages.map (·.uuid)
  | loopSaving _ decryptedMessage _ messages => decryptedMessage.uuid :: messages.map (·.uuid)

/-- The messages that the call has not yet decrypted. -/
def undecrypted : HistoryCall → List IMessage
  | decrypting message => [message]
  | looping _ messages => messages
  | loopSaving _ _ _ messages => messages
  | _ => []

/-- The time before which the call will not ask for a message again. -/
def reach : HistoryCall → Option ℤ
  | requesting _ fromTimestamp => some fromTimestamp
  | looping toTimestamp _ => some toTimestamp
  | loopSaving toTimestamp _ _ _ => some toTimestamp
  | _ => none

end HistoryCall

namespace HistoryState

def saved (s : HistoryState) : List String := s.db.map (·.uuid)

def pending (s : HistoryState) : List String := s.calls.flatMap (·.uuids)

/-- The uuids that are in the local database or on their way into it. -/
def held (s : HistoryState) : List String := s.saved ++ s.pending

/-- No message for the user from before this time is missing. -/
def Covered (s : HistoryState) (timestamp : ℤ) : Prop :=
  ∀ m ∈ s.owed, m.timestamp < timestamp → m.uuid ∈ s.held

/-- What the completed syncs owe is there once. -/
def Exact (s : HistoryState) : Prop := ∀ m ∈ s.settled, s.saved.count m.uuid = 1

/-- The request does not fail, and a single page suffices. -/
def SinglePageCall (limit : ℕ) (s : HistoryState) : HistoryCall → Prop
  | .requesting toTimestamp fromTimestamp => fromTimestamp < toTimestamp →
      Answered fromTimestamp toTimestamp ∧
        (Message.inTimeRange s.messages fromTimestamp toTimestamp).length < limit
  | _ => True

def SinglePage (limit : ℕ) (s : HistoryState) : HistoryEvent → Prop
  | .proceed i => ∀ call ∈ s.calls[i]?, s.SinglePageCall limit call
  | _ => True

/-- When a sync starts, no message from before its start is missing; when it is answered, none of the
    answer is there already; when it completes, none that it owes is still being handled. -/
def CarefulCall (s : HistoryState) : HistoryCall → Prop
  | .starting toTimestamp => s.Covered (startTimestamp toTimestamp s.db)
  | .requesting toTimestamp fromTimestamp => ∀ m ∈ s.owed,
      fromTimestamp ≤ m.timestamp → m.timestamp < toTimestamp → m.uuid ∉ s.held
  | .looping toTimestamp [] => ∀ m ∈ s.owed, m.timestamp < toTimestamp → m.uuid ∉ s.pending
  | _ => True

/-- A message that is stored during a sync is not from before what the sync will still ask for, and a
    broadcast is not received when its message is there already. -/
def Careful (decryptMessageSymmetric : String → String → Option String) (s : HistoryState) :
    HistoryEvent → Prop
  | .persist message => s.InRoom decryptMessageSymmetric message →
      ∀ call ∈ s.calls, ∀ t ∈ call.reach, t ≤ message.timestamp
  | .receive i => ∀ message ∈ s.transit[i]?, message ∈ s.owed → message.uuid ∉ s.held
  | .proceed i => ∀ call ∈ s.calls[i]?, s.CarefulCall call
  | _ => True

instance (s : HistoryState) (timestamp : ℤ) : Decidable (s.Covered timestamp) :=
  inferInstanceAs (Decidable (∀ m ∈ s.owed, m.timestamp < timestamp → m.uuid ∈ s.held))

instance (s : HistoryState) : Decidable s.Exact :=
  inferInstanceAs (Decidable (∀ m ∈ s.settled, s.saved.count m.uuid = 1))

instance (fromTimestamp toTimestamp : ℤ) : Decidable (Answered fromTimestamp toTimestamp) :=
  inferInstanceAs (Decidable (_ ∧ _ ∧ _))

instance (limit : ℕ) (s : HistoryState) : DecidablePred (s.SinglePageCall limit)
  | .requesting _ _ => inferInstanceAs (Decidable (_ → _ ∧ _))
  | .decrypting _ | .saving _ _ | .starting _ | .looping _ _ | .loopSaving _ _ _ _ =>
      .isTrue trivial

instance (limit : ℕ) (s : HistoryState) : DecidablePred (s.SinglePage limit)
  | .proceed i => inferInstanceAs (Decidable (∀ call ∈ s.calls[i]?, s.SinglePageCall limit call))
  | .persist _ | .receive _ | .lose _ | .join _ | .sync _ => .isTrue trivial

instance (s : HistoryState) : DecidablePred s.CarefulCall
  | .starting toTimestamp =>
      inferInstanceAs (Decidable (s.Covered (startTimestamp toTimestamp s.db)))
  | .requesting _ _ => inferInstanceAs (Decidable (∀ m ∈ s.owed, _ → _ → _))
  | .looping _ [] => inferInstanceAs (Decidable (∀ m ∈ s.owed, _ → _))
  | .decrypting _ | .saving _ _ | .looping _ (_ :: _) | .loopSaving _ _ _ _ => .isTrue trivial

instance (decryptMessageSymmetric : String → String → Option String) (s : HistoryState) :
    DecidablePred (s.Careful decryptMessageSymmetric)
  | .persist _ => inferInstanceAs (Decidable (_ → ∀ call ∈ s.calls, ∀ t ∈ call.reach, _))
  | .receive i => inferInstanceAs (Decidable (∀ message ∈ s.transit[i]?, _ → _))
  | .proceed i => inferInstanceAs (Decidable (∀ call ∈ s.calls[i]?, s.CarefulCall call))
  | .lose _ | .join _ | .sync _ => .isTrue trivial

/-- What careful runs keep. -/
structure Inv (decryptMessageSymmetric : String → String → Option String) (s : HistoryState) :
    Prop where
  distinct : (s.messages.map (·.uuid)).Nodup
  owed : ∀ m ∈ s.owed, m ∈ s.messages ∧ s.InRoom decryptMessageSymmetric m
  transit : ∀ m ∈ s.transit, m ∈ s.messages
  undecrypted : ∀ call ∈ s.calls, ∀ m ∈ call.undecrypted, m ∈ s.messages
  known : ∀ uuid ∈ s.held, uuid ∈ s.messages.map (·.uuid)
  once : ∀ m ∈ s.owed, s.held.count m.uuid ≤ 1
  covered : ∀ call ∈ s.calls, ∀ t ∈ call.reach, s.Covered t
  settled : ∀ m ∈ s.settled, m ∈ s.owed ∧ s.saved.count m.uuid = 1

end HistoryState

/-! ## One await -/

section

variable (sort : List IMessage → List IMessage) (limit : ℕ)
  {decryptMessageSymmetric : String → String → Option String} {s : HistoryState}

@[simp] theorem saved_saveMessage (room_id : String) (message : IMessage) :
    ({ s with db := s.db.saveMessage room_id message } : HistoryState).saved
      = s.saved ++ [message.uuid] := by
  simp [HistoryState.saved, LocalChatDB.saveMessage, LocalChatDB.record]

variable (decryptMessageSymmetric s) in
/-- What an await does not touch. -/
theorem HistoryCall.next_frame (call : HistoryCall) :
    let s' := (call.next sort limit decryptMessageSymmetric s).1
    s'.rooms = s.rooms ∧ s'.messages = s.messages ∧ s'.owed = s.owed ∧ s'.transit = s.transit := by
  cases call with
  | looping toTimestamp messages =>
      cases messages with
      | nil => exact ⟨rfl, rfl, rfl, rfl⟩
      | cons message messages =>
          simp only [next]
          split <;> exact ⟨rfl, rfl, rfl, rfl⟩
  | _ => exact ⟨rfl, rfl, rfl, rfl⟩

variable (decryptMessageSymmetric s) in
/-- The local database only grows. -/
theorem HistoryCall.saved_next (call : HistoryCall) :
    s.saved.Sublist (call.next sort limit decryptMessageSymmetric s).1.saved := by
  cases call with
  | saving decryptedMessage room_id => simp [next]
  | loopSaving toTimestamp decryptedMessage room_id messages => simp [next]
  | looping toTimestamp messages =>
      cases messages with
      | nil => exact List.Sublist.refl _
      | cons message messages =>
          simp only [next]
          split <;> exact List.Sublist.refl _
  | _ => exact List.Sublist.refl _

/-- A message of which a stored one has the uuid is that message. -/
theorem HistoryState.Inv.eq_of_uuid (h : s.Inv decryptMessageSymmetric) {m message : IMessage}
    (hm : m ∈ s.owed) (hmessage : message ∈ s.messages) (huuid : m.uuid = message.uuid) :
    m = message :=
  List.inj_on_of_nodup_map h.distinct (h.owed m hm).1 hmessage huuid

/-- A message that cannot be decrypted is not owed. -/
theorem HistoryState.Inv.uuid_ne (h : s.Inv decryptMessageSymmetric) {m message : IMessage}
    (hm : m ∈ s.owed) (hmessage : message ∈ s.messages)
    (hnone : decryptMessage s.rooms decryptMessageSymmetric message = none) :
    message.uuid ≠ m.uuid := by
  intro huuid
  obtain rfl := h.eq_of_uuid hm hmessage huuid.symm
  have hroom : (decryptMessage s.rooms decryptMessageSymmetric m).isSome = true := (h.owed m hm).2
  rw [hnone] at hroom
  cases hroom

/-- What an answer adds to the uuids of the call. -/
def HistoryCall.gained (sort : List IMessage → List IMessage) (limit : ℕ) (s : HistoryState) :
    HistoryCall → List String
  | requesting toTimestamp fromTimestamp =>
      (s.answer sort limit fromTimestamp toTimestamp).map (·.uuid)
  | _ => []

/-- An await moves a uuid from the call to the local database, or drops one that is not owed. -/
theorem HistoryCall.next_count (h : s.Inv decryptMessageSymmetric) {call : HistoryCall}
    (hcall : call ∈ s.calls) {m : IMessage} (hm : m ∈ s.owed) :
    ((call.next sort limit decryptMessageSymmetric s).2.toList.flatMap (·.uuids)).count m.uuid
        + (call.next sort limit decryptMessageSymmetric s).1.saved.count m.uuid
      = call.uuids.count m.uuid + s.saved.count m.uuid
        + (call.gained sort limit s).count m.uuid := by
  have hundecrypted := h.undecrypted call hcall
  cases call with
  | decrypting message =>
      have hmessage := hundecrypted message (by simp [undecrypted])
      simp only [next, gained, uuids]
      cases hdecrypt : decryptMessage s.rooms decryptMessageSymmetric message with
      | some p =>
          obtain ⟨decryptedMessage, room_id⟩ := p
          simp [decryptMessage_uuid hdecrypt]
      | none => simp [h.uuid_ne hm hmessage hdecrypt]
  | saving decryptedMessage room_id =>
      simp [next, gained, uuids, Nat.add_comm]
  | starting toTimestamp => simp [next, gained, uuids]
  | requesting toTimestamp fromTimestamp =>
      simp [next, gained, uuids, Nat.add_comm]
  | looping toTimestamp messages =>
      cases messages with
      | nil => simp [next, gained, uuids, HistoryState.saved]
      | cons message messages =>
          have hmessage := hundecrypted message (by simp [undecrypted])
          simp only [next, gained]
          cases hdecrypt : decryptMessage s.rooms decryptMessageSymmetric message with
          | some p =>
              obtain ⟨decryptedMessage, room_id⟩ := p
              simp [uuids, decryptMessage_uuid hdecrypt]
          | none => simp [uuids, h.uuid_ne hm hmessage hdecrypt]
  | loopSaving toTimestamp decryptedMessage room_id messages =>
      simp [next, gained, uuids, List.count_cons, Nat.add_comm, Nat.add_left_comm, Nat.add_assoc]

theorem HistoryCall.next_mem (call : HistoryCall) {uuid : String}
    (h : uuid ∈ (call.next sort limit decryptMessageSymmetric s).2.toList.flatMap (·.uuids) ∨
      uuid ∈ (call.next sort limit decryptMessageSymmetric s).1.saved) :
    uuid ∈ call.uuids ∨ uuid ∈ s.saved ∨ uuid ∈ call.gained sort limit s := by
  cases call with
  | decrypting message =>
      simp only [next, gained, uuids] at h ⊢
      cases hdecrypt : decryptMessage s.rooms decryptMessageSymmetric message with
      | some p =>
          obtain ⟨decryptedMessage, room_id⟩ := p
          simpa [hdecrypt, uuids, decryptMessage_uuid hdecrypt] using h
      | none => exact .inr (.inl (by simpa [hdecrypt] using h))
  | saving decryptedMessage room_id =>
      simpa [next, gained, uuids, or_comm] using h
  | starting toTimestamp => simpa [next, gained, uuids] using h
  | requesting toTimestamp fromTimestamp =>
      simpa [next, gained, uuids, or_comm] using h
  | looping toTimestamp messages =>
      cases messages with
      | nil => simpa [next, gained, uuids, HistoryState.saved] using h
      | cons message messages =>
          simp only [next, gained] at h ⊢
          cases hdecrypt : decryptMessage s.rooms decryptMessageSymmetric message with
          | some p =>
              obtain ⟨decryptedMessage, room_id⟩ := p
              simpa [hdecrypt, uuids, decryptMessage_uuid hdecrypt] using h
          | none =>
              rw [hdecrypt] at h
              rcases h with h | h
              · exact .inl (List.mem_cons_of_mem _ (by simpa [uuids] using h))
              · exact .inr (.inl h)
  | loopSaving toTimestamp decryptedMessage room_id messages =>
      rcases h with h | h
      · exact .inl (List.mem_cons_of_mem _ (by simpa [next, uuids] using h))
      · simp only [next, saved_saveMessage, List.mem_append, List.mem_singleton] at h
        rcases h with h | rfl
        · exact .inr (.inl h)
        · exact .inl List.mem_cons_self

variable {sort : List IMessage → List IMessage} {limit : ℕ}

/-- With a single page, the answer consists of the messages of the range. -/
theorem HistoryState.answer_perm (hsort : SortsBy IMessage.epoch sort)
    {fromTimestamp toTimestamp : ℤ}
    (h : fromTimestamp < toTimestamp → Answered fromTimestamp toTimestamp ∧
      (Message.inTimeRange s.messages fromTimestamp toTimestamp).length < limit) :
    (s.answer sort limit fromTimestamp toTimestamp).Perm
      (Message.inTimeRange s.messages fromTimestamp toTimestamp) := by
  have hperm := hsort.perm (Message.inTimeRange s.messages fromTimestamp toTimestamp)
  unfold HistoryState.answer
  by_cases hlt : fromTimestamp < toTimestamp
  · obtain ⟨hanswered, hlimit⟩ := h hlt
    rw [getTimeRangeChatHistory, run_timeRangeChatHistory hanswered]
    show ((sort _).take limit).Perm _
    rwa [List.take_of_length_le (by rw [hperm.length_eq]; omega)]
  · -- nothing is between the two times
    have hnone : Message.inTimeRange s.messages fromTimestamp toTimestamp = [] := by
      refine List.eq_nil_iff_forall_not_mem.mpr fun m hm => hlt ?_
      obtain ⟨-, hfrom, hto⟩ := mem_inTimeRange.mp hm
      omega
    rw [getTimeRangeChatHistory_of_not fun hanswered => hlt hanswered.2.2, hnone]

/-! ## Awaits keep the invariant -/

theorem eq_take_append_drop {α : Type} {l : List α} {i : ℕ} {a : α} (h : l[i]? = some a) :
    l = l.take i ++ a :: l.drop (i + 1) := by
  obtain ⟨hlt, rfl⟩ := List.getElem?_eq_some_iff.mp h
  rw [← List.drop_eq_getElem_cons hlt, List.take_append_drop]

/-- The state after the `i`-th call, `call`, has gone on. -/
structure Proceeded (sort : List IMessage → List IMessage) (limit : ℕ)
    (decryptMessageSymmetric : String → String → Option String) (s : HistoryState)
    (call : HistoryCall) (s' : HistoryState) : Prop where
  rooms : s'.rooms = s.rooms
  messages : s'.messages = s.messages
  owed : s'.owed = s.owed
  transit : s'.transit = s.transit
  db : s'.db = (call.next sort limit decryptMessageSymmetric s).1.db
  settled : s'.settled = (call.next sort limit decryptMessageSymmetric s).1.settled
  calls : ∃ before after, s.calls = before ++ call :: after ∧ s'.calls
    = before ++ (call.next sort limit decryptMessageSymmetric s).2.toList ++ after

theorem proceeded {i : ℕ} {call : HistoryCall} (hcall : s.calls[i]? = some call) :
    Proceeded sort limit decryptMessageSymmetric s call
      (s.on sort limit decryptMessageSymmetric (.proceed i)) := by
  obtain ⟨hrooms, hmessages, howed, htransit⟩ :=
    call.next_frame sort limit decryptMessageSymmetric s
  simp only [HistoryState.on, hcall]
  exact ⟨hrooms, hmessages, howed, htransit, rfl, rfl, _, _, eq_take_append_drop hcall, rfl⟩

namespace Proceeded

variable {s' : HistoryState} {call : HistoryCall}

theorem mem_calls (h : Proceeded sort limit decryptMessageSymmetric s call s') {c : HistoryCall}
    (hc : c ∈ s'.calls) :
    c ∈ s.calls ∨ (call.next sort limit decryptMessageSymmetric s).2 = some c := by
  obtain ⟨before, after, hcalls, hcalls'⟩ := h.calls
  rw [hcalls', List.mem_append, List.mem_append, Option.mem_toList] at hc
  rw [hcalls, List.mem_append, List.mem_cons]
  rcases hc with (hc | hc) | hc
  · exact .inl (.inl hc)
  · exact .inr hc
  · exact .inl (.inr (.inr hc))

theorem mem_held (h : Proceeded sort limit decryptMessageSymmetric s call s') {uuid : String}
    (huuid : uuid ∈ s'.held) : uuid ∈ s.held ∨ uuid ∈ call.gained sort limit s := by
  obtain ⟨before, after, hcalls, hcalls'⟩ := h.calls
  have hnext := @HistoryCall.next_mem sort limit decryptMessageSymmetric s call uuid
  simp only [HistoryState.held, HistoryState.saved, HistoryState.pending, h.db, hcalls, hcalls',
    List.flatMap_append, List.flatMap_cons, List.mem_append] at huuid hnext ⊢
  rcases huuid with huuid | (huuid | huuid) | huuid
  · rcases hnext (.inr huuid) with h | h | h <;> simp [h]
  · simp [huuid]
  · rcases hnext (.inl huuid) with h | h | h <;> simp [h]
  · simp [huuid]

theorem held_count (h : Proceeded sort limit decryptMessageSymmetric s call s')
    (hinv : s.Inv decryptMessageSymmetric) {m : IMessage} (hm : m ∈ s.owed) :
    s'.held.count m.uuid = s.held.count m.uuid + (call.gained sort limit s).count m.uuid := by
  obtain ⟨before, after, hcalls, hcalls'⟩ := h.calls
  have hcall : call ∈ s.calls := by simp [hcalls]
  have hnext := call.next_count sort limit hinv hcall hm
  simp only [HistoryState.held, HistoryState.saved, HistoryState.pending, h.db, hcalls, hcalls',
    List.flatMap_append, List.flatMap_cons, List.count_append] at hnext ⊢
  omega

/-- What is owed and held stays held. -/
theorem covered (h : Proceeded sort limit decryptMessageSymmetric s call s')
    (hinv : s.Inv decryptMessageSymmetric) {t : ℤ} (ht : s.Covered t) : s'.Covered t := by
  intro m hm hlt
  rw [h.owed] at hm
  have hcount := h.held_count hinv hm
  have hheld := List.count_pos_iff.mpr (ht m hm hlt)
  exact List.count_pos_iff.mp (by omega)

theorem saved_count_le (h : Proceeded sort limit decryptMessageSymmetric s call s')
    (uuid : String) : s.saved.count uuid ≤ s'.saved.count uuid := by
  have hsaved : s'.saved = (call.next sort limit decryptMessageSymmetric s).1.saved := by
    rw [HistoryState.saved, h.db]
    rfl
  have hle := call.saved_next sort limit decryptMessageSymmetric s
  rw [hsaved]
  exact hle.count_le uuid

/-- What is gained has been stored. -/
theorem mem_of_gained (hsort : SortsBy IMessage.epoch sort) {i : ℕ}
    (hcall : s.calls[i]? = some call) (hpage : s.SinglePage limit (.proceed i)) {uuid : String}
    (huuid : uuid ∈ call.gained sort limit s) : uuid ∈ s.messages.map (·.uuid) := by
  cases call with
  | requesting toTimestamp fromTimestamp =>
      have hperm := HistoryState.answer_perm hsort (hpage _ hcall)
      obtain ⟨message, hmessage, rfl⟩ := List.mem_map.mp huuid
      exact List.mem_map_of_mem (mem_inTimeRange.mp (hperm.mem_iff.mp hmessage)).1
  | _ => cases huuid

/-- What is owed is held once, also after an answer. -/
theorem gained_count (hinv : s.Inv decryptMessageSymmetric) (hsort : SortsBy IMessage.epoch sort)
    {i : ℕ} (hcall : s.calls[i]? = some call) (hpage : s.SinglePage limit (.proceed i))
    (hcareful : s.CarefulCall call) {m : IMessage} (hm : m ∈ s.owed) :
    s.held.count m.uuid + (call.gained sort limit s).count m.uuid ≤ 1 := by
  have honce := hinv.once m hm
  cases call with
  | requesting toTimestamp fromTimestamp =>
      have hperm := (HistoryState.answer_perm hsort (hpage _ hcall)).map (·.uuid)
      show _ + ((s.answer sort limit fromTimestamp toTimestamp).map (·.uuid)).count m.uuid ≤ 1
      rw [hperm.count_eq]
      -- uuids are unique at the server, so the answer has each message of the range once
      by_cases hrange : fromTimestamp ≤ m.timestamp ∧ m.timestamp < toTimestamp
      · have hnodup : ((Message.inTimeRange s.messages fromTimestamp toTimestamp).map
            (·.uuid)).Nodup := hinv.distinct.sublist (List.filter_sublist.map _)
        -- and a careful sync is answered before any of them is there
        have hnew := List.count_eq_zero_of_not_mem (hcareful m hm hrange.1 hrange.2)
        have hle := List.nodup_iff_count_le_one.mp hnodup m.uuid
        omega
      · have hnot : m.uuid ∉ (Message.inTimeRange s.messages fromTimestamp toTimestamp).map
            (·.uuid) := by
          intro hmem
          obtain ⟨message, hmessage, huuid⟩ := List.mem_map.mp hmem
          obtain ⟨hstored, hin⟩ := mem_inTimeRange.mp hmessage
          obtain rfl := hinv.eq_of_uuid hm hstored huuid.symm
          exact hrange hin
        rw [List.count_eq_zero_of_not_mem hnot]
        exact honce
  | _ => exact honce

end Proceeded

/-- What is left to decrypt has been stored. -/
theorem HistoryCall.next_undecrypted (hsort : SortsBy IMessage.epoch sort) {i : ℕ}
    {call c : HistoryCall} (hcall : s.calls[i]? = some call)
    (hpage : s.SinglePage limit (.proceed i))
    (hc : (call.next sort limit decryptMessageSymmetric s).2 = some c) {m : IMessage}
    (hm : m ∈ c.undecrypted) : m ∈ call.undecrypted ∨ m ∈ s.messages := by
  cases call with
  | decrypting message =>
      obtain ⟨p, -, rfl⟩ := Option.map_eq_some_iff.mp hc
      cases hm
  | saving decryptedMessage room_id => cases hc
  | starting toTimestamp =>
      cases hc
      cases hm
  | requesting toTimestamp fromTimestamp =>
      cases hc
      have hperm := HistoryState.answer_perm hsort (hpage _ hcall)
      exact .inr (mem_inTimeRange.mp (hperm.mem_iff.mp hm)).1
  | looping toTimestamp messages =>
      cases messages with
      | nil => cases hc
      | cons message messages =>
          simp only [next] at hc
          refine .inl (List.mem_cons_of_mem _ ?_)
          split at hc <;> cases hc <;> exact hm
  | loopSaving toTimestamp decryptedMessage room_id messages =>
      cases hc
      exact .inl hm

/-- A call goes on relying on what it relied on, or on what a careful call may. -/
theorem HistoryCall.next_reach (hinv : s.Inv decryptMessageSymmetric)
    (hsort : SortsBy IMessage.epoch sort) {i : ℕ} {s' : HistoryState} {call c : HistoryCall}
    (h : Proceeded sort limit decryptMessageSymmetric s call s') (hcall : s.calls[i]? = some call)
    (hpage : s.SinglePage limit (.proceed i)) (hcareful : s.CarefulCall call)
    (hc : (call.next sort limit decryptMessageSymmetric s).2 = some c) {t : ℤ}
    (ht : t ∈ c.reach) : s'.Covered t := by
  have hcovered := hinv.covered call (List.mem_of_getElem? hcall)
  cases call with
  | decrypting message =>
      obtain ⟨p, -, rfl⟩ := Option.map_eq_some_iff.mp hc
      cases ht
  | saving decryptedMessage room_id => cases hc
  | starting toTimestamp =>
      -- the one step at which the start of the sync matters
      cases hc
      cases ht
      exact h.covered hinv hcareful
  | requesting toTimestamp fromTimestamp =>
      cases hc
      cases ht
      intro m hm hlt
      rw [h.owed] at hm
      by_cases hfrom : fromTimestamp ≤ m.timestamp
      · -- the answer has it
        have hperm := HistoryState.answer_perm hsort (hpage _ hcall)
        have hanswer : m ∈ s.answer sort limit fromTimestamp t :=
          hperm.mem_iff.mpr (mem_inTimeRange.mpr ⟨(hinv.owed m hm).1, hfrom, hlt⟩)
        have hgained : 0 < List.count m.uuid
            (HistoryCall.gained sort limit s (requesting t fromTimestamp)) :=
          List.count_pos_iff.mpr (List.mem_map_of_mem hanswer)
        have hcount := h.held_count hinv hm
        exact List.count_pos_iff.mp (by omega)
      · -- it was there when the sync read its start
        exact h.covered hinv (hcovered fromTimestamp rfl) m (h.owed ▸ hm) (by omega)
  | looping toTimestamp messages =>
      cases messages with
      | nil => cases hc
      | cons message messages =>
          simp only [next] at hc
          refine h.covered hinv (hcovered t ?_)
          split at hc <;> cases hc <;> exact ht
  | loopSaving toTimestamp decryptedMessage room_id messages =>
      cases hc
      exact h.covered hinv (hcovered t ht)

/-- A sync that completes has brought what it owes. -/
theorem HistoryCall.next_settled (hinv : s.Inv decryptMessageSymmetric) {call : HistoryCall}
    (hcall : call ∈ s.calls) (hcareful : s.CarefulCall call) {m : IMessage}
    (hm : m ∈ (call.next sort limit decryptMessageSymmetric s).1.settled) :
    m ∈ s.owed ∧ s.saved.count m.uuid = 1 := by
  cases call with
  | looping toTimestamp messages =>
      cases messages with
      | nil =>
          rcases List.mem_append.mp hm with hm | hm
          · exact hinv.settled m hm
          · obtain ⟨howed, hlt⟩ := List.mem_filter.mp hm
            have hlt : m.timestamp < toTimestamp := of_decide_eq_true hlt
            refine ⟨howed, ?_⟩
            -- it is held, only once, and not by a call
            have hheld := List.count_pos_iff.mpr (hinv.covered _ hcall toTimestamp rfl m howed hlt)
            have honce := hinv.once m howed
            have hpending := List.count_eq_zero_of_not_mem (hcareful m howed hlt)
            rw [HistoryState.held, List.count_append] at hheld honce
            omega
      | cons message messages =>
          simp only [next] at hm
          split at hm <;> exact hinv.settled m hm
  | _ => exact hinv.settled m hm

theorem HistoryState.Inv.proceed (hinv : s.Inv decryptMessageSymmetric)
    (hsort : SortsBy IMessage.epoch sort) {i : ℕ} (hpage : s.SinglePage limit (.proceed i))
    (hcareful : s.Careful decryptMessageSymmetric (.proceed i)) :
    (s.on sort limit decryptMessageSymmetric (.proceed i)).Inv decryptMessageSymmetric := by
  cases hcall : s.calls[i]? with
  | none => simpa only [HistoryState.on, hcall] using hinv
  | some call =>
  have hcarefulCall := hcareful call hcall
  have hmem : call ∈ s.calls := List.mem_of_getElem? hcall
  have h : Proceeded sort limit decryptMessageSymmetric s call
      (s.on sort limit decryptMessageSymmetric (.proceed i)) :=
    proceeded hcall
  generalize s.on sort limit decryptMessageSymmetric (.proceed i) = s' at h ⊢
  have honce : ∀ m ∈ s.owed, s'.held.count m.uuid ≤ 1 := fun m hm =>
    (h.held_count hinv hm).trans_le
      (Proceeded.gained_count hinv hsort hcall hpage hcarefulCall hm)
  constructor
  case distinct =>
    rw [h.messages]
    exact hinv.distinct
  case owed =>
    rw [h.owed, h.messages]
    intro m hm
    refine ⟨(hinv.owed m hm).1, ?_⟩
    rw [HistoryState.InRoom, h.rooms]
    exact (hinv.owed m hm).2
  case transit =>
    rw [h.transit, h.messages]
    exact hinv.transit
  case undecrypted =>
    intro c hc m hm
    rw [h.messages]
    rcases h.mem_calls hc with hc | hc
    · exact hinv.undecrypted c hc m hm
    · rcases HistoryCall.next_undecrypted hsort hcall hpage hc hm with hm | hm
      · exact hinv.undecrypted call hmem m hm
      · exact hm
  case known =>
    intro uuid huuid
    rw [h.messages]
    rcases h.mem_held huuid with huuid | huuid
    · exact hinv.known uuid huuid
    · exact Proceeded.mem_of_gained hsort hcall hpage huuid
  case once =>
    rw [h.owed]
    exact honce
  case covered =>
    intro c hc t ht
    rcases h.mem_calls hc with hc | hc
    · exact h.covered hinv (hinv.covered c hc t ht)
    · exact HistoryCall.next_reach hinv hsort h hcall hpage hcarefulCall hc ht
  case settled =>
    intro m hm
    rw [h.settled] at hm
    obtain ⟨howed, hsaved⟩ := HistoryCall.next_settled hinv hmem hcarefulCall hm
    refine ⟨h.owed ▸ howed, ?_⟩
    have hle := h.saved_count_le m.uuid
    have hlast := honce m howed
    rw [HistoryState.held, List.count_append] at hlast
    omega

/-! ## The other events keep it, too -/

theorem decryptMessage_join {rooms added : Rooms} {message : IMessage}
    (h : (decryptMessage rooms decryptMessageSymmetric message).isSome = true) :
    (decryptMessage (rooms.join added) decryptMessageSymmetric message).isSome = true := by
  have hrooms : ∀ type, ProfileManager.getUserRoomsForChatType (rooms.join added) type
      = ProfileManager.getUserRoomsForChatType rooms type
        ++ ProfileManager.getUserRoomsForChatType added type := by
    intro type
    simp only [ProfileManager.getUserRoomsForChatType, Rooms.join]
    repeat' split
    all_goals rfl
  unfold decryptMessage at h ⊢
  rw [hrooms, List.findSome?_append, Option.isSome_or, h, Bool.true_or]

theorem HistoryState.Inv.persist (hinv : s.Inv decryptMessageSymmetric) {message : IMessage}
    (hcareful : s.Careful decryptMessageSymmetric (.persist message)) :
    (s.on sort limit decryptMessageSymmetric (.persist message)).Inv decryptMessageSymmetric := by
  simp only [HistoryState.on]
  by_cases hstored : message.uuid ∈ s.messages.map (·.uuid)
  · rwa [if_pos hstored]
  rw [if_neg hstored]
  -- the client only holds what has been stored before
  have hnew : message.uuid ∉ s.held := fun hmem => hstored (hinv.known _ hmem)
  have howed : ∀ m ∈ (if s.InRoom decryptMessageSymmetric message then s.owed ++ [message]
      else s.owed), m ∈ s.owed ∨ m = message ∧ s.InRoom decryptMessageSymmetric message := by
    intro m hm
    split at hm
    · next hroom =>
        rcases List.mem_append.mp hm with hm | hm
        · exact .inl hm
        · exact .inr ⟨List.mem_singleton.mp hm, hroom⟩
    · exact .inl hm
  constructor
  case distinct =>
    rw [List.map_append, List.nodup_append]
    refine ⟨hinv.distinct, by simp, fun uuid huuid other hother heq => hstored ?_⟩
    obtain rfl : other = message.uuid := by simpa using hother
    exact heq ▸ huuid
  case owed =>
    intro m hm
    rcases howed m hm with hm | ⟨rfl, hroom⟩
    · exact ⟨List.mem_append_left _ (hinv.owed m hm).1, (hinv.owed m hm).2⟩
    · exact ⟨by simp, hroom⟩
  case transit =>
    exact List.forall_mem_append.mpr
      ⟨fun m hm => List.mem_append_left _ (hinv.transit m hm), by simp⟩
  case undecrypted =>
    exact fun call hcall m hm => List.mem_append_left _ (hinv.undecrypted call hcall m hm)
  case known =>
    intro uuid huuid
    exact List.map_append ▸ List.mem_append_left _ (hinv.known uuid huuid)
  case once =>
    intro m hm
    rcases howed m hm with hm | ⟨rfl, -⟩
    · exact hinv.once m hm
    · exact (List.count_eq_zero_of_not_mem hnew).trans_le (Nat.zero_le 1)
  case covered =>
    intro call hcall t ht m hm hlt
    rcases howed m hm with hm | ⟨rfl, hroom⟩
    · exact hinv.covered call hcall t ht m hm hlt
    · -- a sync that has passed the new message would miss it
      have hle := hcareful hroom call hcall t ht
      omega
  case settled =>
    intro m hm
    obtain ⟨howed, hsaved⟩ := hinv.settled m hm
    refine ⟨?_, hsaved⟩
    show m ∈ ite _ _ _
    split
    · exact List.mem_append_left _ howed
    · exact howed

/-- A call that has just been made. -/
theorem HistoryState.Inv.call (hinv : s.Inv decryptMessageSymmetric) {call : HistoryCall}
    {transit : List IMessage} (htransit : ∀ m ∈ transit, m ∈ s.messages)
    (hundecrypted : ∀ m ∈ call.undecrypted, m ∈ s.messages)
    (huuids : ∀ uuid ∈ call.uuids, uuid ∈ s.messages.map (·.uuid))
    (honce : ∀ m ∈ s.owed, s.held.count m.uuid + call.uuids.count m.uuid ≤ 1)
    (hreach : call.reach = none) :
    ({ s with transit, calls := s.calls ++ [call] } : HistoryState).Inv
      decryptMessageSymmetric := by
  have hheld : ({ s with transit, calls := s.calls ++ [call] } : HistoryState).held
      = s.held ++ call.uuids := by
    simp [HistoryState.held, HistoryState.saved, HistoryState.pending]
  constructor
  case distinct => exact hinv.distinct
  case owed => exact hinv.owed
  case transit => exact htransit
  case undecrypted => exact List.forall_mem_append.mpr ⟨hinv.undecrypted, by simpa using hundecrypted⟩
  case known =>
    rw [hheld]
    exact List.forall_mem_append.mpr ⟨hinv.known, huuids⟩
  case once =>
    intro m hm
    rw [hheld, List.count_append]
    exact honce m hm
  case covered =>
    intro c hc t ht m hm hlt
    rw [hheld]
    rcases List.mem_append.mp hc with hc | hc
    · exact List.mem_append_left _ (hinv.covered c hc t ht m hm hlt)
    · obtain rfl := List.mem_singleton.mp hc
      rw [hreach] at ht
      cases ht
  case settled => exact hinv.settled

theorem HistoryState.Inv.receive (hinv : s.Inv decryptMessageSymmetric) {i : ℕ}
    (hcareful : s.Careful decryptMessageSymmetric (.receive i)) :
    (s.on sort limit decryptMessageSymmetric (.receive i)).Inv decryptMessageSymmetric := by
  simp only [HistoryState.on]
  cases hmessage : s.transit[i]? with
  | none => exact hinv
  | some message =>
  have hstored := hinv.transit message (List.mem_of_getElem? hmessage)
  refine hinv.call (fun m hm => hinv.transit m (List.mem_of_mem_eraseIdx hm)) ?_ ?_ ?_ rfl
  · simpa [HistoryCall.undecrypted] using hstored
  · exact fun uuid huuid => List.mem_singleton.mp huuid ▸ List.mem_map_of_mem hstored
  · intro m hm
    by_cases huuid : m.uuid = message.uuid
    · obtain rfl := hinv.eq_of_uuid hm hstored huuid
      rw [List.count_eq_zero_of_not_mem (hcareful m hmessage hm)]
      simp [HistoryCall.uuids]
    · rw [List.count_eq_zero_of_not_mem (l := (HistoryCall.decrypting message).uuids)
        (by simpa [HistoryCall.uuids] using huuid)]
      exact hinv.once m hm

theorem HistoryState.Inv.on (hinv : s.Inv decryptMessageSymmetric)
    (hsort : SortsBy IMessage.epoch sort) {e : HistoryEvent} (hpage : s.SinglePage limit e)
    (hcareful : s.Careful decryptMessageSymmetric e) :
    (s.on sort limit decryptMessageSymmetric e).Inv decryptMessageSymmetric := by
  cases e with
  | persist message => exact hinv.persist hcareful
  | receive i => exact hinv.receive hcareful
  | lose i =>
      exact
        { hinv with transit := fun m hm => hinv.transit m (List.mem_of_mem_eraseIdx hm) }
  | join rooms =>
      exact { hinv with
        owed := fun m hm => ⟨(hinv.owed m hm).1, decryptMessage_join (hinv.owed m hm).2⟩ }
  | sync toTimestamp =>
      exact hinv.call hinv.transit (by simp [HistoryCall.undecrypted]) (by simp [HistoryCall.uuids])
        (fun m hm => hinv.once m hm) rfl
  | proceed i => exact hinv.proceed hsort hpage hcareful

theorem HistoryState.inv_initial (rooms : Rooms) {messages : List IMessage}
    (h : (messages.map (·.uuid)).Nodup) :
    (HistoryState.initial rooms messages).Inv decryptMessageSymmetric where
  distinct := h
  owed _ hm := by cases hm
  transit _ hm := by cases hm
  undecrypted _ hm := by cases hm
  known _ hm := by cases hm
  once _ hm := by cases hm
  covered _ hm := by cases hm
  settled _ hm := by cases hm

/-- In a careful run, every message that a completed sync owes is in the local database once. -/
theorem exact_of_careful (hsort : SortsBy IMessage.epoch sort)
    (h : HistoryRun sort limit decryptMessageSymmetric
      (fun s e => s.SinglePage limit e ∧ s.Careful decryptMessageSymmetric e) s) : s.Exact := by
  suffices hinv : s.Inv decryptMessageSymmetric from fun m hm => (hinv.settled m hm).2
  induction h with
  | initial rooms hmessages => exact HistoryState.inv_initial rooms hmessages
  | event e _ hok ih => exact ih.on hsort hok.1 hok.2

end

/-! ## A live message after an offline period -/

section

variable {sort : List IMessage → List IMessage} {limit : ℕ}
  {decryptMessageSymmetric : String → String → Option String}
  {ok : HistoryState → HistoryEvent → Prop}

variable (sort limit decryptMessageSymmetric ok) in
/-- Each of the events is as `ok` asks. -/
def OkAlong : HistoryState → List HistoryEvent → Prop
  | _, [] => True
  | s, e :: events => ok s e ∧ OkAlong (s.on sort limit decryptMessageSymmetric e) events

instance [∀ s e, Decidable (ok s e)] :
    ∀ s events, Decidable (OkAlong sort limit decryptMessageSymmetric ok s events)
  | _, [] => .isTrue trivial
  | _, _ :: _ => @instDecidableAnd _ _ _ (instDecidableOkAlong _ _)

theorem HistoryRun.events {s : HistoryState}
    (h : HistoryRun sort limit decryptMessageSymmetric ok s) {events : List HistoryEvent}
    (hok : OkAlong sort limit decryptMessageSymmetric ok s events) :
    HistoryRun sort limit decryptMessageSymmetric ok
      (events.foldl (·.on sort limit decryptMessageSymmetric) s) := by
  induction events generalizing s with
  | nil => exact h
  | cons e events ih => exact ih (h.event e hok.1) hok.2

end

namespace Demo

def byEpoch (messages : List IMessage) : List IMessage :=
  messages.insertionSort fun a b => a.epoch ≤ b.epoch

theorem sortsBy_byEpoch : SortsBy IMessage.epoch byEpoch where
  perm := List.perm_insertionSort _
  sorted := List.pairwise_insertionSort _

def rooms : Rooms := ⟨[⟨"r", "k"⟩], [], []⟩

/-- A message of the one room. -/
def note (uuid : String) (timestamp : ℤ) : IMessage :=
  { uuid, epoch := 0, chat_type := "PUBLIC", message_content := "m", timestamp, sender := "s" }

/-- A message that is stored while the client is offline. -/
def offline : List HistoryEvent := [.persist (note "a" 1), .lose 0]

/-- A message that is received and saved. -/
def live : List HistoryEvent :=
  [.persist (note "b" 2), .receive 0, .proceed 0, .proceed 0]

/-- A sync that brings so many messages, without interruption. -/
def wholeSync (messages : ℕ) : List HistoryEvent :=
  .sync 10 :: List.replicate (3 + 2 * messages) (.proceed 0)

end Demo

/-- The message from the offline period is older than the live one, and the sync starts after it. -/
theorem offline_message_lost :
    ¬ ∀ (sort : List IMessage → List IMessage) (limit : ℕ)
      (decryptMessageSymmetric : String → String → Option String) (s : HistoryState),
      SortsBy IMessage.epoch sort →
      HistoryRun sort limit decryptMessageSymmetric (HistoryState.SinglePage limit) s →
      s.Exact := by
  intro h
  have hstart : HistoryRun Demo.byEpoch 1000 (fun content _ => some content)
      (HistoryState.SinglePage 1000) (.initial Demo.rooms []) := .initial _ List.nodup_nil
  have hok : OkAlong Demo.byEpoch 1000 (fun content _ => some content)
      (HistoryState.SinglePage 1000) (.initial Demo.rooms [])
      (Demo.offline ++ Demo.live ++ Demo.wholeSync 0) := by decide
  exact absurd (h _ _ _ _ Demo.sortsBy_byEpoch (hstart.events hok)) (by decide)

/-- With a sync after the offline period both messages are there once. -/
theorem offline_message_synced : HistoryState.Exact
    ((Demo.offline ++ Demo.wholeSync 1 ++ Demo.live).foldl
      (·.on Demo.byEpoch 1000 fun content _ => some content) (.initial Demo.rooms [])) := by
  have hstart : HistoryRun Demo.byEpoch 1000 (fun content _ => some content)
      (fun s e => s.SinglePage 1000 e ∧ s.Careful (fun content _ => some content) e)
      (.initial Demo.rooms []) := .initial _ List.nodup_nil
  exact exact_of_careful Demo.sortsBy_byEpoch (hstart.events (by decide))

end ZkChat
