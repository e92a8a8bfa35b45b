import ZkChat.Client.HistorySync

set_option autoImplicit false

/-! # Deleted history and later syncs

Deleting the history of a room leaves no trace, and a sync asks for everything after the newest
message that is still stored. A deleted message that was newer than all others is loaded again
(`deleted_newest_message_returns`). One that is not newer than what is left stays away, whatever is
synced later (`deleted_message_stays_deleted`): the requests of a sync all begin after it, as long
as the pages do not lead back across its time (`Sync.NoWayBack`). -/

namespace ZkChat

open Ranking ChatManager

variable {roomId : String} {db : LocalChatDB} {t : ℤ}

namespace LocalChatDB

def deleteAllMessagesForRoom (db : LocalChatDB) (roomId : String) : LocalChatDB :=
  db.filter fun m => m.roomId ≠ roomId

theorem mem_deleteAllMessagesForRoom {m : IZkMessage} :
    m ∈ db.deleteAllMessagesForRoom roomId ↔ m ∈ db ∧ m.roomId ≠ roomId := by
  rw [deleteAllMessagesForRoom, List.mem_filter, decide_eq_true_eq]

theorem le_getMaxTimestampForAllMessages {m : IZkMessage} (hm : m ∈ db) :
    m.timestamp ≤ db.getMaxTimestampForAllMessages := by
  have hmem : m.timestamp ∈ db.map (·.timestamp) := List.mem_map_of_mem hm
  rw [getMaxTimestampForAllMessages]
  cases hmax : (db.map (·.timestamp)).max? with
  | none => simp [List.max?_eq_none_iff.mp hmax] at hmem
  | some time => exact (List.max?_eq_some_iff.mp hmax).2 _ hmem

end LocalChatDB

def ChatManager.deleteMessageHistoryForRoom (roomId : String) (db : LocalChatDB) : LocalChatDB :=
  db.deleteAllMessagesForRoom roomId

/-! ## Syncs that may be cut off -/

section Requests

variable (rooms : Rooms) (decryptMessageSymmetric : String → String → Option String)
  (request : ℤ → ℤ → Option ITimeRangeMessages) (toTimestamp : ℤ)

/-- What is stored after the first `n` requests of a sync that asks from `x` on, or after all of
    them when there are fewer. -/
def afterRequests : ℕ → ℤ → LocalChatDB → LocalChatDB
  | 0, _, db => db
  | n + 1, x, db =>
      let next := getAndSaveMessagesForTimeRange rooms decryptMessageSymmetric request x toTimestamp
        db
      match next.1 with
      | none => next.2
      | some messageData =>
          if messageData.messages.length = messageData.limit then
            afterRequests n (messageData.returnedToTimestamp + 1) next.2
          else next.2

variable {rooms decryptMessageSymmetric request toTimestamp}

theorem afterRequests_of_none {x : ℤ} (h : request x toTimestamp = none) (n : ℕ)
    (db : LocalChatDB) :
    afterRequests rooms decryptMessageSymmetric request toTimestamp (n + 1) x db = db := by
  simp only [afterRequests, getAndSaveMessagesForTimeRange, h]

theorem afterRequests_of_some {x : ℤ} {data : ITimeRangeMessages}
    (h : request x toTimestamp = some data) (n : ℕ) (db : LocalChatDB) :
    afterRequests rooms decryptMessageSymmetric request toTimestamp (n + 1) x db =
      if data.messages.length = data.limit then
        afterRequests rooms decryptMessageSymmetric request toTimestamp n
          (data.returnedToTimestamp + 1)
          (db ++ data.messages.filterMap (decryptedRecord rooms decryptMessageSymmetric))
      else db ++ data.messages.filterMap (decryptedRecord rooms decryptMessageSymmetric) := by
  simp only [afterRequests, getAndSaveMessagesForTimeRange, h, saveMessages_eq]

/-- A sync that returns is one that is not cut off. -/
theorem eq_afterRequests_of_syncFrom {fuel : ℕ} {x : ℤ} {db db' : LocalChatDB}
    (h : syncFrom rooms decryptMessageSymmetric request toTimestamp fuel x db = some db') :
    db' = afterRequests rooms decryptMessageSymmetric request toTimestamp (fuel + 1) x db := by
  induction fuel generalizing x db with
  | zero =>
      cases hreq : request x toTimestamp with
      | none =>
          rw [syncFrom_of_none hreq] at h
          rw [afterRequests_of_none hreq, Option.some.inj h]
      | some data =>
          rw [syncFrom_of_some hreq] at h
          rw [afterRequests_of_some hreq]
          split at h
          · cases h
          · next hpage => rw [if_neg hpage, Option.some.inj h]
  | succ fuel ih =>
      cases hreq : request x toTimestamp with
      | none =>
          rw [syncFrom_of_none hreq] at h
          rw [afterRequests_of_none hreq, Option.some.inj h]
      | some data =>
          rw [syncFrom_of_some hreq] at h
          rw [afterRequests_of_some hreq]
          split at h
          · next hpage => rw [if_pos hpage, ih h]
          · next hpage => rw [if_neg hpage, Option.some.inj h]

end Requests

/-- A call of `syncMessagesForAllRooms`, with the rooms and the server that it meets. -/
structure Sync where
  rooms : Rooms
  decryptMessageSymmetric : String → String → Option String
  sort : List IMessage → List IMessage
  sorts : SortsBy IMessage.epoch sort
  server : Db
  toTimestamp : ℤ
  /-- It gets to make so many requests, or fewer when it has returned by then. -/
  requests : ℕ

namespace Sync

def request (sync : Sync) : ℤ → ℤ → Option ITimeRangeMessages :=
  getTimeRangeChatHistory sync.sort ChatService.MESSAGE_COUNT_LIMIT sync.server

/-- What the call leaves in the local database. -/
def after (sync : Sync) (db : LocalChatDB) : LocalChatDB :=
  afterRequests sync.rooms sync.decryptMessageSymmetric sync.request sync.toTimestamp sync.requests
    (startTimestamp sync.toTimestamp db) db

def afterAll (syncs : List Sync) (db : LocalChatDB) : LocalChatDB :=
  syncs.foldl (fun db sync => sync.after db) db

theorem eq_after_of_syncMessagesForAllRooms (sync : Sync) {db' : LocalChatDB} {fuel : ℕ}
    (hrequests : sync.requests = fuel + 1)
    (h : syncMessagesForAllRooms sync.rooms sync.decryptMessageSymmetric sync.request fuel
      sync.toTimestamp db = some db') : db' = sync.after db := by
  rw [after, hrequests]
  exact eq_afterRequests_of_syncFrom h

/-- Fewer messages than a page holds are after `t` by their timestamp and before it by their
    epoch. -/
def NoWayBack (sync : Sync) (t : ℤ) : Prop :=
  epochsBelow sync.server.messages sync.toTimestamp (t + 1) t < ChatService.MESSAGE_COUNT_LIMIT

end Sync

/-! ## What later syncs add -/

theorem decryptedRecord_timestamp {rooms : Rooms}
    {decryptMessageSymmetric : String → String → Option String} {message : IMessage}
    {m : IZkMessage} (h : decryptedRecord rooms decryptMessageSymmetric message = some m) :
    m.timestamp = message.timestamp := by
  obtain ⟨⟨decryptedMessage, room_id⟩, hdecrypt, rfl⟩ := Option.map_eq_some_iff.mp h
  obtain ⟨room, -, hroom⟩ := List.exists_of_findSome?_eq_some hdecrypt
  obtain ⟨decrypted, -, heq⟩ := Option.map_eq_some_iff.mp hroom
  cases heq
  rfl

/-- A sync begins after the newest stored message, when that has a time from the epoch on. -/
theorem lt_startTimestamp {other : IZkMessage} (hother : other ∈ db) (ht : t ≤ other.timestamp)
    (hclock : 0 ≤ other.timestamp) (toTimestamp : ℤ) : t < startTimestamp toTimestamp db := by
  have hmax := LocalChatDB.le_getMaxTimestampForAllMessages hother
  rw [startTimestamp]
  split
  · omega
  · omega

namespace Sync

/-- The request after a full page begins after `t` again. -/
theorem NoWayBack.lt_next {sync : Sync} (h : sync.NoWayBack t) {x e : ℤ} (hx : t < x)
    (hle : ChatService.MESSAGE_COUNT_LIMIT
      ≤ epochsBelow sync.server.messages sync.toTimestamp x (e + 1)) : t < e + 1 := by
  by_contra hback
  refine absurd (hle.trans ?_) (Nat.not_le.mpr h)
  calc epochsBelow sync.server.messages sync.toTimestamp x (e + 1)
      ≤ epochsBelow sync.server.messages sync.toTimestamp x t :=
        epochsBelow_mono _ (not_lt.mp hback)
    _ ≤ epochsBelow sync.server.messages sync.toTimestamp (t + 1) t :=
        epochsBelow_anti _ (by omega) t

/-- A page after `t` has messages after `t` only. -/
theorem lt_timestamp_of_page {sync : Sync} {x : ℤ} {data : ITimeRangeMessages} (hx : t < x)
    (hpage : data.messages = Message.page sync.sort ChatService.MESSAGE_COUNT_LIMIT
      sync.server.messages x sync.toTimestamp) {m : IZkMessage}
    (hm : m ∈ data.messages.filterMap
      (decryptedRecord sync.rooms sync.decryptMessageSymmetric)) : t < m.timestamp := by
  obtain ⟨message, hmessage, hrecord⟩ := List.mem_filterMap.mp hm
  rw [hpage] at hmessage
  have hrange := (sync.sorts.perm _).mem_iff.mp (List.mem_of_mem_take hmessage)
  rw [decryptedRecord_timestamp hrecord]
  exact hx.trans_le (mem_inTimeRange.mp hrange).2.1

/-- Requests that begin after `t` add messages after `t`. -/
theorem afterRequests_adds {sync : Sync} (h : sync.NoWayBack t) (n : ℕ) {x : ℤ} (hx : t < x)
    (db : LocalChatDB) : ∃ new, afterRequests sync.rooms sync.decryptMessageSymmetric sync.request
      sync.toTimestamp n x db = db ++ new ∧ ∀ m ∈ new, t < m.timestamp := by
  induction n generalizing x db with
  | zero => exact ⟨[], (List.append_nil db).symm, by simp⟩
  | succ n ih =>
      cases hreq : sync.request x sync.toTimestamp with
      | none => exact ⟨[], by rw [afterRequests_of_none hreq, List.append_nil], by simp⟩
      | some data =>
          obtain ⟨-, hpage, -, hnext⟩ := of_getTimeRangeChatHistory sync.sorts (by decide) hreq
          have hnew : ∀ m ∈ data.messages.filterMap (decryptedRecord sync.rooms
              sync.decryptMessageSymmetric), t < m.timestamp :=
            fun m => lt_timestamp_of_page hx hpage
          rw [afterRequests_of_some hreq]
          split
          · next hfull =>
              obtain ⟨m, -, hreturned, -, hle⟩ := hnext hfull
              obtain ⟨new, heq, hafter⟩ := ih (hreturned ▸ h.lt_next hx hle) (db ++ _)
              refine ⟨_, heq.trans (List.append_assoc ..), fun m hm => ?_⟩
              exact (List.mem_append.mp hm).elim (hnew m) (hafter m)
          · exact ⟨_, rfl, hnew⟩

theorem after_adds {sync : Sync} (h : sync.NoWayBack t) {other : IZkMessage} (hother : other ∈ db)
    (ht : t ≤ other.timestamp) (hclock : 0 ≤ other.timestamp) :
    ∃ new, sync.after db = db ++ new ∧ ∀ m ∈ new, t < m.timestamp :=
  afterRequests_adds h sync.requests (lt_startTimestamp hother ht hclock _) db

/-- While a message of time `t` or later is stored, syncs add messages after `t`. -/
theorem afterAll_adds (syncs : List Sync) (h : ∀ sync ∈ syncs, sync.NoWayBack t)
    {other : IZkMessage} (hother : other ∈ db) (ht : t ≤ other.timestamp)
    (hclock : 0 ≤ other.timestamp) :
    ∃ new, afterAll syncs db = db ++ new ∧ ∀ m ∈ new, t < m.timestamp := by
  induction syncs generalizing db with
  | nil => exact ⟨[], (List.append_nil db).symm, by simp⟩
  | cons sync syncs ih =>
      obtain ⟨new, heq, hnew⟩ := after_adds (h sync List.mem_cons_self) hother ht hclock
      obtain ⟨new', heq', hnew'⟩ := ih (fun s hs => h s (List.mem_cons_of_mem _ hs))
        (heq ▸ List.mem_append_left new hother)
      refine ⟨new ++ new', ?_, fun m hm => (List.mem_append.mp hm).elim (hnew m) (hnew' m)⟩
      rw [← List.append_assoc, ← heq]
      exact heq'

end Sync

/-- What syncs add to what is left after a deletion does not come from the deleted times. -/
theorem Sync.later_of_deleted {db : LocalChatDB} {roomId : String} {syncs : List Sync} {t : ℤ}
    {other : IZkMessage} (hother : other ∈ deleteMessageHistoryForRoom roomId db)
    (ht : t ≤ other.timestamp) (hclock : 0 ≤ other.timestamp)
    (hpages : ∀ sync ∈ syncs, sync.NoWayBack t) :
    ∀ m ∈ Sync.afterAll syncs (deleteMessageHistoryForRoom roomId db), m.roomId = roomId →
      t < m.timestamp := by
  obtain ⟨new, heq, hnew⟩ := Sync.afterAll_adds syncs hpages hother ht hclock
  intro m hm hroom
  rw [heq] at hm
  rcases List.mem_append.mp hm with hm | hm
  · exact absurd hroom (LocalChatDB.mem_deleteAllMessagesForRoom.mp hm).2
  · exact hnew m hm

/-- When the call returns, the database has nothing of the room from up to that time. -/
theorem later_of_syncMessagesForAllRooms {db db' : LocalChatDB} {roomId : String} {sync : Sync}
    {t : ℤ} {fuel : ℕ} (hrequests : sync.requests = fuel + 1)
    (hreturns : syncMessagesForAllRooms sync.rooms sync.decryptMessageSymmetric sync.request fuel
      sync.toTimestamp (deleteMessageHistoryForRoom roomId db) = some db')
    {other : IZkMessage} (hother : other ∈ deleteMessageHistoryForRoom roomId db)
    (ht : t ≤ other.timestamp) (hclock : 0 ≤ other.timestamp) (hpage : sync.NoWayBack t) :
    ∀ m ∈ db', m.roomId = roomId → t < m.timestamp := by
  obtain rfl := sync.eq_after_of_syncMessagesForAllRooms hrequests hreturns
  have hpages : ∀ sync' ∈ [sync], sync'.NoWayBack t := by simpa using hpage
  exact Sync.later_of_deleted hother ht hclock hpages

/-- A deleted message stays deleted under all later syncs, finished or not, when a message at least
    as new is left and no page leads back across its time. -/
theorem deleted_message_stays_deleted (db : LocalChatDB) (roomId : String) (syncs : List Sync) :
    ∀ m ∈ db, m.roomId = roomId →
      (∃ other ∈ deleteMessageHistoryForRoom roomId db,
        m.timestamp ≤ other.timestamp ∧ 0 ≤ other.timestamp) →
      (∀ sync ∈ syncs, sync.NoWayBack m.timestamp) →
      m ∉ Sync.afterAll syncs (deleteMessageHistoryForRoom roomId db) ∧
      ∀ m' ∈ Sync.afterAll syncs (deleteMessageHistoryForRoom roomId db), m'.roomId = roomId →
        m.timestamp < m'.timestamp := by
  rintro m - hm ⟨other, hother, ht, hclock⟩ hpages
  have hlater := Sync.later_of_deleted hother ht hclock hpages
  exact ⟨fun h => lt_irrefl _ (hlater m h hm), hlater⟩

/-- The message of the other room is newer, and the server has both. -/
theorem deleted_older_message_stays_deleted :
    let left : IZkMessage := ⟨"1", "a", 0, "PRIVATE", "x", 2000, "s"⟩
    let deleted : IZkMessage := ⟨"2", "r", 0, "PUBLIC", "y", 1000, "s"⟩
    let sync : Sync :=
      { rooms := ⟨[⟨"r", "k"⟩], [⟨"a", "l"⟩], []⟩
        decryptMessageSymmetric := fun content _ => some content
        sort := _
        sorts := sortsBy_mergeSort IMessage.epoch
        server := { messages :=
          [⟨"1", 0, "PRIVATE", "x", 2000, "s"⟩, ⟨"2", 0, "PUBLIC", "y", 1000, "s"⟩] }
        toTimestamp := 10000
        requests := 1 }
    deleted ∉ Sync.afterAll [sync] (deleteMessageHistoryForRoom "r" [left, deleted]) := by
  intro left deleted sync
  refine (deleted_message_stays_deleted [left, deleted] "r" [sync] deleted (by simp) rfl
    ⟨left, by decide, by decide, by decide⟩ ?_).1
  simp only [List.mem_singleton, forall_eq]
  exact Nat.lt_of_le_of_lt List.countP_le_length (Nat.lt_of_le_of_lt (List.length_filter_le _ _)
    (by decide))

/-- A deleted message that was newer than what is left is loaded again by the next sync. -/
theorem deleted_newest_message_returns :
    let left : IZkMessage := ⟨"1", "a", 0, "PRIVATE", "x", 1000, "s"⟩
    let deleted : IZkMessage := ⟨"2", "r", 0, "PUBLIC", "y", 2000, "s"⟩
    let server : Db := { messages :=
      [⟨"1", 0, "PRIVATE", "x", 1000, "s"⟩, ⟨"2", 0, "PUBLIC", "y", 2000, "s"⟩] }
    deleteMessageHistoryForRoom "r" [left, deleted] = [left] ∧
    syncMessagesForAllRooms ⟨[⟨"r", "k"⟩], [⟨"a", "l"⟩], []⟩ (fun content _ => some content)
      (getTimeRangeChatHistory (fun l => l.mergeSort fun a b => a.epoch ≤ b.epoch)
        ChatService.MESSAGE_COUNT_LIMIT server) 0 10000 [left]
      = some [left, deleted] := by
  intro left deleted server
  refine ⟨by decide, ?_⟩
  have hanswered : Answered 1001 10000 := ⟨by decide, by decide, by decide⟩
  obtain ⟨data, hreq, hpage, hdata, -⟩ := getTimeRangeChatHistory_of_answered
    (fun l => l.mergeSort fun a b => a.epoch ≤ b.epoch) ChatService.MESSAGE_COUNT_LIMIT server
    hanswered
  have hmessages : data.messages = [⟨"2", 0, "PUBLIC", "y", 2000, "s"⟩] := by
    have hrange : Message.inTimeRange server.messages 1001 10000
        = [⟨"2", 0, "PUBLIC", "y", 2000, "s"⟩] := by decide
    rw [hpage, Message.page, hrange,
      List.perm_singleton.mp ((sortsBy_mergeSort IMessage.epoch).perm _)]
    rfl
  have hstart : startTimestamp 10000 [left] = 1001 := by decide
  show syncFrom _ _ _ _ 0 (startTimestamp 10000 [left]) [left] = _
  rw [hstart, syncFrom_of_some hreq, hdata, hmessages, if_neg (by decide)]
  rfl

end ZkChat
