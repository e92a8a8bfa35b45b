import ZkChat.Client.ChatManager
import ZkChat.Server.ProofUtils
import Mathlib.Tactic.Linarith

set_option autoImplicit false

/-! # Whether a history sync ends

A sync asks for the messages from a time on, and after a full page goes on from the millisecond
after the epoch that the server reports as the end of the page (`Fetches`). That epoch may lie
before the timestamps of the page, so the next request may ask for no less than the last. Counting
the messages of a range with an epoch below a bound (`epochsBelow`) says when: the sync returns
unless some time has a page of messages after it whose epochs are before it (`Stuck`). -/

namespace ZkChat

open ChatManager Ranking

/-! ## The loop -/

section Loop

variable {rooms : Rooms} {decryptMessageSymmetric : String → String → Option String}
  {request : ℤ → ℤ → Option ITimeRangeMessages} {toTimestamp : ℤ}

/-- A sync that asks from `x` on receives these messages and ends; the flag says that every
    request was answered. -/
inductive Fetches (request : ℤ → ℤ → Option ITimeRangeMessages) (toTimestamp : ℤ) :
    ℤ → List IMessage → Bool → Prop
  | failed {x : ℤ} (h : request x toTimestamp = none) : Fetches request toTimestamp x [] false
  | last {x : ℤ} {data : ITimeRangeMessages} (h : request x toTimestamp = some data)
      (hpage : data.messages.length ≠ data.limit) :
      Fetches request toTimestamp x data.messages true
  | more {x : ℤ} {data : ITimeRangeMessages} {messages : List IMessage} {answered : Bool}
      (h : request x toTimestamp = some data) (hpage : data.messages.length = data.limit)
      (rest : Fetches request toTimestamp (data.returnedToTimestamp + 1) messages answered) :
      Fetches request toTimestamp x (data.messages ++ messages) answered

theorem decryptMessage_uuid {message decryptedMessage : IMessage} {room_id : String}
    (h : decryptMessage rooms decryptMessageSymmetric message = some (decryptedMessage, room_id)) :
    decryptedMessage.uuid = message.uuid := by
  obtain ⟨room, -, hroom⟩ := List.exists_of_findSome?_eq_some h
  obtain ⟨decrypted, -, heq⟩ := Option.map_eq_some_iff.mp hroom
  cases heq
  rfl

/-- The record that the client keeps of a message it can decrypt. -/
def decryptedRecord (rooms : Rooms) (decryptMessageSymmetric : String → String → Option String)
    (message : IMessage) : Option IZkMessage :=
  (decryptMessage rooms decryptMessageSymmetric message).map fun (decryptedMessage, room_id) =>
    LocalChatDB.record room_id decryptedMessage

theorem saveMessages_eq (db : LocalChatDB) (messages : List IMessage) :
    saveMessages rooms decryptMessageSymmetric db messages
      = db ++ messages.filterMap (decryptedRecord rooms decryptMessageSymmetric) := by
  induction messages generalizing db with
  | nil => rw [saveMessages, List.filterMap_nil, List.append_nil]
  | cons message messages ih =>
      rw [saveMessages]
      cases hm : decryptMessage rooms decryptMessageSymmetric message with
      | none =>
          rw [ih, List.filterMap_cons_none (by rw [decryptedRecord, hm, Option.map_none])]
      | some p =>
          rw [List.filterMap_cons_some (by rw [decryptedRecord, hm, Option.map_some])]
          exact (ih _).trans (List.append_assoc ..)

/-- The request from `x` and the loop after it. -/
def syncFrom (rooms : Rooms) (decryptMessageSymmetric : String → String → Option String)
    (request : ℤ → ℤ → Option ITimeRangeMessages) (toTimestamp : ℤ) (fuel : ℕ) (x : ℤ)
    (db : LocalChatDB) : Option LocalChatDB :=
  let next := getAndSaveMessagesForTimeRange rooms decryptMessageSymmetric request x toTimestamp db
  syncLoop rooms decryptMessageSymmetric request toTimestamp fuel next.1 next.2

theorem syncFrom_of_none {x : ℤ} (h : request x toTimestamp = none) (fuel : ℕ)
    (db : LocalChatDB) :
    syncFrom rooms decryptMessageSymmetric request toTimestamp fuel x db = some db := by
  simp only [syncFrom, getAndSaveMessagesForTimeRange, h]
  unfold syncLoop
  rfl

theorem syncFrom_of_some {x : ℤ} {data : ITimeRangeMessages}
    (h : request x toTimestamp = some data) (fuel : ℕ) (db : LocalChatDB) :
    syncFrom rooms decryptMessageSymmetric request toTimestamp fuel x db =
      if data.messages.length = data.limit then
        match fuel with
        | 0 => none
        | fuel + 1 => syncFrom rooms decryptMessageSymmetric request toTimestamp fuel
            (data.returnedToTimestamp + 1)
            (db ++ data.messages.filterMap (decryptedRecord rooms decryptMessageSymmetric))
      else some
        (db ++ data.messages.filterMap (decryptedRecord rooms decryptMessageSymmetric)) := by
  have hnext : getAndSaveMessagesForTimeRange rooms decryptMessageSymmetric request x toTimestamp db
      = (some data,
          db ++ data.messages.filterMap (decryptedRecord rooms decryptMessageSymmetric)) := by
    rw [getAndSaveMessagesForTimeRange, h]
    exact congrArg (some data, ·) (saveMessages_eq db data.messages)
  rw [syncFrom, hnext]
  conv_lhs => unfold syncLoop
  rfl

theorem Fetches.of_syncFrom {fuel : ℕ} {x : ℤ} {db db' : LocalChatDB}
    (h : syncFrom rooms decryptMessageSymmetric request toTimestamp fuel x db = some db') :
    ∃ messages answered, Fetches request toTimestamp x messages answered ∧
      db' = db ++ messages.filterMap (decryptedRecord rooms decryptMessageSymmetric) := by
  induction fuel generalizing x db with
  | zero =>
      cases hreq : request x toTimestamp with
      | none =>
          rw [syncFrom_of_none hreq] at h
          exact ⟨[], false, .failed hreq, by simpa using h.symm⟩
      | some data =>
          rw [syncFrom_of_some hreq] at h
          split at h
          · cases h
          · next hpage => exact ⟨_, true, .last hreq hpage, (Option.some.inj h).symm⟩
  | succ fuel ih =>
      cases hreq : request x toTimestamp with
      | none =>
          rw [syncFrom_of_none hreq] at h
          exact ⟨[], false, .failed hreq, by simpa using h.symm⟩
      | some data =>
          rw [syncFrom_of_some hreq] at h
          split at h
          · next hpage =>
              obtain ⟨messages, answered, hrest, rfl⟩ := ih h
              refine ⟨_, answered, .more hreq hpage hrest, ?_⟩
              rw [List.filterMap_append, List.append_assoc]
          · next hpage => exact ⟨_, true, .last hreq hpage, (Option.some.inj h).symm⟩

theorem Fetches.syncFrom {x : ℤ} {messages : List IMessage} {answered : Bool}
    (h : Fetches request toTimestamp x messages answered) (db : LocalChatDB) :
    ∃ fuel, syncFrom rooms decryptMessageSymmetric request toTimestamp fuel x db
      = some (db ++ messages.filterMap (decryptedRecord rooms decryptMessageSymmetric)) := by
  induction h generalizing db with
  | failed h => exact ⟨0, by rw [syncFrom_of_none h, List.filterMap_nil, List.append_nil]⟩
  | last h hpage => exact ⟨0, by rw [syncFrom_of_some h, if_neg hpage]⟩
  | more h hpage _ ih =>
      obtain ⟨fuel, hfuel⟩ := ih (db ++ List.filterMap _ _)
      refine ⟨fuel + 1, ?_⟩
      rw [syncFrom_of_some h, if_pos hpage]
      exact hfuel.trans (by rw [List.filterMap_append, List.append_assoc])

/-- What a sync returns, and that it does. -/
theorem sync_eq_some {db db' : LocalChatDB} :
    (∃ fuel, syncMessagesForAllRooms rooms decryptMessageSymmetric request fuel toTimestamp db
      = some db') ↔
    ∃ messages answered, Fetches request toTimestamp (startTimestamp toTimestamp db) messages
      answered ∧ db' = db ++ messages.filterMap (decryptedRecord rooms decryptMessageSymmetric) := by
  constructor
  · rintro ⟨fuel, h⟩
    exact Fetches.of_syncFrom h
  · rintro ⟨messages, answered, h, rfl⟩
    exact h.syncFrom db

end Loop

/-! ## The server's pages -/

section Pages

variable {sort : List IMessage → List IMessage} {limit : ℕ} {server : Db} {toTimestamp x y : ℤ}

/-- How many messages of the range from `x` have an epoch below `y`. -/
def epochsBelow (messages : List IMessage) (toTimestamp x y : ℤ) : ℕ :=
  below IMessage.epoch y (Message.inTimeRange messages x toTimestamp)

theorem getTimeRangeChatHistory_of_not (h : ¬ Answered x toTimestamp) :
    getTimeRangeChatHistory sort limit server x toTimestamp = none := by
  obtain ⟨e, he⟩ := run_timeRangeChatHistory_throws sort limit server h
  rw [getTimeRangeChatHistory, he]

theorem getTimeRangeChatHistory_of_answered (sort : List IMessage → List IMessage) (limit : ℕ)
    (server : Db) (h : Answered x toTimestamp) :
    ∃ data, getTimeRangeChatHistory sort limit server x toTimestamp = some data ∧
      data.messages = Message.page sort limit server.messages x toTimestamp ∧
      data.limit = limit ∧ data.returnedToTimestamp =
        (data.messages.getLast?.map (·.epoch)).getD toTimestamp := by
  rw [getTimeRangeChatHistory, run_timeRangeChatHistory h]
  exact ⟨_, rfl, rfl, rfl, rfl⟩

theorem epochsBelow_mono (messages : List IMessage) {y y' : ℤ} (h : y ≤ y') :
    epochsBelow messages toTimestamp x y ≤ epochsBelow messages toTimestamp x y' :=
  below_mono h _

/-- A later range has fewer messages. -/
theorem epochsBelow_anti (messages : List IMessage) {x x' : ℤ} (h : x ≤ x') (y : ℤ) :
    epochsBelow messages toTimestamp x' y ≤ epochsBelow messages toTimestamp x y := by
  refine List.Sublist.countP_le (List.monotone_filter_right _ fun m hm => ?_)
  simp only [decide_eq_true_eq] at hm ⊢
  exact ⟨h.trans hm.1, hm.2⟩

theorem upTo_eq_epochsBelow (messages : List IMessage) (y : ℤ) :
    upTo IMessage.epoch y (Message.inTimeRange messages x toTimestamp)
      = epochsBelow messages toTimestamp x (y + 1) :=
  List.countP_congr fun m _ => by simp only [decide_eq_true_eq, Int.lt_add_one_iff]

theorem page_full (hsort : SortsBy IMessage.epoch sort) (messages : List IMessage) :
    (Message.page sort limit messages x toTimestamp).length = limit ↔
      limit ≤ (Message.inTimeRange messages x toTimestamp).length := by
  rw [Message.page, List.length_take, (hsort.perm _).length_eq, min_eq_left_iff]

/-- After a full page the next request asks from the least `y` with `limit` epochs below it. -/
theorem next_cursor (hsort : SortsBy IMessage.epoch sort) (hlimit : 0 < limit)
    (messages : List IMessage)
    (hfull : limit ≤ (Message.inTimeRange messages x toTimestamp).length) :
    ∃ m ∈ messages, (Message.page sort limit messages x toTimestamp).getLast? = some m ∧
      epochsBelow messages toTimestamp x m.epoch < limit ∧
      limit ≤ epochsBelow messages toTimestamp x (m.epoch + 1) := by
  have hlength : (Message.page sort limit messages x toTimestamp).length = limit :=
    (page_full hsort messages).mpr hfull
  have hne : Message.page sort limit messages x toTimestamp ≠ [] := by
    intro hnil
    rw [hnil] at hlength
    exact hlimit.ne hlength
  have hlast := List.getLast?_eq_some_getLast hne
  have hmem := List.mem_of_mem_take (List.getLast_mem hne)
  refine ⟨_, (List.mem_filter.mp ((hsort.perm _).mem_iff.mp hmem)).1, hlast, ?_⟩
  obtain ⟨hlt, hle⟩ := below_getLast (hsort.sorted _)
    (hfull.trans (hsort.perm _).length_eq.ge) hlast
  rw [hsort.below_eq] at hlt
  rw [hsort.upTo_eq, upTo_eq_epochsBelow] at hle
  exact ⟨hlt, hle⟩

/-- What an answer says. -/
theorem of_getTimeRangeChatHistory (hsort : SortsBy IMessage.epoch sort) (hlimit : 0 < limit)
    {data : ITimeRangeMessages}
    (h : getTimeRangeChatHistory sort limit server x toTimestamp = some data) :
    Answered x toTimestamp ∧
    data.messages = Message.page sort limit server.messages x toTimestamp ∧
    (data.messages.length = data.limit ↔
      limit ≤ (Message.inTimeRange server.messages x toTimestamp).length) ∧
    (data.messages.length = data.limit → ∃ m ∈ server.messages,
      data.returnedToTimestamp = m.epoch ∧
        epochsBelow server.messages toTimestamp x m.epoch < limit ∧
        limit ≤ epochsBelow server.messages toTimestamp x (m.epoch + 1)) := by
  have hanswered : Answered x toTimestamp := by
    by_contra hno
    rw [getTimeRangeChatHistory_of_not hno] at h
    cases h
  obtain ⟨data', h', hpage, hdata, hreturned⟩ :=
    getTimeRangeChatHistory_of_answered sort limit server hanswered
  obtain rfl := Option.some.inj (h'.symm.trans h)
  have hfull : data'.messages.length = data'.limit ↔
      limit ≤ (Message.inTimeRange server.messages x toTimestamp).length := by
    rw [hdata, hpage, page_full hsort]
  refine ⟨hanswered, hpage, hfull, fun hlength => ?_⟩
  obtain ⟨m, hm, hlast, hbelow⟩ := next_cursor hsort hlimit server.messages (hfull.mp hlength)
  exact ⟨m, hm, by rw [hreturned, hpage, hlast, Option.map_some, Option.getD_some], hbelow⟩

/-! ## Termination -/

/-- The sync is in its range, and at some time of it a whole page of messages has epochs before
    that time and timestamps from it on. -/
def Stuck (limit : ℕ) (messages : List IMessage) (fromTimestamp toTimestamp : ℤ) : Prop :=
  Answered fromTimestamp toTimestamp ∧
    ∃ x, fromTimestamp ≤ x ∧ limit ≤ epochsBelow messages toTimestamp x x

/-- From below such a time the next request asks from below it again. -/
theorem next_le_of_stuck {z : ℤ} (hz : limit ≤ epochsBelow server.messages toTimestamp z z)
    (hxz : x ≤ z) {e : ℤ} (hlt : epochsBelow server.messages toTimestamp x e < limit) :
    e + 1 ≤ z := by
  by_contra hgt
  refine absurd (hz.trans ((epochsBelow_anti _ hxz z).trans ?_)) hlt.not_ge
  exact epochsBelow_mono _ (by omega)

/-- There the sync does not end with a page that is not full. -/
theorem Fetches.failed_of_stuck (hsort : SortsBy IMessage.epoch sort) (hlimit : 0 < limit) {z : ℤ}
    (hz : limit ≤ epochsBelow server.messages toTimestamp z z) {messages : List IMessage}
    {answered : Bool}
    (h : Fetches (getTimeRangeChatHistory sort limit server) toTimestamp x messages answered)
    (hxz : x ≤ z) : answered = false := by
  induction h with
  | failed _ => rfl
  | last h hpage =>
      obtain ⟨-, -, hfull, -⟩ := of_getTimeRangeChatHistory hsort hlimit h
      exact absurd (hfull.mpr (hz.trans ((epochsBelow_anti _ hxz _).trans List.countP_le_length)))
        hpage
  | more h hpage _ ih =>
      obtain ⟨-, -, -, hnext⟩ := of_getTimeRangeChatHistory hsort hlimit h
      obtain ⟨m, -, hreturned, hlt, -⟩ := hnext hpage
      exact ih (hreturned ▸ next_le_of_stuck hz hxz hlt)

/-- Nor does a request fail there. -/
theorem Fetches.answered_of_stuck (hsort : SortsBy IMessage.epoch sort) (hlimit : 0 < limit)
    (hepoch : ∀ m ∈ server.messages, (Js.newDate m.epoch).isSome)
    (hto : |toTimestamp| ≤ 8640000000000000) {z : ℤ}
    (hz : limit ≤ epochsBelow server.messages toTimestamp z z) {messages : List IMessage}
    {answered : Bool}
    (h : Fetches (getTimeRangeChatHistory sort limit server) toTimestamp x messages answered)
    (hxz : x ≤ z) (hx : -8640000000000000 ≤ x) : answered = true := by
  have hzto : z < toTimestamp := by
    obtain ⟨m, hm, -⟩ := List.countP_pos_iff.mp (hlimit.trans_le hz)
    have := of_decide_eq_true (List.mem_filter.mp hm).2
    omega
  induction h with
  | failed h =>
      have hanswered : Answered _ toTimestamp :=
        ⟨abs_le.mpr ⟨hx, hxz.trans (hzto.le.trans (abs_le.mp hto).2)⟩, hto, hxz.trans_lt hzto⟩
      obtain ⟨data, hdata, -⟩ := getTimeRangeChatHistory_of_answered sort limit server hanswered
      rw [h] at hdata
      cases hdata
  | last _ _ => rfl
  | more h hpage _ ih =>
      obtain ⟨-, -, -, hnext⟩ := of_getTimeRangeChatHistory hsort hlimit h
      obtain ⟨m, hm, hreturned, hlt, -⟩ := hnext hpage
      obtain ⟨t, ht⟩ := Option.isSome_iff_exists.mp (hepoch m hm)
      obtain ⟨habs, rfl⟩ := Js.newDate_eq_some.mp ht
      rw [hreturned] at ih
      exact ih (next_le_of_stuck hz hxz hlt) (by linarith [(abs_le.mp habs).1])

/-- Where there is no such time, every page moves the sync on. -/
theorem exists_fetches (hsort : SortsBy IMessage.epoch sort) (hlimit : 0 < limit) (x : ℤ)
    (hfree : ∀ z, x ≤ z → epochsBelow server.messages toTimestamp z z < limit) :
    ∃ messages answered,
      Fetches (getTimeRangeChatHistory sort limit server) toTimestamp x messages answered := by
  induction hn : (toTimestamp - x).toNat using Nat.strong_induction_on generalizing x with
  | _ n ih =>
  cases hreq : getTimeRangeChatHistory sort limit server x toTimestamp with
  | none => exact ⟨_, _, .failed hreq⟩
  | some data =>
      by_cases hpage : data.messages.length = data.limit
      · obtain ⟨hanswered, -, -, hnext⟩ := of_getTimeRangeChatHistory hsort hlimit hreq
        obtain ⟨m, -, hreturned, -, hle⟩ := hnext hpage
        have hlt : x < m.epoch + 1 := by
          by_contra hge
          exact absurd (hle.trans (epochsBelow_mono _ (not_lt.mp hge))) (hfree x le_rfl).not_ge
        have hless : (toTimestamp - (m.epoch + 1)).toNat < n := by
          have hrange := hanswered.2.2
          clear hnext
          omega
        obtain ⟨messages, answered, hrest⟩ := ih _ hless (m.epoch + 1)
          (fun z hz => hfree z (hlt.le.trans hz)) rfl
        exact ⟨_, _, .more hreq hpage (hreturned ▸ hrest)⟩
      · exact ⟨_, _, .last hreq hpage⟩

end Pages

section

variable {rooms : Rooms} {decryptMessageSymmetric : String → String → Option String}
  {sort : List IMessage → List IMessage} {limit : ℕ} {server : Db} {toTimestamp : ℤ}
  {db : LocalChatDB}

/-- A history sync against the server returns exactly when it does not get stuck. -/
theorem sync_returns_iff (hsort : SortsBy IMessage.epoch sort) (hlimit : 0 < limit)
    (hepoch : ∀ m ∈ server.messages, (Js.newDate m.epoch).isSome) :
    (∃ fuel db', syncMessagesForAllRooms rooms decryptMessageSymmetric
      (getTimeRangeChatHistory sort limit server) fuel toTimestamp db = some db') ↔
    ¬ Stuck limit server.messages (startTimestamp toTimestamp db) toTimestamp := by
  rw [exists_comm]
  simp only [sync_eq_some]
  constructor
  · rintro ⟨db', messages, answered, hfetches, -⟩ ⟨⟨hfrom, hto, -⟩, z, hz, hcount⟩
    have hfalse := hfetches.failed_of_stuck hsort hlimit hcount hz
    have htrue := hfetches.answered_of_stuck hsort hlimit hepoch hto hcount hz (abs_le.mp hfrom).1
    exact absurd (htrue.symm.trans hfalse) (by decide)
  · intro hfree
    by_cases hanswered : Answered (startTimestamp toTimestamp db) toTimestamp
    · obtain ⟨messages, answered, hfetches⟩ := exists_fetches hsort hlimit
        (startTimestamp toTimestamp db)
        (fun z hz => not_le.mp fun hle => hfree ⟨hanswered, z, hz, hle⟩)
      exact ⟨_, messages, answered, hfetches, rfl⟩
    · exact ⟨_, _, _, .failed (getTimeRangeChatHistory_of_not hanswered), rfl⟩

end

/-! ## One epoch with more messages than a page -/

/-- Messages of the epoch `0`, accepted five seconds into it. -/
def epochMessages (n : ℕ) : List IMessage :=
  (List.range n).map fun i : ℕ =>
    { uuid := Js.bigIntToString (i : ℤ), epoch := 0, chat_type := "PUBLIC", message_content := "m",
      timestamp := 5000, sender := "s" }

theorem mem_epochMessages {n : ℕ} {m : IMessage} (h : m ∈ epochMessages n) :
    m.epoch = 0 ∧ m.timestamp = 5000 := by
  obtain ⟨i, -, rfl⟩ := List.mem_map.mp h
  exact ⟨rfl, rfl⟩

theorem nodup_epochMessages (n : ℕ) : ((epochMessages n).map (·.uuid)).Nodup := by
  rw [epochMessages, List.map_map]
  refine List.nodup_range.map fun i j hij => ?_
  have := congrArg Js.stringToBigInt hij
  simpa only [Function.comp_apply, Js.stringToBigInt_bigIntToString, Option.some.injEq,
    Nat.cast_inj] using this

theorem epochsBelow_epochMessages (n : ℕ) : epochsBelow (epochMessages n) 10000 1 1 = n := by
  have hrange : Message.inTimeRange (epochMessages n) 1 10000 = epochMessages n := by
    refine List.filter_eq_self.mpr fun m hm => ?_
    rw [(mem_epochMessages hm).2]
    rfl
  rw [epochsBelow, hrange, below, List.countP_eq_length.mpr, epochMessages, List.length_map,
    List.length_range]
  intro m hm
  rw [(mem_epochMessages hm).1]
  rfl

/-- A page full of messages of one epoch is asked for again and again. -/
theorem sync_of_full_epoch_never_returns :
    ¬ ∀ (rooms : Rooms) (decryptMessageSymmetric : String → String → Option String)
      (sort : List IMessage → List IMessage) (server : Db) (toTimestamp : ℤ) (db : LocalChatDB),
      SortsBy IMessage.epoch sort → (server.messages.map (·.uuid)).Nodup →
      (∀ m ∈ server.messages, verifyEpoch m.timestamp
        (some (.str (Js.bigIntToString m.epoch))) 20 = .ok true) →
      ∃ fuel db', syncMessagesForAllRooms rooms decryptMessageSymmetric
        (getTimeRangeChatHistory sort ChatService.MESSAGE_COUNT_LIMIT server) fuel toTimestamp db
          = some db' := by
  intro h
  have hlimit : 0 < ChatService.MESSAGE_COUNT_LIMIT := by decide
  generalize ChatService.MESSAGE_COUNT_LIMIT = limit at h hlimit
  have hsort := sortsBy_mergeSort IMessage.epoch
  have haccepted : ∀ m ∈ epochMessages limit, verifyEpoch m.timestamp
      (some (.str (Js.bigIntToString m.epoch))) 20 = .ok true := by
    intro m hm
    rw [(mem_epochMessages hm).1, (mem_epochMessages hm).2]
    decide +kernel
  have hepoch : ∀ m ∈ epochMessages limit, (Js.newDate m.epoch).isSome := by
    intro m hm
    rw [(mem_epochMessages hm).1]
    decide
  obtain ⟨fuel, db', hsync⟩ := h ⟨[], [], []⟩ (fun _ _ => none) _
    { messages := epochMessages limit } 10000 [] hsort (nodup_epochMessages limit) haccepted
  obtain ⟨messages, answered, hfetches, -⟩ := sync_eq_some.mp ⟨fuel, hsync⟩
  have hstart : startTimestamp 10000 [] = 0 := by decide
  rw [hstart] at hfetches
  have hstuck := (epochsBelow_epochMessages limit).ge
  have hfalse := hfetches.failed_of_stuck hsort hlimit hstuck (by decide)
  have htrue := hfetches.answered_of_stuck hsort hlimit hepoch (by decide) hstuck (by decide)
    (by decide)
  exact absurd (htrue.symm.trans hfalse) (by decide)

/-- Two pages of one message each, whose epochs are their timestamps. -/
theorem sync_of_two_pages_returns :
    ∃ fuel db', syncMessagesForAllRooms ⟨[⟨"r", "k"⟩], [], []⟩ (fun content _ => some content)
      (getTimeRangeChatHistory (fun l => l.mergeSort fun a b => a.epoch ≤ b.epoch) 1
        { messages := [⟨"a", 0, "PUBLIC", "m", 0, "s"⟩, ⟨"b", 10000, "PUBLIC", "m", 10000, "s"⟩] })
      fuel 20000 [] = some db' := by
  refine (sync_returns_iff (sortsBy_mergeSort IMessage.epoch) Nat.one_pos (by decide)).mpr ?_
  rintro ⟨-, x, -, hx⟩
  obtain ⟨m, hm, hlt⟩ := List.countP_pos_iff.mp hx
  obtain ⟨hmem, hrange⟩ := List.mem_filter.mp hm
  have hepoch : m.epoch = m.timestamp := by
    rcases List.mem_cons.mp hmem with rfl | hmem
    · rfl
    · rw [List.mem_singleton.mp hmem]
  have := of_decide_eq_true hlt
  have := (of_decide_eq_true hrange).1
  omega

end ZkChat
