import ZkChat.Lib.Ranking
import ZkChat.Server.Db

set_option autoImplicit false

/-! # The message history of a time range

`getMessagesInTimeRange` selects by `timestamp`, sorts by `epoch`, and reports the epochs of the
first and the last message of the page as the range it returned. MongoDB leaves the order of
messages with one epoch open, so the sorting is a parameter. -/

namespace ZkChat

/-! ## Dates -/

/-- `new Date(ms)`, by its time; an invalid date has none. -/
def Js.newDate (ms : ℤ) : Option ℤ := if |ms| ≤ 8640000000000000 then some ms else none

/-- `a >= b` of two dates: the time of an invalid one is `NaN`. -/
def Js.dateGe : Option ℤ → Option ℤ → Bool
  | some a, some b => b ≤ a
  | _, _ => false

theorem Js.newDate_eq_some {ms t : ℤ} : Js.newDate ms = some t ↔ |ms| ≤ 8640000000000000 ∧ ms = t :=
  by rw [newDate, Option.ite_none_right_eq_some, Option.some.injEq]

/-! ## The query -/

structure ITimeRangeMessages where
  requestedFromTimestamp : ℤ
  requestedToTimestamp : ℤ
  returnedFromTimestamp : ℤ
  returnedToTimestamp : ℤ
  messages : List IMessage
  limit : ℕ

section

variable (sort : List IMessage → List IMessage)

namespace Message

/-- `{ timestamp: { $gte: from, $lt: to } }`. -/
def inTimeRange (messages : List IMessage) (fromTime toTime : ℤ) : List IMessage :=
  messages.filter fun m => fromTime ≤ m.timestamp ∧ m.timestamp < toTime

/-- The answer, with a positive limit. The time of an invalid date cannot be cast. -/
def getMessagesInTimeRange (limit : ℕ) : Option ℤ → Option ℤ → Server ITimeRangeMessages
  | some fromTime, some toTime => .query fun db =>
      let foundMessagesOrdered := (sort (inTimeRange db.messages fromTime toTime)).take limit
      { requestedFromTimestamp := fromTime
        requestedToTimestamp := toTime
        returnedFromTimestamp := (foundMessagesOrdered.head?.map (·.epoch)).getD fromTime
        returnedToTimestamp := (foundMessagesOrdered.getLast?.map (·.epoch)).getD toTime
        messages := foundMessagesOrdered
        limit }
  | _, _ => throw .castError

end Message

namespace ChatService

def MESSAGE_COUNT_LIMIT : ℕ := 1000

/-- `limit` is the static `MESSAGE_COUNT_LIMIT`. -/
def getMessagesInTimeRange (limit : ℕ) (fromDate toDate : Option ℤ) : Server ITimeRangeMessages :=
  if Js.dateGe fromDate toDate then throw (.error "Please select valid date range")
  else Message.getMessagesInTimeRange sort limit fromDate toDate

end ChatService

/-- The handler of `POST /time_range_chat_history`; an exception is answered with status 500. -/
def timeRangeChatHistory (limit : ℕ) (fromTimestamp toTimestamp : ℤ) : Server ITimeRangeMessages :=
  ChatService.getMessagesInTimeRange sort limit (Js.newDate fromTimestamp) (Js.newDate toTimestamp)

end

/-! ## What is answered -/

section

variable {sort : List IMessage → List IMessage} {limit : ℕ} {fromTimestamp toTimestamp : ℤ}
  {db : Db}

theorem mem_inTimeRange {messages : List IMessage} {m : IMessage} {fromTime toTime : ℤ} :
    m ∈ Message.inTimeRange messages fromTime toTime ↔
      m ∈ messages ∧ fromTime ≤ m.timestamp ∧ m.timestamp < toTime := by
  rw [Message.inTimeRange, List.mem_filter, decide_eq_true_eq]

/-- The page of the messages in a range. -/
def Message.page (sort : List IMessage → List IMessage) (limit : ℕ) (messages : List IMessage)
    (fromTimestamp toTimestamp : ℤ) : List IMessage :=
  (sort (inTimeRange messages fromTimestamp toTimestamp)).take limit

/-- A request is answered when its dates are valid and its range is not empty. -/
def Answered (fromTimestamp toTimestamp : ℤ) : Prop :=
  |fromTimestamp| ≤ 8640000000000000 ∧ |toTimestamp| ≤ 8640000000000000 ∧
    fromTimestamp < toTimestamp

theorem run_timeRangeChatHistory (h : Answered fromTimestamp toTimestamp) :
    (timeRangeChatHistory sort limit fromTimestamp toTimestamp).run db = (.ok
      { requestedFromTimestamp := fromTimestamp
        requestedToTimestamp := toTimestamp
        returnedFromTimestamp := ((Message.page sort limit db.messages fromTimestamp
          toTimestamp).head?.map (·.epoch)).getD fromTimestamp
        returnedToTimestamp := ((Message.page sort limit db.messages fromTimestamp
          toTimestamp).getLast?.map (·.epoch)).getD toTimestamp
        messages := Message.page sort limit db.messages fromTimestamp toTimestamp
        limit }, db) := by
  unfold timeRangeChatHistory ChatService.getMessagesInTimeRange
  rw [Js.newDate_eq_some.mpr ⟨h.1, rfl⟩, Js.newDate_eq_some.mpr ⟨h.2.1, rfl⟩,
    if_neg (by simpa [Js.dateGe] using h.2.2)]
  rfl

theorem run_timeRangeChatHistory_throws (sort : List IMessage → List IMessage) (limit : ℕ) (db : Db)
    (h : ¬ Answered fromTimestamp toTimestamp) :
    ∃ e, (timeRangeChatHistory sort limit fromTimestamp toTimestamp).run db = (.error e, db) := by
  unfold timeRangeChatHistory ChatService.getMessagesInTimeRange
  split
  · exact ⟨_, rfl⟩
  · next hge =>
      cases hfrom : Js.newDate fromTimestamp with
      | none => exact ⟨_, rfl⟩
      | some f =>
          cases hto : Js.newDate toTimestamp with
          | none => exact ⟨_, rfl⟩
          | some t =>
              obtain ⟨hf, rfl⟩ := Js.newDate_eq_some.mp hfrom
              obtain ⟨ht, rfl⟩ := Js.newDate_eq_some.mp hto
              rw [hfrom, hto] at hge
              exact absurd ⟨hf, ht, by simpa [Js.dateGe] using hge⟩ h

end

end ZkChat
