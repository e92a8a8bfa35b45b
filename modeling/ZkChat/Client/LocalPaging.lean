import ZkChat.Client.ChatManager
import ZkChat.Lib.Paging

set_option autoImplicit false

/-! # Scrolling back through the local history

`getMessagesForRoom` returns the newest messages of a room before a time, a page at a time, and the
next call asks from the oldest message of the page. The calls come to an end (`exists_pageBack`).
They load everything exactly when no page ends among messages with one timestamp and all dates are
valid (`historyLoaded_iff`). -/

namespace ZkChat

open Ranking Paging

/-- `a < b` of two dates: the time of an invalid one is `NaN`. -/
def Js.dateLt : Option ℤ → Option ℤ → Bool
  | some a, some b => a < b
  | _, _ => false

theorem Js.dateLt_newDate {a b : ℤ} : Js.dateLt (Js.newDate a) (Js.newDate b) ↔
    (Js.newDate a).isSome ∧ (Js.newDate b).isSome ∧ a < b := by
  unfold Js.newDate
  split <;> split <;> simp [Js.dateLt]

namespace LocalChatDB

/-! ## The source -/

def MAX_NUMBER_OF_MESSAGES_TO_FETCH_FROM_DB : ℕ := 100

/-- What is returned of a record. -/
def message (m : IZkMessage) : IMessage :=
  { uuid := m.uuid, epoch := m.epoch, chat_type := m.chat_type,
    message_content := m.message_content, timestamp := m.timestamp, sender := m.sender }

/-- `orderBy('timestamp').reverse()`. The index orders equal timestamps by the primary key, which
    is the order in which they were stored. -/
def newestFirst (db : LocalChatDB) : LocalChatDB :=
  (db.mergeSort fun a b => a.timestamp ≤ b.timestamp).reverse

/-- The records that pass the filter of `getMessagesForRoom`. -/
def visible (db : LocalChatDB) (roomId : String) (fromTimestamp : ℤ) : LocalChatDB :=
  db.newestFirst.filter fun m =>
    m.roomId = roomId ∧ Js.dateLt (Js.newDate m.timestamp) (Js.newDate fromTimestamp)

def getMessagesForRoom (db : LocalChatDB) (roomId : String) (fromTimestamp : ℤ) : List IMessage :=
  ((db.visible roomId fromTimestamp).take MAX_NUMBER_OF_MESSAGES_TO_FETCH_FROM_DB).map message

/-- One call after another, each from the smallest timestamp of the page before, until a page is
    empty; `none` when `fuel` calls did not get there. -/
def pageBack (db : LocalChatDB) (roomId : String) : ℕ → ℤ → Option (List IMessage)
  | 0, _ => none
  | fuel + 1, fromTimestamp =>
      let page := db.getMessagesForRoom roomId fromTimestamp
      match (page.map (·.timestamp)).min? with
      | none => some []
      | some oldest => (pageBack db roomId fuel oldest).map (page ++ ·)

/-! ## What should be loaded -/

/-- The records of a room before a time. -/
def older (db : LocalChatDB) (roomId : String) (t : ℤ) : LocalChatDB :=
  db.filter fun m => m.roomId = roomId ∧ m.timestamp < t

def newerThan (t : ℤ) (db : LocalChatDB) : ℕ := db.countP fun m => t < m.timestamp

def notOlderThan (t : ℤ) (db : LocalChatDB) : ℕ := db.countP fun m => t ≤ m.timestamp

/-- The calls end, and have returned the messages of the room before the time, each once and newest
    first. -/
def HistoryLoaded (db : LocalChatDB) (roomId : String) (t : ℤ) : Prop :=
  ∃ fuel messages, db.pageBack roomId fuel t = some messages ∧
    messages.Perm ((db.older roomId t).map message) ∧
    messages.Pairwise fun a b => b.timestamp ≤ a.timestamp

/-! ## Pages -/

variable {db : LocalChatDB} {roomId : String} {t : ℤ}

/-- The order of the pages. -/
def age (m : IZkMessage) : ℤᵒᵈ := OrderDual.toDual m.timestamp

theorem perm_newestFirst (db : LocalChatDB) : db.newestFirst.Perm db :=
  (List.reverse_perm _).trans (List.mergeSort_perm _ _)

theorem mem_visible {m : IZkMessage} : m ∈ db.visible roomId t ↔
    m ∈ db ∧ m.roomId = roomId ∧ (Js.newDate m.timestamp).isSome ∧ (Js.newDate t).isSome ∧
      m.timestamp < t := by
  rw [visible, List.mem_filter, (perm_newestFirst db).mem_iff, decide_eq_true_eq, Js.dateLt_newDate]

theorem sorted_visible (db : LocalChatDB) (roomId : String) (t : ℤ) :
    (db.visible roomId t).Pairwise fun a b => age a ≤ age b := by
  refine List.Pairwise.filter _ (List.pairwise_reverse.mpr ?_)
  exact (sortsBy_mergeSort IZkMessage.timestamp).sorted db

/-- The call from the smallest timestamp of a page asks for what lies beyond the page. -/
theorem visible_oldest {page : List IZkMessage} (hpage : ∀ m ∈ page, m ∈ db.visible roomId t)
    {oldest : ℤ} (hmin : (page.map (·.timestamp)).min? = some oldest) :
    db.visible roomId oldest = beyond age page (db.visible roomId t) := by
  obtain ⟨hmem, hle⟩ := List.min?_eq_some_iff.mp hmin
  obtain ⟨m₀, hm₀, rfl⟩ := List.mem_map.mp hmem
  obtain ⟨-, -, hvalid, ht, hlt⟩ := mem_visible.mp (hpage m₀ hm₀)
  rw [visible, beyond, visible, List.filter_filter]
  refine List.filter_congr fun m _ => ?_
  rw [Bool.eq_iff_iff, Bool.and_eq_true, decide_eq_true_eq, decide_eq_true_eq, decide_eq_true_eq,
    Js.dateLt_newDate, Js.dateLt_newDate]
  have hbeyond : (∀ b ∈ page, age b < age m) ↔ m.timestamp < m₀.timestamp := by
    refine ⟨fun h => h m₀ hm₀, fun h b hb => ?_⟩
    show m.timestamp < b.timestamp
    exact h.trans_le (hle b.timestamp (List.mem_map_of_mem hb))
  rw [hbeyond]
  constructor
  · rintro ⟨hroom, hm, -, hm₀⟩
    exact ⟨hm₀, hroom, hm, ht, hm₀.trans hlt⟩
  · rintro ⟨hm₀, hroom, hm, -, -⟩
    exact ⟨hroom, hm, hvalid, hm₀⟩

/-- The calls are the pages of the visible records. -/
theorem pageBack_eq (fuel : ℕ) (t : ℤ) : db.pageBack roomId fuel t
    = (pages MAX_NUMBER_OF_MESSAGES_TO_FETCH_FROM_DB age fuel (db.visible roomId t)).map
        (·.map message) := by
  induction fuel generalizing t with
  | zero => rfl
  | succ fuel ih =>
      set page := (db.visible roomId t).take MAX_NUMBER_OF_MESSAGES_TO_FETCH_FROM_DB with hpage
      have htimes : ((db.getMessagesForRoom roomId t).map (·.timestamp))
          = page.map (·.timestamp) := by
        rw [getMessagesForRoom, ← hpage, List.map_map]
        rfl
      rw [pageBack, htimes]
      cases hmin : (page.map (·.timestamp)).min? with
      | none =>
          have hnil : page = [] := by simpa using hmin
          rw [pages_succ_of_nil hnil]
          rfl
      | some oldest =>
          have hne : page ≠ [] := by
            rintro hnil
            rw [hnil] at hmin
            cases hmin
          have hmem : ∀ m ∈ page, m ∈ db.visible roomId t := fun m => List.mem_of_mem_take
          show (db.pageBack roomId fuel oldest).map _ = _
          rw [pages_succ_of_ne hne, ih, visible_oldest hmem hmin, Option.map_map, Option.map_map]
          congr 1
          funext rows
          rw [Function.comp_apply, Function.comp_apply, List.map_append]
          rfl

/-- The calls come to an empty page. -/
theorem exists_pageBack (db : LocalChatDB) (roomId : String) (t : ℤ) :
    ∃ fuel messages, db.pageBack roomId fuel t = some messages := by
  obtain ⟨rows, hrows⟩ := exists_pages MAX_NUMBER_OF_MESSAGES_TO_FETCH_FROM_DB age _
    (db.visible roomId t) (Nat.lt_succ_self _)
  exact ⟨_, _, by rw [pageBack_eq, hrows, Option.map_some]⟩

theorem pairwise_pageBack {fuel : ℕ} {messages : List IMessage}
    (h : db.pageBack roomId fuel t = some messages) :
    messages.Pairwise fun a b => b.timestamp ≤ a.timestamp := by
  rw [pageBack_eq, Option.map_eq_some_iff] at h
  obtain ⟨rows, hrows, rfl⟩ := h
  exact List.pairwise_map.mpr ((sorted_visible db roomId t).sublist (pages_sublist hrows))

/-! ## Completeness -/

/-- The dates that the filter compares are valid. -/
def ValidDates (db : LocalChatDB) (roomId : String) (t : ℤ) : Prop :=
  ∀ m ∈ db.older roomId t, (Js.newDate m.timestamp).isSome ∧ (Js.newDate t).isSome

theorem visible_perm (db : LocalChatDB) (roomId : String) (t : ℤ) : (db.visible roomId t).Perm
    ((db.older roomId t).filter fun m =>
      (Js.newDate m.timestamp).isSome ∧ (Js.newDate t).isSome) := by
  refine ((perm_newestFirst db).filter _).trans (List.Perm.of_eq ?_)
  rw [older, List.filter_filter]
  refine List.filter_congr fun m _ => ?_
  rw [Bool.eq_iff_iff, Bool.and_eq_true, decide_eq_true_eq, decide_eq_true_eq, decide_eq_true_eq,
    Js.dateLt_newDate]
  tauto

theorem length_visible_le (db : LocalChatDB) (roomId : String) (t : ℤ) :
    (db.visible roomId t).length ≤ (db.older roomId t).length :=
  (visible_perm db roomId t).length_eq.trans_le (List.length_filter_le _ _)

theorem visible_perm_older_iff :
    (db.visible roomId t).Perm (db.older roomId t) ↔ ValidDates db roomId t := by
  constructor
  · intro h m hm
    obtain ⟨-, -, hvalid, ht, -⟩ := mem_visible.mp (h.mem_iff.mpr hm)
    exact ⟨hvalid, ht⟩
  · intro h
    refine (visible_perm db roomId t).trans (List.Perm.of_eq (List.filter_eq_self.mpr ?_))
    exact fun m hm => decide_eq_true (h m hm)

/-- In terms of timestamps: the end of a page falls among messages of one time. -/
def CutAt (db : LocalChatDB) (roomId : String) (t time : ℤ) (page : ℕ) : Prop :=
  newerThan time (db.older roomId t) < MAX_NUMBER_OF_MESSAGES_TO_FETCH_FROM_DB * page ∧
    MAX_NUMBER_OF_MESSAGES_TO_FETCH_FROM_DB * page < notOlderThan time (db.older roomId t)

theorem cut_visible_iff (h : ValidDates db roomId t) :
    Cut MAX_NUMBER_OF_MESSAGES_TO_FETCH_FROM_DB age (db.visible roomId t) ↔
      ∃ time page, CutAt db roomId t time page := by
  have hperm := visible_perm_older_iff.mpr h
  constructor
  · rintro ⟨c, page, hbelow, hupTo⟩
    rw [below, hperm.countP_eq] at hbelow
    rw [upTo, hperm.countP_eq] at hupTo
    exact ⟨OrderDual.ofDual c, page, hbelow, hupTo⟩
  · rintro ⟨time, page, hbelow, hupTo⟩
    refine ⟨OrderDual.toDual time, page, ?_, ?_⟩
    · rwa [below, hperm.countP_eq]
    · rwa [upTo, hperm.countP_eq]

/-- What the calls return is complete when nothing is invisible and no page cuts a time. -/
theorem pageBack_perm_iff {fuel : ℕ} {messages : List IMessage}
    (h : db.pageBack roomId fuel t = some messages) :
    messages.Perm ((db.older roomId t).map message) ↔
      ValidDates db roomId t ∧ ∀ time page, ¬ CutAt db roomId t time page := by
  rw [pageBack_eq, Option.map_eq_some_iff] at h
  obtain ⟨rows, hrows, rfl⟩ := h
  have hall := pages_eq_self_iff (by decide) (sorted_visible db roomId t) hrows
  have hsub := pages_sublist hrows
  constructor
  · intro hperm
    have hlength : rows.length = (db.older roomId t).length := by simpa using hperm.length_eq
    have hle := length_visible_le db roomId t
    have hrows : rows = db.visible roomId t :=
      hsub.eq_of_length_le (hle.trans hlength.ge)
    have hvisible : ((db.older roomId t).filter fun m =>
        (Js.newDate m.timestamp).isSome ∧ (Js.newDate t).isSome).length
        = (db.older roomId t).length := by
      rw [← (visible_perm db roomId t).length_eq, ← hrows, hlength]
    have hvalid : ValidDates db roomId t := fun m hm =>
      of_decide_eq_true (List.length_filter_eq_length_iff.mp hvisible m hm)
    refine ⟨hvalid, fun time page hcut => ?_⟩
    exact hall.mp hrows ((cut_visible_iff hvalid).mpr ⟨time, page, hcut⟩)
  · rintro ⟨hvalid, hcut⟩
    have hrows : rows = db.visible roomId t := by
      refine hall.mpr fun h => ?_
      obtain ⟨time, page, hat⟩ := (cut_visible_iff hvalid).mp h
      exact hcut time page hat
    rw [hrows]
    exact (visible_perm_older_iff.mpr hvalid).map message

/-- Scrolling back loads the whole history of a room exactly when the dates are valid and no
    multiple of the page size falls strictly between the number of messages newer than some time
    and the number of those that are not older. -/
theorem historyLoaded_iff (db : LocalChatDB) (roomId : String) (t : ℤ) :
    db.HistoryLoaded roomId t ↔
      (∀ m ∈ db.older roomId t, (Js.newDate m.timestamp).isSome ∧ (Js.newDate t).isSome) ∧
      ∀ (time : ℤ) (page : ℕ), ¬
        (newerThan time (db.older roomId t) < MAX_NUMBER_OF_MESSAGES_TO_FETCH_FROM_DB * page ∧
        MAX_NUMBER_OF_MESSAGES_TO_FETCH_FROM_DB * page
          < notOlderThan time (db.older roomId t)) := by
  constructor
  · rintro ⟨fuel, messages, hrun, hperm, -⟩
    exact (pageBack_perm_iff hrun).mp hperm
  · intro h
    obtain ⟨fuel, messages, hrun⟩ := exists_pageBack db roomId t
    exact ⟨fuel, messages, hrun, (pageBack_perm_iff hrun).mpr h, pairwise_pageBack hrun⟩

/-- `n` messages of one time. -/
def simultaneous (n : ℕ) : LocalChatDB :=
  (List.range n).map fun i : ℕ =>
    { uuid := Js.bigIntToString (i : ℤ), roomId := "r", epoch := 0, chat_type := "PUBLIC",
      message_content := "m", timestamp := 0, sender := "s" }

theorem mem_simultaneous {n : ℕ} {m : IZkMessage} (h : m ∈ simultaneous n) :
    m.roomId = "r" ∧ m.timestamp = 0 := by
  obtain ⟨i, -, rfl⟩ := List.mem_map.mp h
  exact ⟨rfl, rfl⟩

theorem older_simultaneous (n : ℕ) : (simultaneous n).older "r" 1 = simultaneous n := by
  refine List.filter_eq_self.mpr fun m hm => ?_
  obtain ⟨hroom, htime⟩ := mem_simultaneous hm
  rw [hroom, htime]
  rfl

/-- One message more than a page, all of one time: the last one is never returned. -/
theorem not_historyLoaded_simultaneous : ¬ (simultaneous 101).HistoryLoaded "r" 1 := by
  rintro ⟨fuel, messages, hrun, hperm, -⟩
  refine ((pageBack_perm_iff hrun).mp hperm).2 0 1 ?_
  have hnewer : newerThan 0 (simultaneous 101) = 0 :=
    List.countP_eq_zero.mpr fun m hm => by simp [(mem_simultaneous hm).2]
  have hnotOlder : notOlderThan 0 (simultaneous 101) = (simultaneous 101).length :=
    List.countP_eq_length.mpr fun m hm => by simp [(mem_simultaneous hm).2]
  have hlength : (simultaneous 101).length = 101 := by simp [simultaneous]
  rw [CutAt, older_simultaneous, hnewer, hnotOlder, hlength]
  decide

end LocalChatDB

end ZkChat
