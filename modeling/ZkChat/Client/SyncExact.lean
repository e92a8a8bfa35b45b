import ZkChat.Client.HistorySync
import Mathlib.Data.Finset.Max

set_option autoImplicit false

/-! # Whether a history sync is exact

A request selects messages by timestamp, the page is cut by epoch, and the next request starts
after the epoch of the cut. A message of the range is therefore saved once only if the last request
whose range contains it returns it and no earlier one does. Which messages a request returns for
certain, and which it leaves out for certain, is a matter of counting epochs (`Delivered`), and
the sync is exact for every order of ties exactly when these counts are right
(`sync_exact_iff`). -/

namespace ZkChat

open ChatManager Ranking

/-! ## The statement -/

/-- Every request of a sync from `x` is answered. -/
def AllAnswered (request : ℤ → ℤ → Option ITimeRangeMessages) (toTimestamp x : ℤ) : Prop :=
  ∃ messages, Fetches request toTimestamp x messages true

/-- The largest local timestamp plus one, or the start of the day before `toTimestamp`. -/
def documentedStart (toTimestamp : ℤ) (db : LocalChatDB) : ℤ :=
  if db = [] then toTimestamp - 24 * 60 * 60 * 1000 else db.getMaxTimestampForAllMessages + 1

/-- The local database has gained one record for each message of the range from `x` on that
    decrypts, and no other. -/
def Gained (rooms : Rooms) (decryptMessageSymmetric : String → String → Option String)
    (server : Db) (x toTimestamp : ℤ) (db db' : LocalChatDB) : Prop :=
  ∃ gained, db' = db ++ gained ∧ gained.Perm
    ((Message.inTimeRange server.messages x toTimestamp).filterMap
      (decryptedRecord rooms decryptMessageSymmetric))

/-- The times from which a sync asks that is answered throughout: the next one is the least with
    `limit` epochs below it, as long as there are as many messages. -/
inductive Cursors (limit : ℕ) (messages : List IMessage) (toTimestamp : ℤ) : ℤ → List ℤ → Prop
  | last {x : ℤ} (h : Answered x toTimestamp)
      (hfew : (Message.inTimeRange messages x toTimestamp).length < limit) :
      Cursors limit messages toTimestamp x [x]
  | more {x y : ℤ} {cursors : List ℤ} (h : Answered x toTimestamp)
      (hfull : limit ≤ epochsBelow messages toTimestamp x y)
      (hleast : epochsBelow messages toTimestamp x (y - 1) < limit)
      (rest : Cursors limit messages toTimestamp y cursors) :
      Cursors limit messages toTimestamp x (x :: cursors)

/-- The requests from these times deliver the message `m` once if its timestamp is `start` or
    later, and not at all if it is earlier, whatever the order of ties. -/
structure Delivered (limit : ℕ) (messages : List IMessage) (start toTimestamp : ℤ)
    (cursors : List ℤ) (m : IMessage) : Prop where
  /-- Some request asks for it. -/
  asked : start ≤ m.timestamp → m.timestamp < toTimestamp → ∃ x ∈ cursors, x ≤ m.timestamp
  /-- The last request that asks for it has room for all messages up to its epoch. -/
  once : start ≤ m.timestamp → m.timestamp < toTimestamp → ∀ x ∈ cursors, x ≤ m.timestamp →
    (∀ y ∈ cursors, y ≤ m.timestamp → y ≤ x) →
      epochsBelow messages toTimestamp x (m.epoch + 1) ≤ limit
  /-- Any other request that asks for it is filled by messages of smaller epochs. -/
  never : m.timestamp < toTimestamp → ∀ x ∈ cursors, x ≤ m.timestamp →
    (m.timestamp < start ∨ ∃ y ∈ cursors, x < y ∧ y ≤ m.timestamp) →
      limit ≤ epochsBelow messages toTimestamp x m.epoch

/-! ## Pages -/

section Pages

variable {sort : List IMessage → List IMessage} {limit : ℕ} {messages : List IMessage}
  {server : Db} {toTimestamp x : ℤ} {cursors : List ℤ} {m : IMessage}

/-- What the requests from these times return. -/
def pages (sort : List IMessage → List IMessage) (limit : ℕ) (messages : List IMessage)
    (toTimestamp : ℤ) (cursors : List ℤ) : List IMessage :=
  cursors.flatMap fun x => Message.page sort limit messages x toTimestamp

theorem Fetches.unique {request : ℤ → ℤ → Option ITimeRangeMessages} {a b : List IMessage}
    {answered answered' : Bool} (h : Fetches request toTimestamp x a answered)
    (h' : Fetches request toTimestamp x b answered') : a = b ∧ answered = answered' := by
  induction h generalizing b answered' with
  | failed h =>
      cases h' with
      | failed _ => exact ⟨rfl, rfl⟩
      | last h' _ => rw [h] at h'; cases h'
      | more h' _ _ => rw [h] at h'; cases h'
  | last h hpage =>
      cases h' with
      | failed h' => rw [h] at h'; cases h'
      | last h' _ =>
          obtain rfl := Option.some.inj (h.symm.trans h')
          exact ⟨rfl, rfl⟩
      | more h' hpage' _ =>
          obtain rfl := Option.some.inj (h.symm.trans h')
          exact absurd hpage' hpage
  | more h hpage _ ih =>
      cases h' with
      | failed h' => rw [h] at h'; cases h'
      | last h' hpage' =>
          obtain rfl := Option.some.inj (h.symm.trans h')
          exact absurd hpage hpage'
      | more h' _ hrest =>
          obtain rfl := Option.some.inj (h.symm.trans h')
          obtain ⟨rfl, rfl⟩ := ih hrest
          exact ⟨rfl, rfl⟩

/-- A sync that is answered throughout receives the pages from its cursors. -/
theorem Fetches.exists_cursors (hsort : SortsBy IMessage.epoch sort) (hlimit : 0 < limit)
    {fetched : List IMessage} {answered : Bool}
    (h : Fetches (getTimeRangeChatHistory sort limit server) toTimestamp x fetched answered)
    (hanswered : answered = true) :
    ∃ cursors, Cursors limit server.messages toTimestamp x cursors ∧
      fetched = pages sort limit server.messages toTimestamp cursors := by
  induction h with
  | failed _ => cases hanswered
  | last h hpage =>
      obtain ⟨hx, hdata, hfull, -⟩ := of_getTimeRangeChatHistory hsort hlimit h
      refine ⟨_, .last hx (not_le.mp fun hle => hpage (hfull.mpr hle)), ?_⟩
      rw [hdata, pages, List.flatMap_singleton]
  | more h hpage _ ih =>
      obtain ⟨hx, hdata, -, hnext⟩ := of_getTimeRangeChatHistory hsort hlimit h
      obtain ⟨e, -, hreturned, hlt, hle⟩ := hnext hpage
      obtain ⟨cursors, hcursors, rfl⟩ := ih hanswered
      refine ⟨_, .more hx (hreturned ▸ hle) ?_ hcursors, ?_⟩
      · rwa [hreturned, Int.add_sub_cancel]
      · rw [hdata, pages, pages, List.flatMap_cons]

/-- The cursors are those of a sync. -/
theorem Cursors.fetches (hsort : SortsBy IMessage.epoch sort) (hlimit : 0 < limit)
    (h : Cursors limit server.messages toTimestamp x cursors) :
    Fetches (getTimeRangeChatHistory sort limit server) toTimestamp x
      (pages sort limit server.messages toTimestamp cursors) true := by
  induction h with
  | last h hfew =>
      obtain ⟨data, hdata, hpage, -⟩ := getTimeRangeChatHistory_of_answered sort limit server h
      obtain ⟨-, -, hfull, -⟩ := of_getTimeRangeChatHistory hsort hlimit hdata
      rw [pages, List.flatMap_singleton, ← hpage]
      exact .last hdata fun hlength => absurd (hfull.mp hlength) hfew.not_ge
  | @more x y cursors h hfull hleast _ ih =>
      obtain ⟨data, hdata, hpage, -⟩ := getTimeRangeChatHistory_of_answered sort limit server h
      obtain ⟨-, -, hlength, hnext⟩ := of_getTimeRangeChatHistory hsort hlimit hdata
      have hlength := hlength.mpr (hfull.trans List.countP_le_length)
      obtain ⟨e, -, hreturned, hlt, hle⟩ := hnext hlength
      have hy : data.returnedToTimestamp + 1 = y := by
        rw [hreturned]
        refine le_antisymm (not_lt.mp fun hlt' => ?_) (not_lt.mp fun hlt' => ?_)
        · exact absurd (hfull.trans (epochsBelow_mono _ (by omega))) hlt.not_ge
        · exact absurd (hle.trans (epochsBelow_mono _ (by omega))) hleast.not_ge
      rw [pages, List.flatMap_cons, ← hpage]
      exact .more hdata hlength (hy ▸ ih)

/-- Each request asks from a later time than the one before it. -/
theorem Cursors.pairwise (hlimit : 0 < limit)
    (h : Cursors limit server.messages toTimestamp x cursors) :
    (∀ y ∈ cursors, x ≤ y ∧ Answered y toTimestamp) ∧ cursors.Pairwise (· < ·) := by
  induction h with
  | last h _ => exact ⟨by simpa using h, List.pairwise_singleton ..⟩
  | @more x y cursors h hfull _ hrest ih =>
      obtain ⟨hle, hpairwise⟩ := ih
      have hxy : x < y := by
        by_contra hge
        have hstuck : limit ≤ epochsBelow server.messages toTimestamp x x :=
          hfull.trans (epochsBelow_mono _ (not_lt.mp hge))
        have hsort := sortsBy_mergeSort IMessage.epoch
        have := (hrest.fetches hsort hlimit).failed_of_stuck hsort hlimit hstuck (not_lt.mp hge)
        cases this
      refine ⟨fun z hz => ?_, List.pairwise_cons.mpr ⟨fun z hz => ?_, hpairwise⟩⟩
      · rcases List.mem_cons.mp hz with rfl | hz
        · exact ⟨le_rfl, h⟩
        · exact ⟨hxy.le.trans (hle z hz).1, (hle z hz).2⟩
      · exact hxy.trans_le (hle z hz).1

theorem of_mem_page (hsort : SortsBy IMessage.epoch sort)
    (h : m ∈ Message.page sort limit messages x toTimestamp) :
    m ∈ messages ∧ x ≤ m.timestamp ∧ m.timestamp < toTimestamp := by
  have hrange := (hsort.perm _).mem_iff.mp (List.mem_of_mem_take h)
  exact mem_inTimeRange.mp hrange

/-! ## Counting what is saved -/

theorem nodup_inTimeRange (hnodup : messages.Nodup) (x toTimestamp : ℤ) :
    (Message.inTimeRange messages x toTimestamp).Nodup :=
  hnodup.filter _

/-- A message is received once for every request that returns it. -/
theorem count_pages (hsort : SortsBy IMessage.epoch sort) (hnodup : messages.Nodup)
    (cursors : List ℤ) (m : IMessage) :
    (pages sort limit messages toTimestamp cursors).count m
      = cursors.countP fun x => m ∈ Message.page sort limit messages x toTimestamp := by
  induction cursors with
  | nil => rfl
  | cons x cursors ih =>
      have hpage : (Message.page sort limit messages x toTimestamp).Nodup :=
        ((hsort.perm _).nodup_iff.mpr (nodup_inTimeRange hnodup _ _)).sublist (List.take_sublist ..)
      rw [pages, List.flatMap_cons, List.count_append, hpage.count, List.countP_cons, ← ih,
        Nat.add_comm, pages]
      simp only [decide_eq_true_eq]

theorem count_inTimeRange (hnodup : messages.Nodup) (hm : m ∈ messages) :
    (Message.inTimeRange messages x toTimestamp).count m
      = if x ≤ m.timestamp ∧ m.timestamp < toTimestamp then 1 else 0 := by
  rw [(nodup_inTimeRange hnodup x toTimestamp).count]
  simp only [mem_inTimeRange, hm, true_and]

variable {rooms : Rooms} {decryptMessageSymmetric : String → String → Option String}

theorem uuid_of_decryptedRecord {r : IZkMessage}
    (h : decryptedRecord rooms decryptMessageSymmetric m = some r) : r.uuid = m.uuid := by
  obtain ⟨⟨shown, room_id⟩, hshown, rfl⟩ := Option.map_eq_some_iff.mp h
  exact decryptMessage_uuid hshown

/-- Different messages have different records. -/
theorem count_decryptedRecord (huuid : (messages.map (·.uuid)).Nodup) {l : List IMessage}
    (hl : ∀ a ∈ l, a ∈ messages) (hm : m ∈ messages) {r : IZkMessage}
    (hr : decryptedRecord rooms decryptMessageSymmetric m = some r) :
    (l.filterMap (decryptedRecord rooms decryptMessageSymmetric)).count r = l.count m := by
  rw [List.count_filterMap, List.count]
  refine List.countP_congr fun a ha => ?_
  simp only [beq_iff_eq]
  constructor
  · intro h
    exact List.inj_on_of_nodup_map huuid (hl a ha) hm
      ((uuid_of_decryptedRecord h).symm.trans (uuid_of_decryptedRecord hr))
  · rintro rfl
    exact hr

/-- The records of two lists of messages are the same when the messages that decrypt are. -/
theorem perm_filterMap_iff (rooms : Rooms)
    (decryptMessageSymmetric : String → String → Option String)
    (huuid : (messages.map (·.uuid)).Nodup) {a b : List IMessage}
    (ha : ∀ m ∈ a, m ∈ messages) (hb : ∀ m ∈ b, m ∈ messages) :
    (a.filterMap (decryptedRecord rooms decryptMessageSymmetric)).Perm
      (b.filterMap (decryptedRecord rooms decryptMessageSymmetric)) ↔
    ∀ m ∈ messages, (decryptedRecord rooms decryptMessageSymmetric m).isSome →
      a.count m = b.count m := by
  rw [List.perm_iff_count]
  constructor
  · intro h m hm hsome
    obtain ⟨r, hr⟩ := Option.isSome_iff_exists.mp hsome
    rw [← count_decryptedRecord huuid ha hm hr, h r, count_decryptedRecord huuid hb hm hr]
  · intro h r
    by_cases hex : ∃ m ∈ messages, decryptedRecord rooms decryptMessageSymmetric m = some r
    · obtain ⟨m, hm, hr⟩ := hex
      rw [count_decryptedRecord huuid ha hm hr, count_decryptedRecord huuid hb hm hr]
      exact h m hm (Option.isSome_iff_exists.mpr ⟨r, hr⟩)
    · have hnone : ∀ l : List IMessage, (∀ m ∈ l, m ∈ messages) →
          (l.filterMap (decryptedRecord rooms decryptMessageSymmetric)).count r = 0 := by
        intro l hl
        refine List.count_eq_zero.mpr fun hr => ?_
        obtain ⟨m, hm, hmr⟩ := List.mem_filterMap.mp hr
        exact hex ⟨m, hl m hm, hmr⟩
      rw [hnone a ha, hnone b hb]

/-! ## Which requests return a message -/

/-- The last request from a time up to `t`. -/
theorem exists_last_cursor {t : ℤ} (h : ∃ x ∈ cursors, x ≤ t) :
    ∃ x ∈ cursors, x ≤ t ∧ ∀ y ∈ cursors, y ≤ t → y ≤ x := by
  obtain ⟨z, hz, hzt⟩ := h
  have hne : ((cursors.filter (· ≤ t)).toFinset).Nonempty :=
    ⟨z, List.mem_toFinset.mpr (List.mem_filter.mpr ⟨hz, decide_eq_true hzt⟩)⟩
  obtain ⟨x, hx, hmax⟩ := Finset.exists_max_image _ id hne
  obtain ⟨hxc, hxt⟩ := List.mem_filter.mp (List.mem_toFinset.mp hx)
  refine ⟨x, hxc, of_decide_eq_true hxt, fun y hy hyt => ?_⟩
  exact hmax y (List.mem_toFinset.mpr (List.mem_filter.mpr ⟨hy, decide_eq_true hyt⟩))

/-- Under the condition a message is returned once or not at all. -/
theorem Delivered.countP {start : ℤ} (h : Delivered limit messages start toTimestamp cursors m)
    (hsort : SortsBy IMessage.epoch sort) (hcursors : cursors.Pairwise (· < ·))
    (hm : m ∈ messages) :
    (cursors.countP fun x => m ∈ Message.page sort limit messages x toTimestamp)
      = if start ≤ m.timestamp ∧ m.timestamp < toTimestamp then 1 else 0 := by
  split
  · next hwanted =>
      obtain ⟨hstart, hend⟩ := hwanted
      obtain ⟨z, hz, hzm, hmax⟩ := exists_last_cursor (h.asked hstart hend)
      have hiff : ∀ x ∈ cursors, (m ∈ Message.page sort limit messages x toTimestamp) ↔ x = z := by
        intro x hx
        constructor
        · intro hpage
          obtain ⟨-, hxm, -⟩ := of_mem_page hsort hpage
          by_contra hne
          refine absurd hpage (hsort.not_mem_take_sort (h.never hend x hx hxm (Or.inr
            ⟨z, hz, lt_of_le_of_ne (hmax x hx hxm) hne, hzm⟩)))
        · rintro rfl
          refine hsort.mem_take_sort (mem_inTimeRange.mpr ⟨hm, hzm, hend⟩) ?_
          rw [upTo_eq_epochsBelow]
          exact h.once hstart hend x hz hzm hmax
      have hnodup : cursors.Nodup := hcursors.imp ne_of_lt
      rw [List.countP_congr (q := fun x => x == z) (fun x hx => by simpa using hiff x hx)]
      exact List.count_eq_one_of_mem hnodup hz
  · next hnot =>
      refine List.countP_eq_zero.mpr fun x hx hpage => ?_
      have hpage := of_decide_eq_true hpage
      obtain ⟨-, hxm, hend⟩ := of_mem_page hsort hpage
      have hearly : m.timestamp < start := not_le.mp fun hle => hnot ⟨hle, hend⟩
      exact hsort.not_mem_take_sort (h.never hend x hx hxm (Or.inl hearly)) hpage

/-- The condition is needed: with other counts some order of the ties loses the message or returns
    it once too often. -/
theorem delivered_of_countP {start : ℤ} (hnodup : messages.Nodup) (hm : m ∈ messages)
    (h : ∀ sort, SortsBy IMessage.epoch sort →
      (cursors.countP fun x => m ∈ Message.page sort limit messages x toTimestamp)
        = if start ≤ m.timestamp ∧ m.timestamp < toTimestamp then 1 else 0) :
    Delivered limit messages start toTimestamp cursors m := by
  refine ⟨fun hstart hend => ?_, fun hstart hend x hx hxm hmax => ?_,
    fun hend x hx hxm hagain => ?_⟩
  · have hsort := sortsBy_mergeSort IMessage.epoch
    have hcount := h _ hsort
    rw [if_pos ⟨hstart, hend⟩] at hcount
    obtain ⟨x, hx, hpage⟩ := List.countP_pos_iff.mp (hcount.symm ▸ Nat.one_pos)
    exact ⟨x, hx, (of_mem_page hsort (of_decide_eq_true hpage)).2.1⟩
  · -- with `m` last among its ties neither this request nor an earlier one returns it
    by_contra hgt
    obtain ⟨sort, hsort, hlast⟩ := exists_sort_last IMessage.epoch m
    have hcount := h sort hsort
    rw [if_pos ⟨hstart, hend⟩] at hcount
    obtain ⟨w, hw, hpage⟩ := List.countP_pos_iff.mp (hcount.symm ▸ Nat.one_pos)
    have hpage := of_decide_eq_true hpage
    have hwx : w ≤ x := hmax w hw (of_mem_page hsort hpage).2.1
    refine hlast _ limit (nodup_inTimeRange hnodup _ _) ?_ hpage
    rw [upTo_eq_epochsBelow]
    exact (not_le.mp hgt).trans_le (epochsBelow_anti _ hwx _)
  · -- with `m` first among its ties this request and every later one that asks for it return it
    by_contra hlt
    obtain ⟨sort, hsort, hfirst⟩ := exists_sort_first IMessage.epoch m
    have hcount := h sort hsort
    have hreturns : ∀ w ∈ cursors, x ≤ w → w ≤ m.timestamp →
        m ∈ Message.page sort limit messages w toTimestamp := by
      intro w _ hxw hwm
      refine hfirst _ limit (mem_inTimeRange.mpr ⟨hm, hwm, hend⟩) ?_
      exact (epochsBelow_anti _ hxw _).trans_lt (not_le.mp hlt)
    have hpos : 0 < cursors.countP fun x => m ∈ Message.page sort limit messages x toTimestamp :=
      List.countP_pos_iff.mpr ⟨x, hx, decide_eq_true (hreturns x hx le_rfl hxm)⟩
    rcases hagain with hearly | ⟨y, hy, hxy, hym⟩
    · rw [hcount, if_neg (fun hwanted => hearly.not_ge hwanted.1)] at hpos
      exact absurd hpos (Nat.lt_irrefl 0)
    · have htwo : [x, y].length ≤ (cursors.filter fun x =>
          m ∈ Message.page sort limit messages x toTimestamp).length := by
        refine (List.Nodup.subperm (by simpa using hxy.ne) fun w hw => ?_).length_le
        rcases List.mem_cons.mp hw with rfl | hw
        · exact List.mem_filter.mpr ⟨hx, decide_eq_true (hreturns w hx le_rfl hxm)⟩
        · rw [List.mem_singleton.mp hw]
          exact List.mem_filter.mpr ⟨hy, decide_eq_true (hreturns y hy hxy.le hym)⟩
      rw [← List.countP_eq_length_filter, hcount] at htwo
      split at htwo
      · exact absurd htwo (by simp)
      · exact absurd htwo (by simp)

end Pages

/-! ## The sync -/

section

variable {rooms : Rooms} {decryptMessageSymmetric : String → String → Option String}
  {limit : ℕ} {server : Db} {toTimestamp : ℤ} {db : LocalChatDB}

/-- Whatever the order of ties, a sync that is answered throughout is exact, if and only if its
    requests deliver every message that decrypts once or not at all, as its timestamp says. -/
theorem sync_exact_iff (hlimit : 0 < limit) (huuid : (server.messages.map (·.uuid)).Nodup) :
    (∀ sort, SortsBy IMessage.epoch sort → ∀ fuel db',
      syncMessagesForAllRooms rooms decryptMessageSymmetric
        (getTimeRangeChatHistory sort limit server) fuel toTimestamp db = some db' →
      AllAnswered (getTimeRangeChatHistory sort limit server) toTimestamp
        (startTimestamp toTimestamp db) →
      Gained rooms decryptMessageSymmetric server (documentedStart toTimestamp db) toTimestamp
        db db') ↔
    ∀ cursors, Cursors limit server.messages toTimestamp (startTimestamp toTimestamp db) cursors →
      ∀ m ∈ server.messages, (decryptedRecord rooms decryptMessageSymmetric m).isSome →
        Delivered limit server.messages (documentedStart toTimestamp db) toTimestamp cursors m := by
  have hnodup : server.messages.Nodup := .of_map _ huuid
  -- exactness with one order of ties, by counts
  have hgained : ∀ {sort : List IMessage → List IMessage} {cursors : List ℤ},
      SortsBy IMessage.epoch sort →
      (Gained rooms decryptMessageSymmetric server (documentedStart toTimestamp db) toTimestamp db
        (db ++ (pages sort limit server.messages toTimestamp cursors).filterMap
          (decryptedRecord rooms decryptMessageSymmetric)) ↔
      ∀ m ∈ server.messages, (decryptedRecord rooms decryptMessageSymmetric m).isSome →
        (cursors.countP fun x => m ∈ Message.page sort limit server.messages x toTimestamp)
          = if documentedStart toTimestamp db ≤ m.timestamp ∧ m.timestamp < toTimestamp
            then 1 else 0) := by
    intro sort cursors hsort
    have hpages : ∀ m ∈ pages sort limit server.messages toTimestamp cursors,
        m ∈ server.messages := by
      intro m hm
      obtain ⟨x, -, hpage⟩ := List.mem_flatMap.mp hm
      exact (of_mem_page hsort hpage).1
    have hrange : ∀ m ∈ Message.inTimeRange server.messages (documentedStart toTimestamp db)
        toTimestamp, m ∈ server.messages := fun m hm => (mem_inTimeRange.mp hm).1
    have hperm := perm_filterMap_iff rooms decryptMessageSymmetric huuid hpages hrange
    constructor
    · rintro ⟨gained, heq, hgained⟩ m hm hsome
      obtain rfl := List.append_cancel_left heq
      rw [← count_pages hsort hnodup, hperm.mp hgained m hm hsome, count_inTimeRange hnodup hm]
    · intro h
      refine ⟨_, rfl, hperm.mpr fun m hm hsome => ?_⟩
      rw [count_pages hsort hnodup, h m hm hsome, count_inTimeRange hnodup hm]
  constructor
  · intro h cursors hcursors m hm hsome
    refine delivered_of_countP hnodup hm fun sort hsort => ?_
    have hfetches := hcursors.fetches hsort hlimit
    obtain ⟨fuel, hsync⟩ := sync_eq_some.mpr ⟨_, _, hfetches, rfl⟩
    exact (hgained hsort).mp (h sort hsort fuel _ hsync ⟨_, hfetches⟩) m hm hsome
  · intro h sort hsort fuel db' hsync hanswered
    obtain ⟨fetched, answered, hfetches, rfl⟩ := sync_eq_some.mp ⟨fuel, hsync⟩
    obtain ⟨fetched', hfetches'⟩ := hanswered
    obtain ⟨rfl, rfl⟩ := hfetches.unique hfetches'
    obtain ⟨cursors, hcursors, rfl⟩ := hfetches.exists_cursors hsort hlimit rfl
    refine (hgained hsort).mpr fun m hm hsome => ?_
    exact (h cursors hcursors m hm hsome).countP hsort (hcursors.pairwise hlimit).2 hm

end

/-! ## Examples -/

/-- A message of the epoch that begins when it arrives. -/
def promptMessage (uuid : String) (timestamp : ℤ) : IMessage :=
  { uuid, epoch := timestamp, chat_type := "PUBLIC", message_content := "m", timestamp,
    sender := "s" }

def oneRoom : Rooms := ⟨[⟨"r", "k"⟩], [], []⟩

/-- A client without messages asks from the time 0, and keeps a message that is older than the
    documented day. -/
theorem sync_of_new_client_takes_all :
    ¬ ∀ (rooms : Rooms) (decryptMessageSymmetric : String → String → Option String)
      (sort : List IMessage → List IMessage) (server : Db) (toTimestamp : ℤ)
      (db db' : LocalChatDB) (fuel : ℕ),
      SortsBy IMessage.epoch sort → (server.messages.map (·.uuid)).Nodup →
      (∀ m ∈ server.messages, verifyEpoch m.timestamp
        (some (.str (Js.bigIntToString m.epoch))) 20 = .ok true) →
      syncMessagesForAllRooms rooms decryptMessageSymmetric
        (getTimeRangeChatHistory sort ChatService.MESSAGE_COUNT_LIMIT server) fuel toTimestamp db
          = some db' →
      AllAnswered (getTimeRangeChatHistory sort ChatService.MESSAGE_COUNT_LIMIT server)
        toTimestamp (startTimestamp toTimestamp db) →
      Gained rooms decryptMessageSymmetric server (documentedStart toTimestamp db) toTimestamp
        db db' := by
  intro h
  obtain ⟨sort, hsort⟩ : ∃ sort, SortsBy IMessage.epoch sort := ⟨_, sortsBy_mergeSort _⟩
  set server : Db := { messages := [promptMessage "a" 0] }
  have hcursors : Cursors ChatService.MESSAGE_COUNT_LIMIT server.messages 172800000 0 [0] :=
    .last ⟨by decide, by decide, by decide⟩ (by decide)
  have hfetches : Fetches (getTimeRangeChatHistory sort ChatService.MESSAGE_COUNT_LIMIT server)
      172800000 (startTimestamp 172800000 [])
      (pages sort ChatService.MESSAGE_COUNT_LIMIT server.messages 172800000 [0]) true :=
    hcursors.fetches hsort (by decide)
  obtain ⟨fuel, hsync⟩ : ∃ fuel, syncMessagesForAllRooms oneRoom (fun content _ => some content)
      _ fuel 172800000 [] = some _ := sync_eq_some.mpr ⟨_, _, hfetches, rfl⟩
  obtain ⟨gained, heq, hperm⟩ := h _ _ _ server _ _ _ _ hsort (by decide) (by decide +kernel) hsync
    ⟨_, hfetches⟩
  have hnone : Message.inTimeRange server.messages (documentedStart 172800000 []) 172800000 = [] :=
    by decide
  rw [hnone] at hperm
  obtain rfl := hperm.eq_nil
  have hpage : promptMessage "a" 0 ∈
      pages sort ChatService.MESSAGE_COUNT_LIMIT server.messages 172800000 [0] := by
    rw [pages, List.flatMap_singleton]
    exact hsort.mem_take_sort (by decide) (by decide)
  rw [List.nil_append, List.append_nil] at heq
  exact absurd (List.filterMap_eq_nil_iff.mp heq _ hpage) (by decide)

/-- Three epochs, one message each. -/
def threeMessages : List IMessage :=
  [promptMessage "a" 0, promptMessage "b" 10000, promptMessage "c" 20000]

/-- In pages of two, the second request asks from the millisecond after the second message. -/
theorem cursors_threeMessages {cursors : List ℤ}
    (h : Cursors 2 threeMessages 86400000 0 cursors) : cursors = [0, 10001] := by
  cases h with
  | last _ hfew => exact absurd hfew (by decide)
  | @more _ y _ _ hfull hleast hrest =>
      obtain rfl : y = 10001 := by
        refine le_antisymm (not_lt.mp fun hlt => ?_) (not_lt.mp fun hlt => ?_)
        · have : epochsBelow threeMessages 86400000 0 10001 < 2 :=
            (epochsBelow_mono _ (by omega)).trans_lt hleast
          exact absurd this (by decide)
        · have : 2 ≤ epochsBelow threeMessages 86400000 0 10000 :=
            hfull.trans (epochsBelow_mono _ (by omega))
          exact absurd this (by decide)
      cases hrest with
      | last _ _ => rfl
      | more _ hfull' _ _ => exact absurd (hfull'.trans List.countP_le_length) (by decide)

/-- A client without messages gains the three messages of its first day in two pages. -/
theorem sync_of_three_messages_is_exact :
    ∃ fuel db', syncMessagesForAllRooms oneRoom (fun content _ => some content)
      (getTimeRangeChatHistory (fun l => l.mergeSort fun a b => a.epoch ≤ b.epoch) 2
        { messages := threeMessages }) fuel 86400000 [] = some db' ∧
      Gained oneRoom (fun content _ => some content) { messages := threeMessages }
        (documentedStart 86400000 []) 86400000 [] db' := by
  have hsort := sortsBy_mergeSort IMessage.epoch
  have hcursors : Cursors 2 threeMessages 86400000 (startTimestamp 86400000 []) [0, 10001] :=
    .more ⟨by decide, by decide, by decide⟩ (y := 10001) (by decide) (by decide)
      (.last ⟨by decide, by decide, by decide⟩ (by decide))
  have hfetches : Fetches (getTimeRangeChatHistory _ 2 { messages := threeMessages }) 86400000 _ _
      true := Cursors.fetches hsort Nat.two_pos hcursors
  obtain ⟨fuel, hsync⟩ := sync_eq_some.mpr ⟨_, _, hfetches, rfl⟩
  refine ⟨fuel, _, hsync, (sync_exact_iff Nat.two_pos (by decide)).mpr ?_ _ hsort fuel _ hsync
    ⟨_, hfetches⟩⟩
  intro cursors hcs m hm _
  rw [cursors_threeMessages hcs]
  simp only [threeMessages, List.mem_cons, List.not_mem_nil, or_false] at hm
  rcases hm with rfl | rfl | rfl
  all_goals exact ⟨by decide, by decide, by decide⟩

end ZkChat
