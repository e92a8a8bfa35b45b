import ZkChat.App.ChatReducer
import ZkChat.Client.DeletedHistory
import ZkChat.Client.LocalPaging

set_option autoImplicit false

/-! # Older messages on the screen

`ChatMessagesWrapper` shows the messages of the room that is open, and loads older ones when the
list is scrolled to its top. It adds the listener for that to the list once, after its first render,
and what the listener uses is of that render. While older messages are loaded the list gives way to
a spinner, and the list that comes back has no listener. The component stays when another room is
opened. So from one opening to the next closing at most one page is loaded, always for the room that
was opened first (`one_load_per_opening`), and all a room shows beyond what it showed before and
what has arrived since is that page (`shown_while_open`). -/

namespace ZkChat

/-! ## The component -/

/-- An instance of the component. Its functions are those of the first render. -/
structure ChatMessagesWrapper where
  mount : ℕ
  roomId : String
  sortedHistory : List IMessage
  chatHistoryRef : List IMessage
  /-- The list that is on the screen has the listener. -/
  listening : Bool

/-- A `loadMessagesForRoom` that an instance has dispatched. -/
structure MessagesLoad where
  mount : ℕ
  roomId : String
  fromTimestamp : ℤ

/-- The part of the app that shows messages. -/
structure Screen where
  store : RoomsState := defaultState
  message_db : LocalChatDB := []
  /-- The route is `/dashboard`. -/
  dashboard : Bool := false
  wrapper : Option ChatMessagesWrapper := none
  /-- An exception while rendering has unmounted everything. -/
  failed : Bool := false
  /-- The room and the messages of the first render of each instance. -/
  mounts : List (String × List IMessage) := []
  loads : List MessagesLoad := []
  /-- The calls of `get_messages_for_room` that are under way, with what they have read. -/
  pending : List (MessagesLoad × Option (List IMessage)) := []

/-- `sort((a, b) => a.timestamp - b.timestamp)`. -/
def sortMessages (messages : List IMessage) : List IMessage :=
  messages.mergeSort fun a b => a.timestamp ≤ b.timestamp

/-- The list is sorted in place, and it is the one of the store. -/
def Messages.sortEntry (history : Messages) (id : String) : Messages :=
  match history.entry id with
  | some messages => history.define id (sortMessages messages)
  | none => history

namespace Screen

/-- The room's list, which belongs to the store, is sorted. -/
def sorted (s : Screen) (id : String) : Screen :=
  { s with store := { s.store with chatHistory := s.store.chatHistory.sortEntry id } }

/-- Another rendering of the instance. A list that the spinner replaces takes its listener along. -/
def rerendered (s : Screen) (w : ChatMessagesWrapper) : Screen :=
  { s with wrapper := some { w with listening := w.listening && !s.store.loading } }

/-- The first rendering of an instance, after which the listener is added, if there is a list. -/
def mounted (s : Screen) (id : String) : Screen :=
  let sortedHistory := (s.store.chatHistory.entry id).getD []
  { s with
    wrapper := some ⟨s.mounts.length, id, sortedHistory, sortedHistory, !s.store.loading⟩
    mounts := s.mounts ++ [(id, sortedHistory)] }

def renderRoom (s : Screen) (id : String) : Screen :=
  match s.store.chatHistory.read id with
  -- what is inherited has no `sort`
  | .inherited => { s with wrapper := none, failed := true }
  | _ =>
      match s.wrapper with
      | some w => (s.sorted id).rerendered w
      | none => (s.sorted id).mounted id

/-- What follows a change of the store or of the route. -/
def render (s : Screen) : Screen :=
  if s.failed then s
  else if s.store.chatHistorySyncing || !s.dashboard then { s with wrapper := none }
  else match s.store.currentActiveRoom with
    | none => { s with wrapper := none }
    | some room => s.renderRoom room.id

def dispatched (s : Screen) (a : Action) : Screen := { s with store := dispatch s.store a }.render

/-- `handleScroll` at the top of a list. -/
def handleScroll (s : Screen) : Screen :=
  match s.wrapper with
  | none => s
  | some w =>
      if w.listening then
        match w.chatHistoryRef with
        -- `lastMessage.timestamp` throws
        | [] => s
        | lastMessage :: _ =>
            let load : MessagesLoad := ⟨w.mount, w.roomId, lastMessage.timestamp⟩
            { s with loads := s.loads ++ [load], pending := s.pending ++ [(load, none)] }.dispatched
              (.loadMessagesForRoom w.roomId false .start)
      else s

/-- One action for the resolved promise: `success`, then `finish`. -/
def settle (store : RoomsState) (roomId : String) (payload : List IMessage) :
    Except Exn RoomsState := do
  let store ← ChatReducer store (.loadMessagesForRoom roomId false (.success payload))
  ChatReducer store (.loadMessagesForRoom roomId false .finish)

/-- The `onSuccess` of the instance that has dispatched the load. -/
def onSuccess (l : MessagesLoad) (payload : List IMessage) (w : ChatMessagesWrapper) :
    ChatMessagesWrapper :=
  if w.mount = l.mount then { w with chatHistoryRef := payload ++ w.sortedHistory } else w

def resolve (s : Screen) (k : ℕ) : Screen :=
  match s.pending[k]? with
  | some (l, some payload) =>
      let s := { s with pending := s.pending.eraseIdx k }
      match settle s.store l.roomId payload with
      | .error _ => s
      | .ok store =>
          let s := { s with store }.render
          { s with wrapper := s.wrapper.map (onSuccess l payload) }
  | _ => s

def reject (s : Screen) (k : ℕ) : Screen :=
  match s.pending[k]? with
  | some (l, _) =>
      { s with pending := s.pending.eraseIdx k }.dispatched
        (.loadMessagesForRoom l.roomId false .finish)
  | none => s

end Screen

/-- What happens on the page. -/
inductive ScreenEvent where
  /-- Any action of another component. -/
  | dispatch (a : Action)
  /-- `receiveMessageCallback`. -/
  | receive (message : IMessage) (roomId : String)
  /-- A message is put into the database, which nothing waits for. -/
  | save (m : IZkMessage)
  | deleteMessages (roomId : String)
  | navigate (dashboard : Bool)
  /-- A scroll event at the top of the list. -/
  | scroll
  /-- A call reads the database, and its promise is settled later. -/
  | read (k : ℕ)
  | resolve (k : ℕ)
  | reject (k : ℕ)

namespace Screen

def on (s : Screen) : ScreenEvent → Screen
  | .dispatch a => s.dispatched a
  | .receive message roomId => s.dispatched (.addMessageToRoom message roomId)
  | .save m => { s with message_db := s.message_db ++ [m] }
  | .deleteMessages roomId =>
      { s with message_db := s.message_db.deleteAllMessagesForRoom roomId }
  | .navigate dashboard => { s with dashboard }.render
  | .scroll => s.handleScroll
  | .read k =>
      { s with pending := s.pending.modify k fun p =>
          (p.1, p.2.or (some (s.message_db.getMessagesForRoom p.1.roomId p.1.fromTimestamp))) }
  | .resolve k => s.resolve k
  | .reject k => s.reject k

def after (s : Screen) (events : List ScreenEvent) : Screen := events.foldl on s

end Screen

/-! ## One load for each instance -/

theorem pairwise_sortMessages (messages : List IMessage) :
    (sortMessages messages).Pairwise fun a b => a.timestamp ≤ b.timestamp := by
  have hle : (sortMessages messages).Pairwise fun a b => decide (a.timestamp ≤ b.timestamp) := by
    refine List.pairwise_mergeSort ?_ ?_ messages
    · intro a b c hab hbc
      simp only [decide_eq_true_eq] at *
      omega
    · intro a b
      simp only [Bool.or_eq_true, decide_eq_true_eq]
      omega
  simpa using hle

theorem entry_sortEntry (history : Messages) (id id' : String) :
    (history.sortEntry id).entry id'
      = if id' = id then (history.entry id).map sortMessages else history.entry id' := by
  unfold Messages.sortEntry
  split
  · next messages hentry => rw [Messages.entry_define, hentry, Option.map_some]
  · next hentry =>
      by_cases h : id' = id
      · rw [h, if_pos rfl, hentry, Option.map_none]
      · rw [if_neg h]

namespace Screen

variable {s : Screen}

/-- What a rendering can do. -/
theorem render_cases (s : Screen) : (s.failed = true ∧ s.render = s) ∨
    (∃ failed, s.render = { s with wrapper := none, failed }) ∨
    (s.failed = false ∧ ∃ id, (∃ w, s.wrapper = some w ∧ s.render = (s.sorted id).rerendered w) ∨
      (s.wrapper = none ∧ s.render = (s.sorted id).mounted id)) := by
  unfold render
  split
  · next hfailed => exact .inl ⟨hfailed, rfl⟩
  next hfailed =>
  split
  · exact .inr (.inl ⟨s.failed, rfl⟩)
  split
  · exact .inr (.inl ⟨s.failed, rfl⟩)
  next room _ =>
  unfold renderRoom
  split
  · exact .inr (.inl ⟨true, rfl⟩)
  refine .inr (.inr ⟨by simpa using hfailed, room.id, ?_⟩)
  split
  · next w hw => exact .inl ⟨w, hw, rfl⟩
  · next hw => exact .inr ⟨hw, rfl⟩

/-- A rendering starts no load. -/
theorem render_frame : s.render.loads = s.loads ∧ s.render.pending = s.pending := by
  obtain ⟨-, h⟩ | ⟨failed, h⟩ | ⟨-, id, ⟨w, -, h⟩ | ⟨-, h⟩⟩ := s.render_cases <;> rw [h] <;>
    exact ⟨rfl, rfl⟩

/-- What holds before and after a rendering. -/
structure Opened (s : Screen) : Prop where
  failed : s.failed = true → s.wrapper = none
  mounted : ∀ w, s.wrapper = some w → s.mounts[w.mount]? = some (w.roomId, w.sortedHistory)
  sorted : ∀ mount ∈ s.mounts, mount.2.Pairwise fun a b => a.timestamp ≤ b.timestamp
  fresh : ∀ l ∈ s.loads, l.mount < s.mounts.length
  nodup : (s.loads.map MessagesLoad.mount).Nodup
  origin : ∀ l ∈ s.loads, ∃ oldest rest, s.mounts[l.mount]? = some (l.roomId, oldest :: rest) ∧
    l.fromTimestamp = oldest.timestamp
  pending : ∀ p ∈ s.pending, p.1 ∈ s.loads
  unloaded : ∀ w, s.wrapper = some w → w.listening = true → s.store.loading = false →
    w.chatHistoryRef = w.sortedHistory ∧ ∀ l ∈ s.loads, l.mount ≠ w.mount

/-- After a rendering no list has the listener while messages are loaded. -/
def Rendered (s : Screen) : Prop :=
  ∀ w, s.wrapper = some w → w.listening = true → s.store.loading = false

theorem opened_init : ({} : Screen).Opened :=
  ⟨fun _ => rfl, nofun, nofun, nofun, List.nodup_nil, nofun, nofun, nofun⟩

/-- What a room shows at its first render is sorted. -/
theorem pairwise_sorted_entry (history : Messages) (id : String) :
    (((history.sortEntry id).entry id).getD []).Pairwise fun a b => a.timestamp ≤ b.timestamp := by
  rw [entry_sortEntry, if_pos rfl]
  cases history.entry id with
  | none => exact List.Pairwise.nil
  | some messages => exact pairwise_sortMessages messages

theorem Opened.render (h : s.Opened) : s.render.Opened ∧ s.render.Rendered := by
  obtain ⟨hfailed, heq⟩ | ⟨failed, heq⟩ | ⟨hfailed, id, ⟨w, hw, heq⟩ | ⟨hw, heq⟩⟩ :=
    s.render_cases <;> rw [heq]
  · refine ⟨h, fun w hw => ?_⟩
    rw [h.failed hfailed] at hw
    cases hw
  · exact ⟨⟨fun _ => rfl, nofun, h.sorted, h.fresh, h.nodup, h.origin, h.pending, nofun⟩, nofun⟩
  · -- the instance stays, with or without its listener
    constructor
    · refine ⟨fun hf => absurd (hfailed.symm.trans hf) nofun, ?_, h.sorted, h.fresh, h.nodup,
        h.origin, h.pending, ?_⟩
      · rintro _ ⟨⟩
        exact h.mounted w hw
      · rintro _ ⟨⟩ hlistening hloading
        exact h.unloaded w hw (Bool.and_elim_left hlistening) hloading
    · rintro _ ⟨⟩ hlistening
      show s.store.loading = false
      simpa [Screen.sorted] using Bool.and_elim_right hlistening
  · constructor
    · refine ⟨fun hf => absurd (hfailed.symm.trans hf) nofun, ?_, ?_, ?_, h.nodup, ?_,
        h.pending, ?_⟩
      · rintro _ ⟨⟩
        exact List.getElem?_concat_length
      · intro mount hmount
        rcases List.mem_append.mp hmount with hmount | hmount
        · exact h.sorted mount hmount
        · rw [List.mem_singleton.mp hmount]
          exact pairwise_sorted_entry s.store.chatHistory id
      · intro l hl
        simpa [Screen.mounted, Screen.sorted] using Nat.lt_succ_of_lt (h.fresh l hl)
      · intro l hl
        obtain ⟨oldest, rest, hmount, hfrom⟩ := h.origin l hl
        refine ⟨oldest, rest, ?_, hfrom⟩
        exact (List.getElem?_append_left (h.fresh l hl)).trans hmount
      · rintro _ ⟨⟩ - -
        exact ⟨rfl, fun l hl => (h.fresh l hl).ne⟩
    · rintro _ ⟨⟩ hlistening
      show s.store.loading = false
      simpa [Screen.sorted] using hlistening

/-- The store may change between two renderings. -/
theorem Opened.withStore (h : s.Opened) (hr : s.Rendered) (store : RoomsState) :
    { s with store }.Opened :=
  ⟨h.failed, h.mounted, h.sorted, h.fresh, h.nodup, h.origin, h.pending,
    fun w hw hlistening _ => h.unloaded w hw hlistening (hr w hw hlistening)⟩

theorem Opened.withPending (h : s.Opened) {pending : List (MessagesLoad × Option (List IMessage))}
    (hsub : ∀ p ∈ pending, p.1 ∈ s.loads) : { s with pending }.Opened :=
  ⟨h.failed, h.mounted, h.sorted, h.fresh, h.nodup, h.origin, hsub, h.unloaded⟩

theorem Opened.withDb (h : s.Opened) (message_db : LocalChatDB) : { s with message_db }.Opened :=
  ⟨h.failed, h.mounted, h.sorted, h.fresh, h.nodup, h.origin, h.pending, h.unloaded⟩

theorem Opened.withRoute (h : s.Opened) (dashboard : Bool) : { s with dashboard }.Opened :=
  ⟨h.failed, h.mounted, h.sorted, h.fresh, h.nodup, h.origin, h.pending, h.unloaded⟩

/-- The listener is lost with the first load, before it can ask for another. -/
theorem Opened.handleScroll (h : s.Opened) (hr : s.Rendered) :
    s.handleScroll.Opened ∧ s.handleScroll.Rendered := by
  unfold Screen.handleScroll
  split
  · exact ⟨h, hr⟩
  next w hw =>
  split
  · next hlistening =>
      split
      · exact ⟨h, hr⟩
      next lastMessage rest hlast =>
      obtain ⟨hsame, hnone⟩ := h.unloaded w hw hlistening (hr w hw hlistening)
      have hmount := h.mounted w hw
      refine Opened.render ⟨h.failed, h.mounted, h.sorted, ?_, ?_, ?_, ?_, ?_⟩
      · intro l hl
        rcases List.mem_append.mp hl with hl | hl
        · exact h.fresh l hl
        · rw [List.mem_singleton.mp hl]
          exact (List.getElem?_eq_some_iff.mp hmount).1
      · rw [List.map_append]
        refine List.nodup_append.mpr ⟨h.nodup, List.nodup_singleton _, ?_⟩
        rintro mount hold mount' hnew rfl
        obtain ⟨l, hl, hmount'⟩ := List.mem_map.mp hold
        exact hnone l hl (hmount'.trans (List.mem_singleton.mp hnew))
      · intro l hl
        rcases List.mem_append.mp hl with hl | hl
        · exact h.origin l hl
        · rw [List.mem_singleton.mp hl]
          exact ⟨lastMessage, rest, hlast ▸ hsame ▸ hmount, rfl⟩
      · intro p hp
        rcases List.mem_append.mp hp with hp | hp
        · exact List.mem_append_left _ (h.pending p hp)
        · rw [List.mem_singleton.mp hp]
          simp
      · -- the load has begun
        exact fun _ _ _ hloading => absurd hloading (by simp [dispatch, ChatReducer, ZkChat.handle])
  · exact ⟨h, hr⟩

@[simp] theorem mount_onSuccess (l : MessagesLoad) (payload : List IMessage)
    (w : ChatMessagesWrapper) : (onSuccess l payload w).mount = w.mount := by
  unfold onSuccess
  split <;> rfl

theorem onSuccess_frame (l : MessagesLoad) (payload : List IMessage) (w : ChatMessagesWrapper) :
    (onSuccess l payload w).roomId = w.roomId ∧
      (onSuccess l payload w).sortedHistory = w.sortedHistory ∧
      (onSuccess l payload w).listening = w.listening := by
  unfold onSuccess
  split <;> exact ⟨rfl, rfl, rfl⟩

/-- The messages that are remembered for the next load are those of an instance that has had its
    load. -/
theorem Opened.success (h : s.Opened) (hr : s.Rendered) {l : MessagesLoad} (hl : l ∈ s.loads)
    (payload : List IMessage) :
    { s with wrapper := s.wrapper.map (onSuccess l payload) }.Opened ∧
      { s with wrapper := s.wrapper.map (onSuccess l payload) }.Rendered := by
  have hof : ∀ w', s.wrapper.map (onSuccess l payload) = some w' →
      ∃ w, s.wrapper = some w ∧ onSuccess l payload w = w' := fun w' => Option.map_eq_some_iff.mp
  refine ⟨⟨fun hf => by simp [h.failed hf], ?_, h.sorted, h.fresh, h.nodup, h.origin, h.pending,
    ?_⟩, ?_⟩
  · intro w' hw'
    obtain ⟨w, hw, rfl⟩ := hof w' hw'
    obtain ⟨hroom, hsorted, -⟩ := onSuccess_frame l payload w
    rw [mount_onSuccess, hroom, hsorted]
    exact h.mounted w hw
  · intro w' hw' hlistening hloading
    obtain ⟨w, hw, rfl⟩ := hof w' hw'
    obtain ⟨-, hsorted, hlistening'⟩ := onSuccess_frame l payload w
    obtain ⟨hsame, hnone⟩ := h.unloaded w hw (hlistening'.symm.trans hlistening) hloading
    have hother : w.mount ≠ l.mount := (hnone l hl).symm
    rw [mount_onSuccess, hsorted, onSuccess, if_neg hother]
    exact ⟨hsame, hnone⟩
  · intro w' hw' hlistening
    obtain ⟨w, hw, rfl⟩ := hof w' hw'
    exact hr w hw ((onSuccess_frame l payload w).2.2.symm.trans hlistening)

theorem Opened.resolve (h : s.Opened) (hr : s.Rendered) (k : ℕ) :
    (s.resolve k).Opened ∧ (s.resolve k).Rendered := by
  unfold Screen.resolve
  split
  · next l payload hk =>
      have hl : l ∈ s.loads := h.pending _ (List.mem_of_getElem? hk)
      have hrest : { s with pending := s.pending.eraseIdx k }.Opened :=
        h.withPending fun p hp => h.pending p (List.mem_of_mem_eraseIdx hp)
      dsimp only
      split
      · exact ⟨hrest, hr⟩
      · next store _ =>
          obtain ⟨hopened, hrendered⟩ := (hrest.withStore hr store).render
          refine hopened.success hrendered ?_ payload
          rw [render_frame.1]
          exact hl
  · exact ⟨h, hr⟩

theorem mem_modify {α : Type} {f : α → α} {l : List α} {i : ℕ} {a : α} (h : a ∈ l.modify i f) :
    ∃ b ∈ l, a = f b ∨ a = b := by
  obtain ⟨j, hj⟩ := List.mem_iff_getElem?.mp h
  rw [List.getElem?_modify] at hj
  obtain ⟨b, hb, rfl⟩ := Option.map_eq_some_iff.mp hj
  refine ⟨b, List.mem_of_getElem? hb, ?_⟩
  split
  · exact .inl rfl
  · exact .inr rfl

theorem Opened.on (h : s.Opened) (hr : s.Rendered) (e : ScreenEvent) :
    (s.on e).Opened ∧ (s.on e).Rendered := by
  cases e with
  | dispatch a => exact (h.withStore hr _).render
  | receive message roomId => exact (h.withStore hr _).render
  | save m => exact ⟨h.withDb _, hr⟩
  | deleteMessages roomId => exact ⟨h.withDb _, hr⟩
  | navigate dashboard => exact (h.withRoute dashboard).render
  | scroll => exact h.handleScroll hr
  | read k =>
      refine ⟨h.withPending fun p hp => ?_, hr⟩
      obtain ⟨q, hq, rfl | rfl⟩ := mem_modify hp
      · exact h.pending q hq
      · exact h.pending _ hq
  | resolve k => exact h.resolve hr k
  | reject k =>
      show (s.reject k).Opened ∧ (s.reject k).Rendered
      unfold Screen.reject
      split
      · have hrest : { s with pending := s.pending.eraseIdx k }.Opened :=
          h.withPending fun p hp => h.pending p (List.mem_of_mem_eraseIdx hp)
        exact (hrest.withStore hr _).render
      · exact ⟨h, hr⟩

theorem Opened.after (h : s.Opened) (hr : s.Rendered) (events : List ScreenEvent) :
    (s.after events).Opened ∧ (s.after events).Rendered := by
  induction events generalizing s with
  | nil => exact ⟨h, hr⟩
  | cons e events ih =>
      obtain ⟨h', hr'⟩ := h.on hr e
      exact ih h' hr'

theorem opened_after (events : List ScreenEvent) :
    (({} : Screen).after events).Opened ∧ (({} : Screen).after events).Rendered :=
  opened_init.after nofun events

end Screen

open Screen in
/-- Whatever happens on the page, an instance loads older messages at most once, and then for the
    room of its first render, from the oldest message that this room had. -/
theorem one_load_per_opening (events : List ScreenEvent) :
    ((({} : Screen).after events).loads.map MessagesLoad.mount).Nodup ∧
      ∀ l ∈ (({} : Screen).after events).loads, ∃ oldest rest,
        (({} : Screen).after events).mounts[l.mount]? = some (l.roomId, oldest :: rest) ∧
          l.fromTimestamp = oldest.timestamp ∧ ∀ m ∈ rest, oldest.timestamp ≤ m.timestamp := by
  obtain ⟨h, -⟩ := opened_after events
  refine ⟨h.nodup, fun l hl => ?_⟩
  obtain ⟨oldest, rest, hmount, hfrom⟩ := h.origin l hl
  have hsorted := h.sorted _ (List.mem_of_getElem? hmount)
  exact ⟨oldest, rest, hmount, hfrom, (List.pairwise_cons.mp hsorted).1⟩

/-! ## What a room shows -/

namespace Screen

variable {s : Screen} {r : String}

/-- An instance is the one before or a new one. -/
structure Follows (s s' : Screen) : Prop where
  instances : ∀ w', s'.wrapper = some w' →
    (∃ w, s.wrapper = some w ∧ w.mount = w'.mount) ∨ w'.mount = s.mounts.length
  mounts : s.mounts.length ≤ s'.mounts.length

theorem Follows.of_same {s' : Screen} (hwrapper : s'.wrapper = s.wrapper)
    (hmounts : s'.mounts = s.mounts) : s.Follows s' :=
  ⟨fun w' h => .inl ⟨w', hwrapper ▸ h, rfl⟩, (congrArg List.length hmounts).ge⟩

theorem Follows.render {s' : Screen} (hwrapper : s'.wrapper = s.wrapper)
    (hmounts : s'.mounts = s.mounts) : s.Follows s'.render := by
  obtain ⟨-, h⟩ | ⟨failed, h⟩ | ⟨-, id, ⟨w, hw, h⟩ | ⟨-, h⟩⟩ := s'.render_cases <;> rw [h]
  · exact .of_same hwrapper hmounts
  · exact ⟨nofun, (congrArg List.length hmounts).ge⟩
  · refine ⟨?_, (congrArg List.length hmounts).ge⟩
    rintro _ ⟨⟩
    exact .inl ⟨w, hwrapper ▸ hw, rfl⟩
  · refine ⟨?_, by simp [mounted, sorted, hmounts]⟩
    rintro _ ⟨⟩
    exact .inr (congrArg List.length hmounts)

theorem follows_on (s : Screen) (e : ScreenEvent) : s.Follows (s.on e) := by
  cases e with
  | dispatch a => exact .render rfl rfl
  | receive message roomId => exact .render rfl rfl
  | navigate dashboard => exact .render rfl rfl
  | scroll =>
      show s.Follows s.handleScroll
      unfold handleScroll
      split
      · exact .of_same rfl rfl
      split
      · split
        · exact .of_same rfl rfl
        · exact .render rfl rfl
      · exact .of_same rfl rfl
  | resolve k =>
      show s.Follows (s.resolve k)
      unfold resolve
      split
      · dsimp only
        split
        · exact .of_same rfl rfl
        · next l payload _ _ store _ =>
            have h : s.Follows { s with store, pending := s.pending.eraseIdx k }.render :=
              .render rfl rfl
            refine ⟨fun w' hw' => ?_, h.mounts⟩
            obtain ⟨w, hw, rfl⟩ := Option.map_eq_some_iff.mp hw'
            rw [mount_onSuccess]
            exact h.instances w hw
      · exact .of_same rfl rfl
  | reject k =>
      show s.Follows (s.reject k)
      unfold reject
      split
      · exact .render rfl rfl
      · exact .of_same rfl rfl
  | _ => exact .of_same rfl rfl

/-- An instance that is there after an event and is not new was there before. -/
theorem wrapper_of_on {e : ScreenEvent} {mount : ℕ} (hold : mount < s.mounts.length)
    (h : (s.on e).wrapper.map (·.mount) = some mount) : s.wrapper.map (·.mount) = some mount := by
  obtain ⟨w', hw', rfl⟩ := Option.map_eq_some_iff.mp h
  obtain ⟨w, hw, hmount⟩ | hnew := (s.follows_on e).instances w' hw'
  · rw [hw, Option.map_some, hmount]
  · exact absurd hnew hold.ne

theorem entry_sorted {messages : List IMessage} (id : String)
    (h : s.store.chatHistory.entry r = some messages) :
    ∃ messages', (s.sorted id).store.chatHistory.entry r = some messages' ∧
      messages'.Perm messages := by
  rw [sorted, entry_sortEntry]
  split
  · next hid =>
      rw [← hid, h]
      exact ⟨_, rfl, List.mergeSort_perm _ _⟩
  · exact ⟨messages, h, .refl _⟩

/-- A rendering reorders what a room shows. -/
theorem entry_render {messages : List IMessage}
    (h : s.store.chatHistory.entry r = some messages) :
    ∃ messages', s.render.store.chatHistory.entry r = some messages' ∧
      messages'.Perm messages := by
  obtain ⟨-, heq⟩ | ⟨failed, heq⟩ | ⟨-, id, ⟨w, -, heq⟩ | ⟨-, heq⟩⟩ := s.render_cases <;> rw [heq]
  · exact ⟨messages, h, .refl _⟩
  · exact ⟨messages, h, .refl _⟩
  · exact entry_sorted id h
  · exact entry_sorted id h

end Screen

section Entries

variable {state : RoomsState} {r : String} {messages : List IMessage}

/-- An action that names no room leaves all entries alone. -/
theorem entry_of_names_nil {a : Action} (h : a.names = []) (r : String) :
    (dispatch state a).chatHistory.entry r = state.chatHistory.entry r := by
  have hharmless : a.Harmless state := by
    cases a with
    | loadMessagesForRoom roomId shouldReset stage => simp [Action.names] at h
    | addMessageToRoom message roomId => simp [Action.names] at h
    | deleteMessagesForRoom roomId stage => simp [Action.names] at h
    | _ => trivial
  rw [entry_dispatch hharmless, Action.writes_of_not_named (by simp [h])]

theorem entry_addMessageToRoom (h : state.chatHistory.entry r = some messages) (message : IMessage)
    (roomId : String) : (dispatch state (.addMessageToRoom message roomId)).chatHistory.entry r
      = some (messages ++ if roomId = r then [message] else []) := by
  by_cases hharmless : (Action.addMessageToRoom message roomId).Harmless state
  · rw [entry_dispatch hharmless, Action.writes, h]
    by_cases hr : roomId = r
    · simp [hr]
    · simp [hr, Ne.symm hr]
  · have hr : roomId ≠ r := by
      rintro rfl
      exact hharmless (.inl (by simp [h]))
    rw [dispatch, addMessageToRoom_throws hharmless, h]
    simp [hr]

theorem entry_settle (h : state.chatHistory.entry r = some messages) {state' : RoomsState}
    {roomId : String} {payload : List IMessage}
    (hsettle : Screen.settle state roomId payload = .ok state') :
    state'.chatHistory.entry r = some ((if roomId = r then payload else []) ++ messages) := by
  by_cases hharmless : (Action.loadMessagesForRoom roomId false (.success payload)).Harmless state
  · obtain ⟨state₁, hreduce, hentry⟩ := chatReducer_of_harmless hharmless
    rw [Screen.settle, hreduce] at hsettle
    cases hsettle
    show state₁.chatHistory.entry r = _
    rw [hentry, Action.writes, h]
    by_cases hr : roomId = r
    · simp [hr]
    · simp [hr, Ne.symm hr]
  · rw [Screen.settle, ChatReducer, ZkChat.handle,
      Messages.spread_read_of_none (not_not.mp hharmless)] at hsettle
    cases hsettle

end Entries

/-- The messages for a room that arrive with an event. -/
def ScreenEvent.arrivals (r : String) : ScreenEvent → List IMessage
  | .receive message roomId => if roomId = r then [message] else []
  | _ => []

/-- The load reads this page in one of the databases `dbs`. -/
def MessagesLoad.Gives (l : MessagesLoad) (dbs : ℕ → LocalChatDB) (page : List IMessage) : Prop :=
  ∃ i, page = (dbs i).getMessagesForRoom l.roomId l.fromTimestamp

namespace Screen

variable {dbs : ℕ → LocalChatDB} {r : String} {mount : ℕ} {old new : List MessagesLoad}
  {shown arrived : List IMessage} {pages : List (List IMessage)} {s : Screen}

/-- What has become of a room that showed `shown`, since the loads were `old`: the instance has
    made the loads `new`, and those that are through have added `pages`. -/
structure Ledger (dbs : ℕ → LocalChatDB) (r : String) (mount : ℕ) (old : List MessagesLoad)
    (shown arrived : List IMessage) (new : List MessagesLoad) (pages : List (List IMessage))
    (s : Screen) : Prop where
  loads : s.loads = old ++ new
  mine : ∀ l ∈ new, l.mount = mount
  count : pages.length + s.pending.length ≤ new.length
  pending : ∀ p ∈ s.pending, p.1 ∈ new ∧ ∀ page, p.2 = some page → p.1.Gives dbs page
  given : ∀ page ∈ pages, ∃ l ∈ new, l.roomId = r ∧ l.Gives dbs page
  entry : ∃ messages, s.store.chatHistory.entry r = some messages ∧
    messages.Perm (pages.flatten ++ shown ++ arrived)

theorem Ledger.render (h : Ledger dbs r mount old shown arrived new pages s) :
    Ledger dbs r mount old shown arrived new pages s.render := by
  obtain ⟨messages, hentry, hperm⟩ := h.entry
  obtain ⟨messages', hentry', hperm'⟩ := entry_render hentry
  obtain ⟨hloads, hpending⟩ := s.render_frame
  exact ⟨hloads ▸ h.loads, h.mine, hpending ▸ h.count, hpending ▸ h.pending, h.given,
    messages', hentry', hperm'.trans hperm⟩

/-- Neither the loads nor what the room shows changes. -/
theorem Ledger.frame (h : Ledger dbs r mount old shown arrived new pages s) {s' : Screen}
    (hloads : s'.loads = s.loads) (hpending : s'.pending = s.pending)
    (hentry : s'.store.chatHistory.entry r = s.store.chatHistory.entry r) :
    Ledger dbs r mount old shown arrived new pages s' :=
  ⟨hloads ▸ h.loads, h.mine, hpending ▸ h.count, hpending ▸ h.pending, h.given, hentry ▸ h.entry⟩

/-- A load is over without a page. -/
theorem Ledger.dropped (h : Ledger dbs r mount old shown arrived new pages s) (k : ℕ) :
    Ledger dbs r mount old shown arrived new pages { s with pending := s.pending.eraseIdx k } :=
  ⟨h.loads, h.mine, (Nat.add_le_add_left (List.length_eraseIdx_le ..) _).trans h.count,
    fun p hp => h.pending p (List.mem_of_mem_eraseIdx hp), h.given, h.entry⟩

theorem Ledger.receive (h : Ledger dbs r mount old shown arrived new pages s)
    (message : IMessage) (roomId : String) :
    Ledger dbs r mount old shown (arrived ++ (ScreenEvent.receive message roomId).arrivals r) new
      pages (s.on (.receive message roomId)) := by
  obtain ⟨messages, hentry, hperm⟩ := h.entry
  refine Ledger.render ⟨h.loads, h.mine, h.count, h.pending, h.given, _,
    entry_addMessageToRoom hentry message roomId, ?_⟩
  rw [← List.append_assoc]
  exact hperm.append_right _

theorem Ledger.scroll (h : Ledger dbs r mount old shown arrived new pages s)
    (hmount : s.wrapper.map (·.mount) = some mount) :
    ∃ new, Ledger dbs r mount old shown arrived new pages s.handleScroll := by
  unfold handleScroll
  split
  · exact ⟨new, h⟩
  next w hw =>
  split
  · split
    · exact ⟨new, h⟩
    next lastMessage _ _ =>
    refine ⟨new ++ [⟨w.mount, w.roomId, lastMessage.timestamp⟩], Ledger.render ?_⟩
    refine ⟨?_, ?_, ?_, ?_, ?_, h.entry⟩
    · show s.loads ++ _ = _
      rw [h.loads, List.append_assoc]
    · intro l hl
      rcases List.mem_append.mp hl with hl | hl
      · exact h.mine l hl
      · rw [List.mem_singleton.mp hl]
        rw [hw] at hmount
        exact Option.some.inj hmount
    · have hcount := h.count
      simp only [List.length_append, List.length_singleton]
      omega
    · intro p hp
      rcases List.mem_append.mp hp with hp | hp
      · exact ⟨List.mem_append_left _ (h.pending p hp).1, (h.pending p hp).2⟩
      · rw [List.mem_singleton.mp hp]
        exact ⟨by simp, nofun⟩
    · intro page hpage
      obtain ⟨l, hl, hof⟩ := h.given page hpage
      exact ⟨l, List.mem_append_left _ hl, hof⟩
  · exact ⟨new, h⟩

theorem Ledger.resolve (h : Ledger dbs r mount old shown arrived new pages s) (k : ℕ) :
    ∃ pages, Ledger dbs r mount old shown arrived new pages (s.resolve k) := by
  unfold Screen.resolve
  split
  · next l payload hk =>
      dsimp only
      split
      · exact ⟨pages, h.dropped k⟩
      next store hsettle =>
      obtain ⟨messages, hentry, hperm⟩ := h.entry
      obtain ⟨hl, hgives⟩ := h.pending _ (List.mem_of_getElem? hk)
      have hentry' := entry_settle hentry hsettle
      have hlength : (s.pending.eraseIdx k).length + 1 = s.pending.length := by
        have hlt := (List.getElem?_eq_some_iff.mp hk).1
        rw [List.length_eraseIdx_of_lt hlt]
        omega
      have hcount := h.count
      have hrest := h.dropped k
      by_cases hr : l.roomId = r
      · have hledger : Ledger dbs r mount old shown arrived new (payload :: pages)
            { s with store, pending := s.pending.eraseIdx k } := by
          refine ⟨hrest.loads, hrest.mine, ?_, hrest.pending, ?_, _, hentry', ?_⟩
          · simp only [List.length_cons]
            omega
          · intro page hpage
            rcases List.mem_cons.mp hpage with rfl | hpage
            · exact ⟨l, hl, hr, hgives page rfl⟩
            · exact h.given page hpage
          · rw [if_pos hr, List.flatten_cons, List.append_assoc, List.append_assoc,
              ← List.append_assoc pages.flatten]
            exact hperm.append_left _
        exact ⟨payload :: pages, hledger.render.frame rfl rfl rfl⟩
      · rw [if_neg hr, List.nil_append, ← hentry] at hentry'
        have hledger : Ledger dbs r mount old shown arrived new pages
            { s with store, pending := s.pending.eraseIdx k } := hrest.frame rfl rfl hentry'
        exact ⟨pages, hledger.render.frame rfl rfl rfl⟩
  · exact ⟨pages, h⟩

theorem Ledger.reject (h : Ledger dbs r mount old shown arrived new pages s) (k : ℕ) :
    Ledger dbs r mount old shown arrived new pages (s.reject k) := by
  unfold Screen.reject
  split
  · exact Ledger.render ((h.dropped k).frame rfl rfl rfl)
  · exact h

/-- A call that has not read yet reads the database as it is. -/
theorem Ledger.read (h : Ledger dbs r mount old shown arrived new pages s)
    (hdb : ∃ i, s.message_db = dbs i) (k : ℕ) :
    Ledger dbs r mount old shown arrived new pages (s.on (.read k)) := by
  refine ⟨h.loads, h.mine, ?_, ?_, h.given, h.entry⟩
  · simpa [Screen.on] using h.count
  · intro p hp
    obtain ⟨⟨l, earlier⟩, hq, rfl | rfl⟩ := mem_modify hp
    · obtain ⟨hnew, hgives⟩ := h.pending _ hq
      refine ⟨hnew, fun page hpage => ?_⟩
      cases earlier with
      | some page' => exact hgives page hpage
      | none =>
          obtain ⟨i, hi⟩ := hdb
          rw [hi] at hpage
          exact ⟨i, (Option.some.inj hpage).symm⟩
    · exact h.pending _ hq

/-- Nothing arrives with the event. -/
theorem Ledger.quiet (h : Ledger dbs r mount old shown arrived new pages s) {e : ScreenEvent}
    (he : e.arrivals r = []) :
    Ledger dbs r mount old shown (arrived ++ e.arrivals r) new pages s := by
  rw [he, List.append_nil]
  exact h

/-- One event adds to the ledger what arrives with it. -/
theorem Ledger.on (h : Ledger dbs r mount old shown arrived new pages s)
    (hmount : s.wrapper.map (·.mount) = some mount) (hdb : ∃ i, s.message_db = dbs i)
    {e : ScreenEvent} (he : ∀ a, e = .dispatch a → a.names = []) :
    ∃ new pages, Ledger dbs r mount old shown (arrived ++ e.arrivals r) new pages (s.on e) := by
  cases e with
  | receive message roomId => exact ⟨new, pages, h.receive message roomId⟩
  | dispatch a =>
      have hentry : (dispatch s.store a).chatHistory.entry r = s.store.chatHistory.entry r :=
        entry_of_names_nil (he a rfl) r
      refine ⟨new, pages, Ledger.quiet ?_ rfl⟩
      exact Ledger.render (h.frame rfl rfl hentry)
  | scroll =>
      obtain ⟨new, h⟩ := h.scroll hmount
      exact ⟨new, pages, h.quiet rfl⟩
  | read k => exact ⟨new, pages, (h.read hdb k).quiet rfl⟩
  | resolve k =>
      obtain ⟨pages, h⟩ := h.resolve k
      exact ⟨new, pages, h.quiet rfl⟩
  | reject k => exact ⟨new, pages, (h.reject k).quiet rfl⟩
  | navigate dashboard =>
      refine ⟨new, pages, Ledger.quiet ?_ rfl⟩
      exact Ledger.render (h.frame rfl rfl rfl)
  | _ =>
      refine ⟨new, pages, Ledger.quiet ?_ rfl⟩
      exact h.frame rfl rfl rfl

theorem after_append (s : Screen) (before events : List ScreenEvent) :
    s.after (before ++ events) = (s.after before).after events := List.foldl_append ..

/-- An instance that is there after some events and was not made by them was there before. -/
theorem wrapper_of_after {events : List ScreenEvent} (hold : mount < s.mounts.length)
    (h : (s.after events).wrapper.map (·.mount) = some mount) :
    s.wrapper.map (·.mount) = some mount := by
  induction events generalizing s with
  | nil => exact h
  | cons e events ih =>
      exact wrapper_of_on hold (ih (hold.trans_le (s.follows_on e).mounts) h)

theorem Ledger.after {events : List ScreenEvent}
    (h : Ledger dbs r mount old shown arrived new pages s) (hold : mount < s.mounts.length)
    (hstays : (s.after events).wrapper.map (·.mount) = some mount)
    (hdbs : ∀ i, ∃ j, (s.after (events.take i)).message_db = dbs j)
    (hevents : ∀ a, .dispatch a ∈ events → a.names = []) :
    ∃ new pages, Ledger dbs r mount old shown (arrived ++ events.flatMap (·.arrivals r)) new pages
      (s.after events) := by
  induction events generalizing s arrived new pages with
  | nil => exact ⟨new, pages, by simpa [Screen.after] using h⟩
  | cons e events ih =>
      have hhere : s.wrapper.map (·.mount) = some mount := wrapper_of_after hold hstays
      obtain ⟨new, pages, h⟩ := h.on hhere (hdbs 0) (e := e)
        fun a ha => hevents a (ha ▸ List.mem_cons_self)
      rw [List.flatMap_cons, ← List.append_assoc]
      exact ih h (hold.trans_le (s.follows_on e).mounts) hstays (fun i => hdbs (i + 1))
        fun a ha => hevents a (List.mem_cons_of_mem _ ha)

end Screen

open Screen in
/-- While an instance stays on the screen and no other component names a room in an action, a room
    keeps what it showed, up to the order. New to it are the messages that have arrived and at most
    one page, which the one load of the instance has read, and only if it is the room of the first
    render. -/
theorem shown_while_open {before events : List ScreenEvent} {r : String} {mount : ℕ}
    {shown : List IMessage} (hpending : (({} : Screen).after before).pending = [])
    (hshown : (({} : Screen).after before).store.chatHistory.entry r = some shown)
    (hopen : (({} : Screen).after before).wrapper.map (·.mount) = some mount)
    (hstays : (({} : Screen).after (before ++ events)).wrapper.map (·.mount) = some mount)
    (hevents : ∀ a, .dispatch a ∈ events → a.names = []) :
    ∃ page messages,
      (({} : Screen).after (before ++ events)).store.chatHistory.entry r = some messages ∧
      messages.Perm (page ++ shown ++ events.flatMap (·.arrivals r)) ∧
      (page = [] ∨ ∃ l ∈ (({} : Screen).after (before ++ events)).loads,
        l.mount = mount ∧ l.roomId = r ∧
        l.Gives (fun i => (({} : Screen).after (before ++ events.take i)).message_db) page) := by
  obtain ⟨h, hr⟩ := opened_after before
  simp only [after_append] at hstays ⊢
  generalize ({} : Screen).after before = s at *
  obtain ⟨w, hw, rfl⟩ := Option.map_eq_some_iff.mp hopen
  have hold : w.mount < s.mounts.length := (List.getElem?_eq_some_iff.mp (h.mounted w hw)).1
  have hstart : Ledger (fun i => (s.after (events.take i)).message_db) r w.mount s.loads shown [] []
      [] s :=
    ⟨(List.append_nil _).symm, nofun, by simp [hpending], by simp [hpending], nofun, shown, hshown,
      by simp⟩
  obtain ⟨new, pages, hend⟩ := hstart.after hold hstays (fun i => ⟨i, rfl⟩) hevents
  obtain ⟨messages, hentry, hperm⟩ := hend.entry
  rw [List.nil_append] at hperm
  -- the loads of one instance are at most one
  have hone : new.length ≤ 1 := by
    have hnodup := (h.after hr events).1.nodup
    rw [hend.loads, List.map_append] at hnodup
    have hsame : new.map MessagesLoad.mount = List.replicate new.length w.mount :=
      List.eq_replicate_iff.mpr ⟨List.length_map .., by
        intro mount hmount
        obtain ⟨l, hl, rfl⟩ := List.mem_map.mp hmount
        exact hend.mine l hl⟩
    have hnew := (List.nodup_append.mp hnodup).2.1
    rw [hsame] at hnew
    exact List.nodup_replicate.mp hnew
  have hcount := hend.count
  obtain _ | ⟨page, _ | ⟨_, _⟩⟩ := pages
  · exact ⟨[], messages, hentry, hperm, .inl rfl⟩
  · obtain ⟨l, hl, hroom, hgives⟩ := hend.given page (List.mem_singleton.mpr rfl)
    refine ⟨page, messages, hentry, by simpa using hperm, .inr ⟨l, ?_, hend.mine l hl, hroom,
      hgives⟩⟩
    rw [hend.loads]
    exact List.mem_append_right _ hl
  · simp only [List.length_cons] at hcount
    omega

/-- A message of the room "r". -/
def messageAt (timestamp : ℤ) : IZkMessage where
  uuid := ""
  roomId := "r"
  epoch := 0
  chat_type := "PUBLIC"
  message_content := "m"
  timestamp := timestamp
  sender := "s"

/-- The room is opened with a new message in it, and an old one in the database. -/
def openRoom : List ScreenEvent :=
  [.save (messageAt 0), .save (messageAt 1), .navigate true,
    .receive (LocalChatDB.message (messageAt 1)) "r",
    .dispatch (.addActiveChatRoom (some (.room ⟨"r", "room", "PUBLIC", "key"⟩)))]

/-- The old message is loaded, and another one arrives. -/
def scrollUp : List ScreenEvent :=
  [.scroll, .read 0, .resolve 0, .scroll, .receive (LocalChatDB.message (messageAt 2)) "r"]

/-- The page after `openRoom`, with the messages that the room shows. -/
def openedScreen (messages : List IMessage) : Screen where
  store :=
    { defaultState with
      chatHistory := ⟨[("r", messages)], List.nodup_singleton "r"⟩
      currentActiveRoom := some (.room ⟨"r", "room", "PUBLIC", "key"⟩) }
  message_db := [messageAt 0, messageAt 1]
  dashboard := true
  wrapper := some ⟨0, "r", messages, messages, true⟩
  mounts := [("r", messages)]

theorem define_empty (id : String) (messages : List IMessage) :
    Messages.empty.define id messages = ⟨[(id, messages)], List.nodup_singleton id⟩ := by
  simp only [Messages.define, Messages.mk.injEq]
  show Js.insertProperty [] id messages = _
  unfold Js.insertProperty
  split <;> rfl

theorem after_openRoom :
    ({} : Screen).after openRoom = openedScreen [LocalChatDB.message (messageAt 1)] := by
  have hreceived : ({} : Screen).after (openRoom.take 4) =
      { message_db := [messageAt 0, messageAt 1], dashboard := true,
        store := { defaultState with
          chatHistory := Messages.empty.define "r" [LocalChatDB.message (messageAt 1)] } } := rfl
  have hopen : ({} : Screen).after openRoom = (({} : Screen).after (openRoom.take 4)).dispatched
      (.addActiveChatRoom (some (.room ⟨"r", "room", "PUBLIC", "key"⟩))) := rfl
  have hsorted : sortMessages [LocalChatDB.message (messageAt 1)]
      = [LocalChatDB.message (messageAt 1)] := List.mergeSort_singleton _
  rw [hopen, hreceived, define_empty]
  conv_rhs => rw [← hsorted]
  rfl

theorem shown_while_open_scrollUp :
    ∃ page messages,
      (({} : Screen).after (openRoom ++ scrollUp)).store.chatHistory.entry "r" = some messages ∧
      messages.Perm (page ++ [LocalChatDB.message (messageAt 1)]
        ++ scrollUp.flatMap (·.arrivals "r")) ∧
      (page = [] ∨ ∃ l ∈ (({} : Screen).after (openRoom ++ scrollUp)).loads,
        l.mount = 0 ∧ l.roomId = "r" ∧
        l.Gives (fun i => (({} : Screen).after (openRoom ++ scrollUp.take i)).message_db)
          page) := by
  refine shown_while_open ?_ ?_ ?_ ?_ ?_
  · rw [after_openRoom]
    rfl
  · rw [after_openRoom]
    rfl
  · rw [after_openRoom]
    rfl
  · rw [Screen.after_append, after_openRoom]
    decide +kernel
  · simp [scrollUp]

end ZkChat
