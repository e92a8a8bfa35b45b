import Mathlib.Data.List.Nodup
import ZkChat.Client.ChatManager

set_option autoImplicit false

/-! # Registering for messages

`init` makes a new `ChatManager` on every call, but the sockets stay, with every listener that was
ever added to them. What keeps a handler from being registered twice is a field of the manager, so it
is a new one after every `init`: the handlers of all managers that were registered are called on a
broadcast, each with the rooms of its own profile. A broadcast is handled once exactly when none of
the earlier ones can decrypt it (`handledOnce_iff`). -/

namespace ZkChat

/-! ## The page -/

/-- A `ChatManager` with the rooms of its `ProfileManager`, when that has a profile. Callbacks are
    told apart by numbers. -/
structure ChatManagerState where
  rooms : Option Rooms
  message_callback : Option ℕ := none
  chatHistoryIsSyncing : Bool := false

/-- The call of a callback. -/
structure Delivery where
  callback : ℕ
  message : IMessage
  room_id : String
deriving DecidableEq

/-- One page. The last manager is `chat_manager`; the listeners of the broadcast socket are given by
    the managers whose handlers they are. -/
structure Page where
  chat_managers : List ChatManagerState := []
  listeners : List ℕ := []
  message_db : LocalChatDB := []
  delivered : List Delivery := []

namespace Page

/-- What `init` leaves behind: a new manager, whose profile has the rooms that were loaded. It is
    there also when `init` throws because there is no profile. -/
def init (rooms : Option Rooms) (page : Page) : Page :=
  { page with chat_managers := page.chat_managers ++ [{ rooms }] }

/-- `registerReceiveMessageHandler` of the manager `i`. -/
def registerReceiveMessageHandler (receive_msg_callback i : ℕ) (page : Page) : Page :=
  match page.chat_managers[i]? with
  | none => page
  | some manager =>
      match manager.message_callback with
      | none =>
          { page with
            chat_managers := page.chat_managers.set i
              { manager with message_callback := some receive_msg_callback }
            listeners := page.listeners ++ [i] }
      -- Don't register the callback again to avoid receiving the same message twice.
      | some _ => page

def receive_message (receive_msg_callback : ℕ) (page : Page) : Except Exn Page :=
  if page.chat_managers = [] then .error (.text "init() not called")
  else .ok (registerReceiveMessageHandler receive_msg_callback (page.chat_managers.length - 1) page)

section

/- `decryptMessageSymmetric`; `none` when it throws. -/
variable (decryptMessageSymmetric : String → String → Option String)

/-- `decryptMessage` of the manager `i`; without a profile it throws. -/
def decryptMessage (page : Page) (message : IMessage) (i : ℕ) : Option (IMessage × String) :=
  page.chat_managers[i]?.bind fun manager => manager.rooms.bind fun rooms =>
    ChatManager.decryptMessage rooms decryptMessageSymmetric message

/-- The call of a manager's callback, unless its history sync is in progress. -/
def deliver (page : Page) (message : IMessage) (room_id : String) (i : ℕ) : Option Delivery :=
  page.chat_managers[i]?.bind fun manager =>
    if manager.chatHistoryIsSyncing then none
    else manager.message_callback.map fun callback => { callback, message, room_id }

/-- `messageHandlerForRooms` of the manager `i`. -/
def messageHandlerForRooms (message : IMessage) (page : Page) (i : ℕ) : Page :=
  match page.decryptMessage decryptMessageSymmetric message i with
  | none => page
  | some (decryptedMessage, room_id) =>
      { page with
        message_db := page.message_db.saveMessage room_id decryptedMessage
        delivered := page.delivered ++ (page.deliver decryptedMessage room_id i).toList }

/-- A broadcast: the socket calls its listeners one after another. -/
def broadcast (message : IMessage) (page : Page) : Page :=
  page.listeners.foldl (messageHandlerForRooms decryptMessageSymmetric message) page

end

/-- The manager `i` has changed, but not its callback. -/
def change (i : ℕ) (f : ChatManagerState → ChatManagerState) (page : Page) : Page :=
  { page with chat_managers := page.chat_managers.modify i fun manager =>
      { f manager with message_callback := manager.message_callback } }

end Page

/-- What happens on a page: the calls, a change of the rooms of some manager's profile, the beginning
    or the end of a history sync, a broadcast. -/
inductive PageEvent where
  | init (rooms : Option Rooms)
  | receive_message (receive_msg_callback : ℕ)
  | changeRooms (i : ℕ) (rooms : Option Rooms)
  | changeSync (i : ℕ) (chatHistoryIsSyncing : Bool)
  | broadcast (message : IMessage)

namespace PageEvent

/-- The page after the event; a call that throws leaves it as it was. -/
def exec (decryptMessageSymmetric : String → String → Option String) (page : Page) :
    PageEvent → Page
  | init rooms => page.init rooms
  | receive_message callback =>
      match page.receive_message callback with
      | .ok page' => page'
      | .error _ => page
  | changeRooms i rooms => page.change i fun manager => { manager with rooms }
  | changeSync i chatHistoryIsSyncing =>
      page.change i fun manager => { manager with chatHistoryIsSyncing }
  | broadcast message => page.broadcast decryptMessageSymmetric message

def IsInit : PageEvent → Prop
  | init _ => True
  | _ => False

def IsReceive : PageEvent → Prop
  | receive_message _ => True
  | _ => False

end PageEvent

/-- The page after a sequence of events. -/
def Page.after (decryptMessageSymmetric : String → String → Option String)
    (events : List PageEvent) : Page :=
  events.foldl (PageEvent.exec decryptMessageSymmetric) {}

namespace Page

variable {decryptMessageSymmetric : String → String → Option String} {page page' : Page}

/-! ## Listeners and callbacks -/

/-- The manager `i` has a callback. -/
def Registered (page : Page) (i : ℕ) : Prop :=
  ∃ manager callback, page.chat_managers[i]? = some manager ∧
    manager.message_callback = some callback

/-- The registered managers have one listener each. -/
structure OneListener (page : Page) : Prop where
  nodup : page.listeners.Nodup
  registered : ∀ i, i ∈ page.listeners ↔ page.Registered i

theorem OneListener.empty : OneListener {} :=
  ⟨List.nodup_nil, fun i => by simp [Registered]⟩

theorem registered_init (rooms : Option Rooms) (i : ℕ) :
    (page.init rooms).Registered i ↔ page.Registered i := by
  unfold Registered init
  rcases Nat.lt_trichotomy i page.chat_managers.length with h | h | h
  · simp only [List.getElem?_append_left h]
  · simp [h]
  · simp [List.getElem?_append_right h.le, List.getElem?_eq_none h.le,
      List.getElem?_eq_none (show [({ rooms } : ChatManagerState)].length
        ≤ i - page.chat_managers.length by rw [List.length_singleton]; omega)]

theorem registered_change (j : ℕ) (f : ChatManagerState → ChatManagerState) (i : ℕ) :
    (page.change j f).Registered i ↔ page.Registered i := by
  unfold Registered change
  simp only [List.getElem?_modify, Option.map_eq_map]
  cases page.chat_managers[i]? with
  | none => simp
  | some manager => by_cases h : j = i <;> simp [h]

/-- What a registration does: nothing for a manager that is registered, and else it becomes one. -/
theorem registerReceiveMessageHandler_cases (callback i : ℕ) (page : Page)
    (hi : i < page.chat_managers.length) :
    page.Registered i ∧ page.registerReceiveMessageHandler callback i = page ∨
    ¬ page.Registered i ∧
      (page.registerReceiveMessageHandler callback i).listeners = page.listeners ++ [i] ∧
      ∀ j, (page.registerReceiveMessageHandler callback i).Registered j ↔
        page.Registered j ∨ j = i := by
  unfold registerReceiveMessageHandler
  rw [List.getElem?_eq_getElem hi]
  dsimp only
  cases hcallback : page.chat_managers[i].message_callback with
  | some old => exact Or.inl ⟨⟨_, old, List.getElem?_eq_getElem hi, hcallback⟩, rfl⟩
  | none =>
      refine Or.inr ⟨?_, rfl, fun j => ?_⟩
      · rintro ⟨manager, old, hmanager, hold⟩
        rw [List.getElem?_eq_getElem hi, Option.some.injEq] at hmanager
        rw [hmanager, hold] at hcallback
        cases hcallback
      · unfold Registered
        by_cases hj : j = i
        · subst hj
          simp [List.getElem?_set_self hi]
        · simp [List.getElem?_set_ne (Ne.symm hj), hj]

theorem length_registerReceiveMessageHandler (callback i : ℕ) (page : Page) :
    (page.registerReceiveMessageHandler callback i).chat_managers.length
      = page.chat_managers.length := by
  unfold registerReceiveMessageHandler
  split
  · rfl
  · split
    · rw [List.length_set]
    · rfl

/-! ## Broadcasts -/

/-- The record that the handler of the manager `i` saves. -/
def saved (decryptMessageSymmetric : String → String → Option String) (message : IMessage)
    (page : Page) (i : ℕ) : Option IZkMessage :=
  (page.decryptMessage decryptMessageSymmetric message i).map fun m => LocalChatDB.record m.2 m.1

/-- The call of a callback that it makes. -/
def sent (decryptMessageSymmetric : String → String → Option String) (message : IMessage)
    (page : Page) (i : ℕ) : Option Delivery :=
  (page.decryptMessage decryptMessageSymmetric message i).bind fun m => page.deliver m.1 m.2 i

theorem foldl_messageHandlerForRooms (message : IMessage) (page : Page) (listeners : List ℕ) :
    listeners.foldl (messageHandlerForRooms decryptMessageSymmetric message) page
      = { page with
          message_db := page.message_db
            ++ listeners.filterMap (page.saved decryptMessageSymmetric message)
          delivered := page.delivered
            ++ listeners.filterMap (page.sent decryptMessageSymmetric message) } := by
  induction listeners generalizing page with
  | nil => simp
  | cons i listeners ih =>
      rw [List.foldl_cons, ih, messageHandlerForRooms]
      cases hdecrypt : page.decryptMessage decryptMessageSymmetric message i with
      | none => simp [saved, sent, hdecrypt]
      | some m =>
          -- the handler changes nothing that the next ones look at
          have hsaved : ∀ db delivered, saved decryptMessageSymmetric message
              { page with message_db := db, delivered := delivered }
                = page.saved decryptMessageSymmetric message := fun _ _ => rfl
          have hsent : ∀ db delivered, sent decryptMessageSymmetric message
              { page with message_db := db, delivered := delivered }
                = page.sent decryptMessageSymmetric message := fun _ _ => rfl
          have hhead : page.saved decryptMessageSymmetric message i
              = some (LocalChatDB.record m.2 m.1) := by
            rw [saved, hdecrypt, Option.map_some]
          have hcall : page.sent decryptMessageSymmetric message i
              = page.deliver m.1 m.2 i := by
            rw [sent, hdecrypt, Option.bind_some]
          simp only [hsaved, hsent, List.filterMap_cons, hhead, hcall, LocalChatDB.saveMessage,
            List.append_assoc, List.singleton_append]
          cases page.deliver m.1 m.2 i <;> rfl

/-! ## Runs -/

/-- The place of `chat_manager`. -/
def current (page : Page) : ℕ := page.chat_managers.length - 1

theorem exec_receive_message (callback : ℕ) (hmanagers : 0 < page.chat_managers.length) :
    (PageEvent.receive_message callback).exec decryptMessageSymmetric page
      = page.registerReceiveMessageHandler callback page.current := by
  rw [PageEvent.exec, receive_message, if_neg (List.length_pos_iff.mp hmanagers)]
  rfl

theorem exec_receive_message_nil (callback : ℕ) (hmanagers : page.chat_managers = []) :
    (PageEvent.receive_message callback).exec decryptMessageSymmetric page = page := by
  rw [PageEvent.exec, receive_message, if_pos hmanagers]

/-- Only `init` makes a manager. -/
theorem length_exec {event : PageEvent} (hinit : ¬ event.IsInit) :
    (event.exec decryptMessageSymmetric page).chat_managers.length = page.chat_managers.length := by
  cases event with
  | init rooms => exact absurd trivial hinit
  | receive_message callback =>
      rcases Nat.eq_zero_or_pos page.chat_managers.length with h | h
      · rw [exec_receive_message_nil callback (List.length_eq_zero_iff.mp h)]
      · rw [exec_receive_message callback h, length_registerReceiveMessageHandler]
  | changeRooms i rooms => exact List.length_modify ..
  | changeSync i running => exact List.length_modify ..
  | broadcast message =>
      rw [PageEvent.exec, broadcast, foldl_messageHandlerForRooms]

/-- A callback stays. -/
theorem Registered.exec {i : ℕ} (h : page.Registered i) (event : PageEvent) :
    (event.exec decryptMessageSymmetric page).Registered i := by
  cases event with
  | init rooms => exact (registered_init rooms i).mpr h
  | receive_message callback =>
      rcases Nat.eq_zero_or_pos page.chat_managers.length with hnone | hmanagers
      · rwa [exec_receive_message_nil callback (List.length_eq_zero_iff.mp hnone)]
      · rw [exec_receive_message callback hmanagers]
        rcases registerReceiveMessageHandler_cases callback page.current page
          (Nat.sub_one_lt hmanagers.ne') with ⟨-, hpage⟩ | ⟨-, -, hregistered⟩
        · rwa [hpage]
        · exact (hregistered i).mpr (Or.inl h)
  | changeRooms j rooms => exact (registered_change j _ i).mpr h
  | changeSync j running => exact (registered_change j _ i).mpr h
  | broadcast message =>
      rw [PageEvent.exec, broadcast, foldl_messageHandlerForRooms]
      exact h

theorem OneListener.exec (h : page.OneListener) (event : PageEvent) :
    (event.exec decryptMessageSymmetric page).OneListener := by
  cases event with
  | init rooms => exact ⟨h.nodup, fun i => (h.registered i).trans (registered_init rooms i).symm⟩
  | receive_message callback =>
      rcases Nat.eq_zero_or_pos page.chat_managers.length with hnone | hmanagers
      · rwa [exec_receive_message_nil callback (List.length_eq_zero_iff.mp hnone)]
      · rw [exec_receive_message callback hmanagers]
        rcases registerReceiveMessageHandler_cases callback page.current page
          (Nat.sub_one_lt hmanagers.ne') with ⟨-, hpage⟩ | ⟨hnew, hlisteners, hregistered⟩
        · rwa [hpage]
        · refine ⟨?_, fun i => ?_⟩
          · rw [hlisteners, List.nodup_append]
            refine ⟨h.nodup, List.nodup_singleton _, ?_⟩
            rintro i hi _ hj rfl
            rw [List.mem_singleton.mp hj, h.registered] at hi
            exact hnew hi
          · rw [hlisteners, hregistered, List.mem_append, List.mem_singleton, h.registered]
  | changeRooms j rooms =>
      exact ⟨h.nodup, fun i => (h.registered i).trans (registered_change j _ i).symm⟩
  | changeSync j running =>
      exact ⟨h.nodup, fun i => (h.registered i).trans (registered_change j _ i).symm⟩
  | broadcast message =>
      rw [PageEvent.exec, broadcast, foldl_messageHandlerForRooms]
      exact ⟨h.nodup, h.registered⟩

theorem OneListener.foldl (h : page.OneListener) (events : List PageEvent) :
    (events.foldl (PageEvent.exec decryptMessageSymmetric) page).OneListener := by
  induction events generalizing page with
  | nil => exact h
  | cons event events ih => exact ih (h.exec event)

theorem OneListener.after (events : List PageEvent) :
    (Page.after decryptMessageSymmetric events).OneListener :=
  OneListener.empty.foldl events

theorem registered_of_isReceive {event : PageEvent} (hreceive : event.IsReceive)
    (hmanagers : 0 < page.chat_managers.length) :
    (event.exec decryptMessageSymmetric page).Registered page.current := by
  cases event with
  | receive_message callback =>
      rw [exec_receive_message callback hmanagers]
      rcases registerReceiveMessageHandler_cases callback page.current page
        (Nat.sub_one_lt hmanagers.ne') with ⟨hold, hpage⟩ | ⟨-, -, hregistered⟩
      · rwa [hpage]
      · exact (hregistered _).mpr (Or.inr rfl)
  | _ => exact hreceive.elim

/-- With a call of `receive_message` after the last `init`, the last manager is registered. -/
theorem registered_current {events : List PageEvent} (hinit : ∀ e ∈ events, ¬ e.IsInit)
    (hmanagers : 0 < page.chat_managers.length)
    (h : page.Registered page.current ∨ ∃ e ∈ events, e.IsReceive) :
    (events.foldl (PageEvent.exec decryptMessageSymmetric) page).Registered
      (events.foldl (PageEvent.exec decryptMessageSymmetric) page).current := by
  induction events generalizing page with
  | nil => simpa using h
  | cons event events ih =>
      have hlength : (event.exec decryptMessageSymmetric page).chat_managers.length
          = page.chat_managers.length := length_exec (hinit event (by simp))
      have hcurrent : (event.exec decryptMessageSymmetric page).current = page.current := by
        rw [current, hlength, ← current]
      refine ih (fun e he => hinit e (by simp [he])) (hlength ▸ hmanagers) ?_
      rw [hcurrent]
      rcases h with h | ⟨e, he, hreceive⟩
      · exact Or.inl (h.exec event)
      · rcases List.mem_cons.mp he with rfl | he
        · exact Or.inl (registered_of_isReceive hreceive hmanagers)
        · exact Or.inr ⟨e, he, hreceive⟩

/-! ## Handling a broadcast -/

/-- Some history sync is in progress. -/
def Syncing (page : Page) : Prop :=
  ∃ manager ∈ page.chat_managers, manager.chatHistoryIsSyncing = true

/-- The broadcast is saved once, as the current profile decrypts it, and unless there is a sync it
    reaches one callback, that of the current manager. -/
def HandledOnce (decryptMessageSymmetric : String → String → Option String) (message : IMessage)
    (page : Page) : Prop :=
  ∃ decrypted room_id,
    page.decryptMessage decryptMessageSymmetric message page.current = some (decrypted, room_id) ∧
    (page.broadcast decryptMessageSymmetric message).message_db
      = page.message_db ++ [LocalChatDB.record room_id decrypted] ∧
    (¬ page.Syncing → ∃ manager callback, page.chat_managers[page.current]? = some manager ∧
      manager.message_callback = some callback ∧
      (page.broadcast decryptMessageSymmetric message).delivered
        = page.delivered ++ [{ callback, message := decrypted, room_id }])

/-- On a page where the last manager is registered. -/
theorem OneListener.handled_iff (h : page.OneListener) (hregistered : page.Registered page.current)
    {message : IMessage} {decrypted : IMessage} {room_id : String}
    (hdecrypt : page.decryptMessage decryptMessageSymmetric message page.current
      = some (decrypted, room_id)) :
    page.HandledOnce decryptMessageSymmetric message ↔ ∀ i ∈ page.listeners, i ≠ page.current →
      page.decryptMessage decryptMessageSymmetric message i = none := by
  have hmem : page.current ∈ page.listeners := (h.registered _).mpr hregistered
  have hsaved : page.saved decryptMessageSymmetric message page.current
      = some (LocalChatDB.record room_id decrypted) := by
    rw [saved, hdecrypt, Option.map_some]
  have hall := Collection.filterMap_eq_singleton_iff h.nodup hmem hsaved
  have hnone : (∀ i ∈ page.listeners, i ≠ page.current →
      page.saved decryptMessageSymmetric message i = none) ↔
      ∀ i ∈ page.listeners, i ≠ page.current →
        page.decryptMessage decryptMessageSymmetric message i = none := by
    simp only [saved, Option.map_eq_none_iff]
  unfold HandledOnce broadcast
  simp only [foldl_messageHandlerForRooms, List.append_cancel_left_eq]
  rw [← hnone, ← hall]
  constructor
  · rintro ⟨decrypted', room_id', hdecrypt', hone, -⟩
    rw [hdecrypt] at hdecrypt'
    cases hdecrypt'
    exact hone
  · intro hone
    refine ⟨decrypted, room_id, hdecrypt, hone, fun hsync => ?_⟩
    obtain ⟨manager, callback, hmanager, hcallback⟩ := hregistered
    refine ⟨manager, callback, hmanager, hcallback, ?_⟩
    have hquiet : ¬ manager.chatHistoryIsSyncing = true :=
      fun hrunning => hsync ⟨manager, List.mem_of_getElem? hmanager, hrunning⟩
    have hsent : page.sent decryptMessageSymmetric message page.current
        = some { callback, message := decrypted, room_id } := by
      rw [sent, hdecrypt, Option.bind_some, deliver, hmanager, Option.bind_some, if_neg hquiet,
        hcallback, Option.map_some]
    refine (Collection.filterMap_eq_singleton_iff h.nodup hmem hsent).mpr fun i hi hne => ?_
    rw [sent, hnone.mp (hall.mp hone) i hi hne, Option.bind_none]

/-- After any calls, the last `init` and a `receive_message` among them, a broadcast for the current
    profile is handled once exactly when no earlier manager that is registered can decrypt it. -/
theorem handledOnce_iff {before after : List PageEvent} (rooms : Option Rooms)
    (hinit : ∀ e ∈ after, ¬ e.IsInit) (hreceive : ∃ e ∈ after, e.IsReceive) {page : Page}
    (hpage : page = Page.after decryptMessageSymmetric (before ++ .init rooms :: after))
    {message : IMessage}
    (hdecrypts : (page.decryptMessage decryptMessageSymmetric message page.current).isSome) :
    page.HandledOnce decryptMessageSymmetric message ↔ ∀ i ∈ page.listeners, i ≠ page.current →
      page.decryptMessage decryptMessageSymmetric message i = none := by
  obtain ⟨⟨decrypted, room_id⟩, hdecrypt⟩ := Option.isSome_iff_exists.mp hdecrypts
  have hregistered : page.Registered page.current := by
    rw [hpage, Page.after, List.foldl_append, List.foldl_cons]
    exact registered_current hinit (by simp [PageEvent.exec, Page.init]) (Or.inr hreceive)
  exact (hpage ▸ OneListener.after _ : page.OneListener).handled_iff hregistered hdecrypt

end Page

/-! ## Two calls of `init` -/

namespace Demo

def lobby : Rooms :=
  { publicRooms := [{ id := "lobby", symmetric_key := "k" }], privateRooms := [], directRooms := [] }

/-- Messages are sent in the clear, and the key "k" opens them. -/
def openMessage (cyphertext key : String) : Option String :=
  if key = "k" then some cyphertext else none

def greeting : IMessage :=
  { uuid := "u", epoch := 1, chat_type := "PUBLIC", message_content := "hi", timestamp := 1,
    sender := "me" }

/-- The application starts. -/
def start : List PageEvent := [.init (some lobby), .receive_message 0]

end Demo

/-- With the application started once, the message is handled once. -/
theorem Page.handledOnce_start :
    (Page.after Demo.openMessage Demo.start).HandledOnce Demo.openMessage Demo.greeting :=
  (@Page.handledOnce_iff _ [] [.receive_message 0] (some Demo.lobby)
    (by simp [PageEvent.IsInit]) ⟨.receive_message 0, by simp, trivial⟩ _ rfl _ (by decide)).mpr
    (by decide)

/-- Started again on the same page, it saves the message twice. -/
theorem Page.not_handledOnce_restart :
    (((Page.after Demo.openMessage (Demo.start ++ Demo.start)).broadcast
      Demo.openMessage Demo.greeting).message_db.length = 2) ∧
    ¬ ∀ (decryptMessageSymmetric : String → String → Option String)
      (before after : List PageEvent) (rooms : Option Rooms) (message : IMessage),
      (∀ e ∈ after, ¬ e.IsInit) → (∃ e ∈ after, e.IsReceive) →
      ∀ page, page = Page.after decryptMessageSymmetric (before ++ .init rooms :: after) →
      (page.decryptMessage decryptMessageSymmetric message page.current).isSome →
      page.HandledOnce decryptMessageSymmetric message := by
  have htwice : ((Page.after Demo.openMessage (Demo.start ++ Demo.start)).broadcast
      Demo.openMessage Demo.greeting).message_db.length = 2 := by
    decide
  refine ⟨htwice, fun hall => ?_⟩
  obtain ⟨decrypted, room_id, -, hone, -⟩ := hall Demo.openMessage Demo.start
    [.receive_message 0] (some Demo.lobby) Demo.greeting (by simp [PageEvent.IsInit])
    ⟨.receive_message 0, by simp, trivial⟩ _ rfl (by decide)
  have hlength := congrArg List.length hone
  rw [show Demo.start ++ .init (some Demo.lobby) :: [.receive_message 0]
    = Demo.start ++ Demo.start from rfl, htwice, List.length_append, List.length_singleton]
    at hlength
  exact absurd hlength (by decide)

end ZkChat
