import ZkChat.Client.StoredProfile
import ZkChat.Server.Db

set_option autoImplicit false

/-! # The chat reducer

`ChatReducer` of the app keeps the loaded messages of each room in one object. An action that does
not go wrong changes the entry of each room by itself (`chatReducer_of_harmless`), so it leaves the
rooms alone that it does not name, and actions on different rooms commute. Three things go wrong:
the deletion drops the entries of all other rooms, a load without reset throws for a room without
an entry, and a message for a room whose id is the name of an inherited member throws
(`chatReducer_local_iff`). -/

namespace ZkChat

/-- The own properties of `Object.prototype`, which every object literal inherits. -/
def Js.inheritedNames : List String :=
  ["constructor", "__defineGetter__", "__defineSetter__", "hasOwnProperty", "__lookupGetter__",
    "__lookupSetter__", "isPrototypeOf", "propertyIsEnumerable", "toString", "valueOf", "__proto__",
    "toLocaleString"]

/-! ## The state -/

/-- `{ [id: string]: IMessage[] }`. -/
structure Messages where
  entries : List (String × List IMessage)
  nodup : (entries.map Prod.fst).Nodup

/-- What reading a property of it finds. -/
inductive Messages.Value where
  | messages (l : List IMessage)
  | undefined
  /-- A function, or `Object.prototype` itself. -/
  | inherited

namespace Messages

def empty : Messages := ⟨[], List.nodup_nil⟩

/-- The room's own entry. -/
def entry (history : Messages) (id : String) : Option (List IMessage) := history.entries.lookup id

/-- `history[id]`. -/
def read (history : Messages) (id : String) : Value :=
  match history.entry id with
  | some l => .messages l
  | none => if id ∈ Js.inheritedNames then .inherited else .undefined

/-- `{ ...history, [id]: messages }`. -/
def define (history : Messages) (id : String) (messages : List IMessage) : Messages :=
  ⟨Js.defineProperty history.entries id messages, Js.nodup_defineProperty history.nodup ..⟩

/-- `{ ...history, ...payload }`. -/
def spread (history payload : Messages) : Messages :=
  payload.entries.foldl (fun history f => history.define f.1 f.2) history

/-- Whether the value is truthy. -/
def Value.truthy : Value → Bool
  | undefined => false
  | _ => true

/-- `[...value]`. -/
def Value.spread : Value → Except Exn (List IMessage)
  | messages l => .ok l
  | _ => .error .typeError

end Messages

structure RoomsState where
  rooms : IRooms
  currentActiveRoom : Option ChatRoom
  chatHistory : Messages
  trustedContacts : List ITrustedContact
  chatHistorySyncing : Bool
  stayOnBottom : Bool
  userHandle : String
  loading : Bool

def defaultState : RoomsState where
  rooms := ⟨[], [], []⟩
  currentActiveRoom := none
  chatHistory := .empty
  trustedContacts := []
  chatHistorySyncing := false
  stayOnBottom := true
  userHandle := ""
  loading := false

/-! ## The actions -/

/-- The stages of a promise, with what it resolves to. -/
inductive Lifecycle (π : Type) where
  | start
  | success (payload : π)
  | failure
  | finish

/-- The messages that were asked for, by room. -/
structure LoadedMessages (roomIds : List String) where
  messages : Messages
  asked : ∀ id, messages.entry id ≠ none → id ∈ roomIds

inductive Action where
  | getRooms (stage : Lifecycle IRooms)
  | createPublicRoom (stage : Lifecycle IRoom)
  | createPrivateRoom (stage : Lifecycle IRoom)
  | createDirectRoom (stage : Lifecycle (IDirectRoom String))
  | addActiveChatRoom (room : Option ChatRoom)
  | addMessageToRoom (message : IMessage) (roomId : String)
  | runSyncMessageHistory (stage : Lifecycle Unit)
  | loadMessagesForRoom (roomId : String) (shouldReset : Bool) (stage : Lifecycle (List IMessage))
  | loadMessagesForRooms (roomIds : List String) (stage : Lifecycle (LoadedMessages roomIds))
  | deleteMessagesForRoom (roomId : String) (stage : Lifecycle Unit)
  | getTrustedContacts (stage : Lifecycle ITrustedContactsMap)
  | getUserHandle (stage : Lifecycle String)
  | other

/-- The function for the stage is applied; without one the state stays as it is. -/
def handle {π : Type} (state : RoomsState) (stage : Lifecycle π)
    (start : RoomsState → RoomsState) (success : π → RoomsState → Except Exn RoomsState)
    (finish : RoomsState → RoomsState) : Except Exn RoomsState :=
  match stage with
  | .start => .ok (start state)
  | .success payload => success payload state
  | .failure => .ok state
  | .finish => .ok (finish state)

def ChatReducer (state : RoomsState) : Action → Except Exn RoomsState
  | .getRooms stage =>
      handle state stage id (fun payload prevState => .ok { prevState with rooms := payload }) id
  | .createPublicRoom stage =>
      handle state stage id (fun payload prevState => .ok
        { prevState with
          rooms :=
            { prevState.rooms with publicRooms := prevState.rooms.publicRooms ++ [payload] }
          currentActiveRoom := some (.room payload) }) id
  | .createPrivateRoom stage =>
      handle state stage id (fun payload prevState => .ok
        { prevState with
          rooms :=
            { prevState.rooms with privateRooms := prevState.rooms.privateRooms ++ [payload] }
          currentActiveRoom := some (.room payload) }) id
  | .createDirectRoom stage =>
      handle state stage id (fun payload prevState => .ok
        { prevState with
          rooms :=
            { prevState.rooms with directRooms := prevState.rooms.directRooms ++ [payload] }
          currentActiveRoom := some (.direct payload) }) id
  | .addActiveChatRoom room => .ok { state with currentActiveRoom := room }
  | .addMessageToRoom message roomId => do
      let messages ←
        if (state.chatHistory.read roomId).truthy then do
          let messages ← (state.chatHistory.read roomId).spread
          pure (messages ++ [message])
        else pure [message]
      .ok { state with
            chatHistory := state.chatHistory.define roomId messages
            stayOnBottom := true }
  | .runSyncMessageHistory stage =>
      handle state stage (fun prevState => { prevState with chatHistorySyncing := true })
        (fun _ prevState => .ok prevState)
        (fun prevState => { prevState with chatHistorySyncing := false })
  | .loadMessagesForRoom roomId shouldReset stage =>
      handle state stage (fun prevState => { prevState with loading := true })
        (fun payload prevState => do
          let messages ←
            if shouldReset then pure payload
            else do
              let messages ← (prevState.chatHistory.read roomId).spread
              pure (payload ++ messages)
          .ok { prevState with
                chatHistory := prevState.chatHistory.define roomId messages
                stayOnBottom := false })
        (fun prevState => { prevState with loading := false })
  | .loadMessagesForRooms _ stage =>
      handle state stage id (fun payload prevState => .ok
        { prevState with chatHistory := prevState.chatHistory.spread payload.messages }) id
  | .deleteMessagesForRoom roomId stage =>
      handle state stage id (fun _ prevState => .ok
        { prevState with chatHistory := Messages.empty.define roomId [] }) id
  | .getTrustedContacts stage =>
      handle state stage id (fun payload prevState => .ok
        { prevState with trustedContacts := payload.entries.map Prod.snd }) id
  | .getUserHandle stage =>
      handle state stage id (fun payload prevState => .ok { prevState with userHandle := payload })
        id
  | .other => .ok state

/-- The store after a dispatch; one that throws leaves its state. -/
def dispatch (state : RoomsState) (action : Action) : RoomsState :=
  match ChatReducer state action with
  | .ok state' => state'
  | .error _ => state

def dispatchAll (actions : List Action) (state : RoomsState) : RoomsState :=
  actions.foldl dispatch state

/-! ## What the actions name and write -/

namespace Action

/-- The rooms that the action names. -/
def names : Action → List String
  | addMessageToRoom _ roomId => [roomId]
  | loadMessagesForRoom roomId _ _ => [roomId]
  | loadMessagesForRooms roomIds _ => roomIds
  | deleteMessagesForRoom roomId _ => [roomId]
  | _ => []

/-- The entry of the room `id` after an action that goes well, from its entry before. -/
def writes (id : String) (old : Option (List IMessage)) : Action → Option (List IMessage)
  | addMessageToRoom message roomId => if id = roomId then some (old.getD [] ++ [message]) else old
  | loadMessagesForRoom roomId shouldReset (.success payload) =>
      if id = roomId then some (if shouldReset then payload else payload ++ old.getD []) else old
  | loadMessagesForRooms _ (.success payload) => (payload.messages.entry id).or old
  | deleteMessagesForRoom roomId (.success _) => if id = roomId then some [] else old
  | _ => old

theorem writes_of_not_named {a : Action} {id : String} (h : id ∉ a.names)
    (old : Option (List IMessage)) : a.writes id old = old := by
  cases a with
  | addMessageToRoom message roomId => exact if_neg (by simpa [names] using h)
  | loadMessagesForRoom roomId shouldReset stage =>
      cases stage with
      | success payload => exact if_neg (by simpa [names] using h)
      | _ => rfl
  | loadMessagesForRooms roomIds stage =>
      cases stage with
      | success payload =>
          have hnone : payload.messages.entry id = none :=
            not_not.mp fun hsome => h (payload.asked id hsome)
          rw [writes, hnone, Option.none_or]
      | _ => rfl
  | deleteMessagesForRoom roomId stage =>
      cases stage with
      | success payload => exact if_neg (by simpa [names] using h)
      | _ => rfl
  | _ => rfl

/-- In this state the action does not go wrong. -/
def Harmless (state : RoomsState) : Action → Prop
  | addMessageToRoom _ roomId =>
      state.chatHistory.entry roomId ≠ none ∨ roomId ∉ Js.inheritedNames
  | loadMessagesForRoom roomId false (.success _) => state.chatHistory.entry roomId ≠ none
  | deleteMessagesForRoom roomId (.success _) =>
      ∀ id, id ≠ roomId → state.chatHistory.entry id = none
  | _ => True

/-- The reducer does not throw, and leaves the entries of the rooms that the action does not name
    as they were. -/
def Local (state : RoomsState) (a : Action) : Prop :=
  ∃ state', ChatReducer state a = .ok state' ∧
    ∀ id, id ∉ a.names → state'.chatHistory.entry id = state.chatHistory.entry id

end Action

namespace Messages

variable {history payload : Messages} {id : String}

theorem entry_define (history : Messages) (roomId : String) (messages : List IMessage)
    (id : String) : (history.define roomId messages).entry id
      = if id = roomId then some messages else history.entry id :=
  Js.lookup_defineProperty ..

theorem entry_foldl_define (entries : List (String × List IMessage)) (history : Messages)
    (hnodup : (entries.map Prod.fst).Nodup) (id : String) :
    (entries.foldl (fun history f => history.define f.1 f.2) history).entry id
      = (entries.lookup id).or (history.entry id) := by
  induction entries generalizing history with
  | nil => rfl
  | cons f entries ih =>
      obtain ⟨roomId, messages⟩ := f
      obtain ⟨hnew, hnodup⟩ := List.nodup_cons.mp hnodup
      rw [List.foldl_cons, ih _ hnodup, entry_define, List.lookup_cons]
      by_cases hid : id = roomId
      · subst hid
        rw [Js.lookup_eq_none_iff_not_mem.mpr hnew]
        simp
      · rw [beq_eq_false_iff_ne.mpr hid, if_neg hid]

theorem entry_spread (history payload : Messages) (id : String) :
    (history.spread payload).entry id = (payload.entry id).or (history.entry id) :=
  entry_foldl_define payload.entries history payload.nodup id

theorem read_of_some {l : List IMessage} (h : history.entry id = some l) :
    history.read id = .messages l := by
  rw [read, h]

theorem read_of_none (h : history.entry id = none) :
    history.read id = if id ∈ Js.inheritedNames then .inherited else .undefined := by
  rw [read, h]

/-- Without an own entry there is nothing to spread. -/
theorem spread_read_of_none (h : history.entry id = none) :
    (history.read id).spread = .error .typeError := by
  rw [read_of_none h]
  split <;> rfl

end Messages

/-! ## Each room by itself -/

section Reducer

variable {state : RoomsState}

/-- The list that a message for a room leads to. -/
theorem addMessageToRoom_of_harmless {message : IMessage} {roomId : String}
    (h : (Action.addMessageToRoom message roomId).Harmless state) :
    ChatReducer state (.addMessageToRoom message roomId) = .ok { state with
      chatHistory := state.chatHistory.define roomId
        ((state.chatHistory.entry roomId).getD [] ++ [message])
      stayOnBottom := true } := by
  rw [ChatReducer]
  cases hentry : state.chatHistory.entry roomId with
  | some l =>
      rw [Messages.read_of_some hentry]
      rfl
  | none =>
      have hid : roomId ∉ Js.inheritedNames := h.resolve_left fun hne => hne hentry
      rw [Messages.read_of_none hentry, if_neg hid]
      rfl

theorem addMessageToRoom_throws {message : IMessage} {roomId : String}
    (h : ¬ (Action.addMessageToRoom message roomId).Harmless state) :
    ChatReducer state (.addMessageToRoom message roomId) = .error .typeError := by
  obtain ⟨hentry, hid⟩ := not_or.mp h
  rw [ChatReducer, Messages.read_of_none (not_not.mp hentry), if_pos (not_not.mp hid)]
  rfl

/-- An action that goes well changes the entry of each room by itself. -/
theorem chatReducer_of_harmless {a : Action} (h : a.Harmless state) :
    ∃ state', ChatReducer state a = .ok state' ∧
      ∀ id, state'.chatHistory.entry id = a.writes id (state.chatHistory.entry id) := by
  cases a with
  | addMessageToRoom message roomId =>
      refine ⟨_, addMessageToRoom_of_harmless h, fun id => ?_⟩
      rw [Messages.entry_define, Action.writes]
      split
      · next hid => rw [hid]
      · rfl
  | loadMessagesForRoom roomId shouldReset stage =>
      cases stage with
      | success payload =>
          cases shouldReset with
          | true => exact ⟨_, rfl, fun id => Messages.entry_define ..⟩
          | false =>
              obtain ⟨l, hl⟩ := Option.ne_none_iff_exists'.mp h
              refine ⟨{ state with
                chatHistory := state.chatHistory.define roomId (payload ++ l)
                stayOnBottom := false }, ?_, fun id => ?_⟩
              · rw [ChatReducer, handle, Messages.read_of_some hl]
                rfl
              · rw [Messages.entry_define, Action.writes]
                split
                · next hid =>
                    rw [hid, hl]
                    rfl
                · rfl
      | _ => exact ⟨_, rfl, fun _ => rfl⟩
  | loadMessagesForRooms roomIds stage =>
      cases stage with
      | success payload => exact ⟨_, rfl, fun id => Messages.entry_spread ..⟩
      | _ => exact ⟨_, rfl, fun _ => rfl⟩
  | deleteMessagesForRoom roomId stage =>
      cases stage with
      | success _ =>
          refine ⟨_, rfl, fun id => ?_⟩
          rw [Messages.entry_define, Action.writes]
          split
          · rfl
          · next hid => exact (h id hid).symm
      | _ => exact ⟨_, rfl, fun _ => rfl⟩
  | addActiveChatRoom room => exact ⟨_, rfl, fun _ => rfl⟩
  | other => exact ⟨_, rfl, fun _ => rfl⟩
  | _ stage => cases stage <;> exact ⟨_, rfl, fun _ => rfl⟩

theorem Action.Harmless.local {a : Action} (h : a.Harmless state) : a.Local state := by
  obtain ⟨state', hreduce, hentry⟩ := chatReducer_of_harmless h
  refine ⟨state', hreduce, fun id hid => ?_⟩
  rw [hentry, Action.writes_of_not_named hid]

/-- What goes wrong is seen: the reducer throws, or an entry is lost. -/
theorem not_local_of_not_harmless {a : Action} (h : ¬ a.Harmless state) : ¬ a.Local state := by
  rintro ⟨state', hreduce, hlocal⟩
  cases a with
  | addMessageToRoom message roomId =>
      rw [addMessageToRoom_throws h] at hreduce
      cases hreduce
  | loadMessagesForRoom roomId shouldReset stage =>
      cases stage with
      | success payload =>
          cases shouldReset with
          | true => exact h trivial
          | false =>
              have hthrow := Messages.spread_read_of_none (not_not.mp h)
              rw [ChatReducer, handle, hthrow] at hreduce
              cases hreduce
      | _ => cases shouldReset <;> exact h trivial
  | deleteMessagesForRoom roomId stage =>
      cases stage with
      | success _ =>
          cases hreduce
          refine h fun id hid => ?_
          rw [← hlocal id (by simpa [Action.names] using hid), Messages.entry_define, if_neg hid]
          rfl
      | _ => exact h trivial
  | _ => exact h trivial

theorem local_iff {a : Action} : a.Local state ↔ a.Harmless state :=
  ⟨fun h => by_contra fun hno => not_local_of_not_harmless hno h, Action.Harmless.local⟩

theorem entry_dispatch {a : Action} (h : a.Harmless state) (id : String) :
    (dispatch state a).chatHistory.entry id = a.writes id (state.chatHistory.entry id) := by
  obtain ⟨state', hreduce, hentry⟩ := chatReducer_of_harmless h
  rw [dispatch, hreduce]
  exact hentry id

/-- Actions on different rooms commute: each room is written by one of them at most. -/
theorem dispatch_comm {a b : Action} (hdisjoint : ∀ id ∈ a.names, id ∉ b.names)
    (ha : a.Harmless state) (hab : b.Harmless (dispatch state a)) (hb : b.Harmless state)
    (hba : a.Harmless (dispatch state b)) (id : String) :
    (dispatch (dispatch state a) b).chatHistory.entry id
      = (dispatch (dispatch state b) a).chatHistory.entry id := by
  rw [entry_dispatch hab, entry_dispatch ha, entry_dispatch hba, entry_dispatch hb]
  by_cases hid : id ∈ a.names
  · have hid' := hdisjoint id hid
    rw [Action.writes_of_not_named hid', Action.writes_of_not_named hid']
  · rw [Action.writes_of_not_named hid, Action.writes_of_not_named hid]

end Reducer

/-! ## Runs -/

/-- Every action of the run is local in the state that it meets. -/
def RunLocal : List Action → RoomsState → Prop
  | [], _ => True
  | a :: actions, state => a.Local state ∧ RunLocal actions (dispatch state a)

/-- No action of the run goes wrong. -/
def RunHarmless : List Action → RoomsState → Prop
  | [], _ => True
  | a :: actions, state => a.Harmless state ∧ RunHarmless actions (dispatch state a)

theorem runLocal_iff (actions : List Action) (state : RoomsState) :
    RunLocal actions state ↔ RunHarmless actions state := by
  induction actions generalizing state with
  | nil => exact Iff.rfl
  | cons a actions ih => exact and_congr local_iff (ih (dispatch state a))

/-- From the default state a run is local at every action exactly when no action adds to an
    inherited member, loads without reset into a room without an entry, or deletes while another
    room has an entry. In the state it leads to, actions on different rooms that go well in both
    orders commute. -/
theorem chatReducer_local_iff (actions : List Action) :
    (RunLocal actions defaultState ↔ RunHarmless actions defaultState) ∧
    ∀ a b : Action, (∀ id ∈ a.names, id ∉ b.names) →
      RunHarmless [a, b] (dispatchAll actions defaultState) →
      RunHarmless [b, a] (dispatchAll actions defaultState) →
      ∀ id, (dispatchAll [a, b] (dispatchAll actions defaultState)).chatHistory.entry id
        = (dispatchAll [b, a] (dispatchAll actions defaultState)).chatHistory.entry id := by
  refine ⟨runLocal_iff actions defaultState, ?_⟩
  rintro a b hdisjoint ⟨ha, hab, -⟩ ⟨hb, hba, -⟩ id
  exact dispatch_comm hdisjoint ha hab hb hba id

/-- A message. -/
def hello : IMessage where
  uuid := "1"
  epoch := 0
  chat_type := "PUBLIC"
  message_content := "hello"
  timestamp := 0
  sender := "s"

theorem harmless_addMessageToRoom {roomId : String} (h : roomId ∉ Js.inheritedNames)
    (message : IMessage) (state : RoomsState) :
    (Action.addMessageToRoom message roomId).Harmless state :=
  Or.inr h

/-- Where three rooms have messages, older messages of one of them and messages of another one are
    loaded, in both orders. -/
theorem messages_for_two_rooms_commute :
    let state := dispatchAll [.addMessageToRoom hello "c", .addMessageToRoom hello "a",
      .addMessageToRoom hello "b"] defaultState
    let older := Action.loadMessagesForRoom "a" false (.success [hello, hello])
    let again := Action.loadMessagesForRoom "b" true (.success [hello])
    RunLocal [.addMessageToRoom hello "c", .addMessageToRoom hello "a",
      .addMessageToRoom hello "b"] defaultState ∧
    ∀ id, (dispatchAll [older, again] state).chatHistory.entry id
      = (dispatchAll [again, older] state).chatHistory.entry id := by
  intro state older again
  have hharmless : ∀ roomId ∈ ["a", "b", "c"], ∀ state,
      (Action.addMessageToRoom hello roomId).Harmless state := by
    intro roomId hroom
    exact harmless_addMessageToRoom (by revert roomId; decide) hello
  have hentry : state.chatHistory.entry "a" ≠ none := by
    show (dispatch (dispatch (dispatch defaultState (.addMessageToRoom hello "c"))
      (.addMessageToRoom hello "a")) (.addMessageToRoom hello "b")).chatHistory.entry "a" ≠ none
    rw [entry_dispatch (hharmless _ (by decide) _), entry_dispatch (hharmless _ (by decide) _)]
    simp [Action.writes]
  obtain ⟨hlocal, hcomm⟩ := chatReducer_local_iff [.addMessageToRoom hello "c",
    .addMessageToRoom hello "a", .addMessageToRoom hello "b"]
  refine ⟨hlocal.mpr ⟨hharmless _ (by decide) _, hharmless _ (by decide) _,
    hharmless _ (by decide) _, trivial⟩, hcomm older again ?_ ?_ ?_⟩
  · intro id hid
    rw [List.mem_singleton.mp hid]
    decide
  · exact ⟨hentry, trivial, trivial⟩
  · refine ⟨trivial, ?_, trivial⟩
    show (dispatch state again).chatHistory.entry "a" ≠ none
    rw [entry_dispatch (a := again) trivial]
    simpa [again, Action.writes] using hentry

/-- Deleting the messages of one room drops those of another. -/
theorem delete_drops_other_room : ¬ RunLocal
    [.addMessageToRoom hello "a", .addMessageToRoom hello "b",
      .deleteMessagesForRoom "b" (.success ())] defaultState := by
  rw [runLocal_iff]
  rintro ⟨ha, hb, hdelete, -⟩
  have hlost := hdelete "a" (by decide)
  rw [entry_dispatch hb, entry_dispatch ha] at hlost
  simp [Action.writes] at hlost

end ZkChat
