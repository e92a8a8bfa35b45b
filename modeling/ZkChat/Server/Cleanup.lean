import ZkChat.Server.ChatHistory
import ZkChat.Server.Delivery

set_option autoImplicit false

/-! # How long a message is kept

The cleanup job deletes the messages that are older than a number of days, while handlers persist
new ones. A message is published after it was persisted, so whatever a call has returned is in the
store until it is too old, and the history has it (`accepted_in_history`). -/

namespace ZkChat

open Prog

def MS_PER_DAY : ℤ := 24 * 60 * 60 * 1000

/-- `deleteMany({ timestamp: { $lt: timestamp } })`. -/
def Message.deleteMessagesOlderThanDate (timestamp : ℤ) : Server Unit :=
  .modify fun db => { db with messages := db.messages.filter fun m => ¬ m.timestamp < timestamp }

/-- Where the job deletes from when it runs at this time. -/
def timestampToDeleteFrom (deleteMessagesOlderThanDays : ℕ) (timestampNow : ℤ) : ℤ :=
  timestampNow - MS_PER_DAY * deleteMessagesOlderThanDays

/-- One run of the job. -/
def runMessageCleanupJob (deleteMessagesOlderThanDays : ℕ) (timestampNow : ℤ) : Server Unit :=
  Message.deleteMessagesOlderThanDate
    (timestampToDeleteFrom deleteMessagesOlderThanDays timestampNow)

/-! ## The messages of the store -/

section

variable (days : ℕ) (latest : ℤ)

/-- The message is there, or too old by now. -/
def Held (db : Db) (m : IMessage) : Prop :=
  m ∈ db.messages ∨ m.timestamp < timestampToDeleteFrom days latest

/-- What else happens to the store up to now: a run of the job, or something that leaves the
    messages alone. -/
inductive Beside (db : Db) : Db → Prop
  | cleanup {timestampNow : ℤ} (h : timestampNow ≤ latest) :
      Beside db ((runMessageCleanupJob days timestampNow).exec db)
  | other {db' : Db} (hmessages : db'.messages = db.messages) (hevents : EventsOnly db db') :
      Beside db db'

/-- Interference a handler can stand. -/
def KeepsHeld (db db' : Db) : Prop := ∀ m, Held days latest db m → Held days latest db' m

/-- No two messages have one `uuid`. -/
def Db.UniqueMessages (db : Db) : Prop := (db.messages.map (·.uuid)).Nodup

/-- What an action of a handler does: it publishes what is held only. -/
structure Retains (db db' : Db) : Prop where
  held : KeepsHeld days latest db db'
  announced : ∀ m ∈ db'.announced, m ∈ db.announced ∨ Held days latest db m
  unique : db.UniqueMessages → db'.UniqueMessages

/-- What is published is held. -/
structure Retained (db : Db) : Prop where
  unique : db.UniqueMessages
  announced : ∀ m ∈ db.announced, Held days latest db m

variable {days latest} {db db' : Db} {m : IMessage}

theorem Held.of_messages (h : Held days latest db m)
    (hmessages : ∀ m ∈ db.messages, m ∈ db'.messages) : Held days latest db' m :=
  h.imp_left (hmessages m)

theorem Retains.of_messages (hmessages : db'.messages = db.messages) (hevents : EventsOnly db db') :
    Retains days latest db db' where
  held m h := by rwa [Held, hmessages]
  announced m hm := .inl (hevents.announced ▸ hm)
  unique h := by rwa [Db.UniqueMessages, hmessages]

theorem Retains.refl (db : Db) : Retains days latest db db := .of_messages rfl (.refl db)

/-- Those that stay are as they were. -/
theorem Db.UniqueMessages.filter (h : db.UniqueMessages) (p : IMessage → Bool) :
    { db with messages := db.messages.filter p }.UniqueMessages :=
  h.sublist ((List.filter_sublist (p := p)).map _)

/-- The job deletes what is too old. -/
theorem held_cleanup {timestampNow : ℤ} (h : timestampNow ≤ latest) (hm : Held days latest db m) :
    Held days latest ((runMessageCleanupJob days timestampNow).exec db) m := by
  rcases hm with hm | hold
  · by_cases hcut : m.timestamp < timestampToDeleteFrom days timestampNow
    · right
      unfold timestampToDeleteFrom at hcut ⊢
      omega
    · left
      show m ∈ db.messages.filter _
      exact List.mem_filter.mpr ⟨hm, by simpa using hcut⟩
  · exact .inr hold

theorem Beside.announced (h : Beside days latest db db') : db'.announced = db.announced := by
  cases h with
  | cleanup _ => rfl
  | other _ hevents => exact hevents.announced

theorem Beside.retained (h : Beside days latest db db') (hdb : Retained days latest db) :
    Retained days latest db' ∧ KeepsHeld days latest db db' := by
  have hkeeps : KeepsHeld days latest db db' := by
    cases h with
    | cleanup hnow => exact fun m hm => held_cleanup hnow hm
    | other hmessages _ => exact fun m hm => by rwa [Held, hmessages]
  refine ⟨⟨?_, fun m hm => hkeeps m (hdb.announced m (h.announced ▸ hm))⟩, hkeeps⟩
  cases h with
  | cleanup _ => exact hdb.unique.filter _
  | other hmessages _ => rw [Db.UniqueMessages, hmessages]; exact hdb.unique

end

/-! ## The handler -/

section

variable {days : ℕ} {latest : ℤ} {lib : Libraries} {config : IZKServerConfig}

/-- The messages are the same, and only events are published. -/
def SameMessages (db db' : Db) : Prop := db'.messages = db.messages ∧ EventsOnly db db'

theorem SameMessages.refl (db : Db) : SameMessages db db := ⟨rfl, .refl db⟩

theorem OnlyTree.sameMessages {db db' : Db} (h : OnlyTree db db') : SameMessages db db' := by
  refine ⟨?_, h.eventsOnly⟩
  obtain ⟨_, rfl⟩ := h
  rfl

theorem saveMessage_sameMessages (model : StatsModel) (zk_proof epoch x_share : Option Json) :
    Within SameMessages (model.saveMessage zk_proof epoch x_share) := by
  refine .bind (.ofExcept _) fun _ => .bind (.ofExcept _) fun _ => .bind (.ofExcept _) fun _ =>
    .bind (.ofExcept _) fun _ => .modify fun db => ?_
  cases model <;> exact ⟨rfl, .of_eq rfl⟩

theorem banSender_sameMessages (lib : Libraries) (config : IZKServerConfig) (message : RLNMessage) :
    Within SameMessages (MessageHandlerService.banSender lib config message) := by
  have hban : ∀ (idCommitment : String) (secret : ℤ),
      Within SameMessages (UserService.banUser idCommitment secret) := by
    intro idCommitment secret
    refine .bind (.query SameMessages.refl _) fun found => ?_
    cases found with
    | none => exact .raise _
    | some d =>
        refine .bind (.await fun db => ?_) fun _ => .ret _
        split <;> exact ⟨rfl, .of_eq rfl⟩
  refine .bind ?_ fun _ => .bind (.ofExcept _) fun user => .bind (hban _ _) fun _ =>
    .bind ((updateUser_onlyTree _ _ _ _).mono fun _ _ => OnlyTree.sameMessages) fun _ =>
      .bind (.modify fun db => ⟨rfl, ["TREE_UPDATE"], rfl⟩) fun _ => .raise _
  exact .bind (.ofExcept _) fun _ => .bind (.ofExcept _) fun _ => .query SameMessages.refl _

theorem SameMessages.retains {db db' : Db} (h : SameMessages db db') : Retains days latest db db' :=
  .of_messages h.1 h.2

theorem SameMessages.held {db db' : Db} {m : IMessage} (h : SameMessages db db')
    (hm : Held days latest db m) : Held days latest db' m := h.retains.held m hm

/-- What is left to do keeps the message that is to be published. -/
theorem keeps_held {α : Type} {p : Server α} (hp : Within SameMessages p) (m : IMessage) :
    Triple (KeepsHeld days latest) (Retains days latest) (fun _ db => Held days latest db m)
      (fun db => Held days latest db m) p :=
  hp.triple (fun _ _ h => h.retains) (fun _ _ hm hR => hR m hm) fun _ _ hm h => h.held hm

theorem keeps_nothing {α : Type} {p : Server α} (hp : Within SameMessages p) :
    Triple (KeepsHeld days latest) (Retains days latest) (fun _ _ => True) (fun _ => True) p :=
  hp.triple (fun _ _ h => h.retains) (fun _ _ _ _ => trivial) fun _ _ _ _ => trivial

theorem triple_persistMessage (env : CallEnv) (message : RLNMessage) :
    Triple (KeepsHeld days latest) (Retains days latest)
      (fun r db => ∀ m, r = .ok m → Held days latest db m) (fun _ => True)
      (MessageHandlerService.persistMessage env message) := by
  unfold MessageHandlerService.persistMessage
  refine .ofExcept_bind (fun epoch _ => ?_) (fun _ _ _ _ _ h => nomatch h)
  refine .ofExcept_bind (fun chat_type _ => ?_) (fun _ _ _ _ _ h => nomatch h)
  refine .ofExcept_bind (fun message_content _ => ?_) (fun _ _ _ _ _ h => nomatch h)
  refine .ofExcept_bind (fun sender _ => ?_) (fun _ _ _ _ _ h => nomatch h)
  cases epoch with
  | infinity _ => exact .raise fun _ _ _ h => nomatch h
  | nan => exact .raise fun _ _ _ h => nomatch h
  | finite q =>
      refine .await (fun _ _ _ _ => trivial) (fun db _ => ?_) (fun db _ m hm => ?_)
      · split
        · exact .refl db
        · next hfresh =>
            refine ⟨fun m hm => hm.of_messages fun m hm => ?_, fun m hm => .inl hm, fun h => ?_⟩
            · exact List.mem_append_left _ hm
            · rw [Db.UniqueMessages, List.map_append]
              refine List.nodup_append.mpr ⟨h, by simp, ?_⟩
              simpa using hfresh
      · split at hm
        · cases hm
        · obtain rfl := Except.ok.inj hm
          split
          · contradiction
          · exact .inl (List.mem_append_right _ (List.mem_singleton_self _))

/-- A handler publishes what it has persisted, while others delete what is too old. -/
theorem triple_handler (call : ChatCall) :
    Triple (KeepsHeld days latest) (Retains days latest) (fun _ _ => True) (fun _ => True)
      (handler lib config call) := by
  unfold handler MessageHandlerService.handleChatMessage
  cases validateFormat call.2 with
  | none => exact .raise fun _ _ => trivial
  | some m =>
      refine Triple.bind (keeps_nothing ?_) (fun spamRulesViolated => ?_) (fun _ _ _ => trivial)
      · exact (checkRules_readOnly ..).mono fun db db' h => h ▸ SameMessages.refl db
      split
      · exact keeps_nothing (banSender_sameMessages lib config m)
      refine (triple_persistMessage call.1 m).bind (fun persisted => ?_) (fun _ _ _ => trivial)
      refine ((keeps_held (saveMessage_sameMessages _ _ _ _) persisted).pre
        fun db h => h persisted rfl).bind (fun _ => ?_) (fun _ _ _ => trivial)
      refine Triple.bind (Q := fun _ _ => True) ?_ (fun _ => .ret fun _ _ => trivial)
        (fun _ _ _ => trivial)
      refine .modify (fun _ _ hm hR => hR _ hm) (fun db hm => ⟨fun m h => h, ?_, fun h => h⟩)
        (fun _ _ => trivial)
      intro m hmem
      rw [Db.announced, List.filterMap_append] at hmem
      rcases List.mem_append.mp hmem with hmem | hmem
      · exact .inl hmem
      · obtain rfl := List.mem_singleton.mp hmem
        exact .inr hm

theorem handler_guarantee : Pool.Guarantee (handler lib config) (fun _ => True) (fun _ _ => True)
    (Beside days latest) (Retained days latest) (Retains days latest) (KeepsHeld days latest) where
  refl := .refl
  safe call _ _ _ := Safe.of_triple (triple_handler call) trivial
  step db db' hinv hG _ := by
    refine ⟨⟨hG.unique hinv.unique, fun m hm => ?_⟩, hG.held⟩
    rcases hG.announced m hm with hm | hm
    · exact hG.held m (hinv.announced m hm)
    · exact hG.held m hm
  env _ _ hinv henv := henv.retained hinv

/-- However the handlers and the cleanup job overlap: a message whose call has returned, and that
    the job did not have to delete yet, is once in every answer about its time, unless the page is
    full. -/
theorem accepted_in_history {sort : List IMessage → List IMessage} {limit : ℕ}
    {fromTimestamp toTimestamp : ℤ} {db : Db} {pool : Pool ChatCall Db Exn IMessage}
    {r : ITimeRangeMessages} (hsort : ∀ messages, (sort messages).Perm messages)
    (hunique : db.UniqueMessages)
    (hruns : Pool.Runs (handler lib config) (fun _ => True) (fun _ _ => True) (Beside days latest)
      ⟨[], { db with published := [] }⟩ pool)
    (hr : ((timeRangeChatHistory sort limit fromTimestamp toTimestamp).run pool.state).1 = .ok r)
    (hpage : r.messages.length < limit) :
    ∀ m ∈ pool.results, timestampToDeleteFrom days latest ≤ m.timestamp →
      fromTimestamp ≤ m.timestamp → m.timestamp < toTimestamp → r.messages.count m = 1 := by
  intro m hm hkept hfrom hto
  have hinit : Retained days latest { db with published := [] } := ⟨hunique, by simp [Db.announced]⟩
  have hretained := handler_guarantee.inv hinit hruns
  have hcommitted : pool.Committed Db.announced EventsOnly Announces :=
    Pool.Committed.runs announced_loggedBy (fun call _ => handler_commits lib config call)
      (fun _ _ h => h.announced) (.of_nil rfl) hruns
  have hheld : m ∈ pool.state.messages := by
    rcases hretained.announced m (hcommitted.results.mem_iff.mp hm) with h | h
    · exact h
    · omega
  have hanswered : Answered fromTimestamp toTimestamp := by
    by_contra hnot
    obtain ⟨e, he⟩ := run_timeRangeChatHistory_throws sort limit pool.state hnot
    rw [he] at hr
    cases hr
  rw [run_timeRangeChatHistory hanswered] at hr
  obtain rfl := Except.ok.inj hr
  have hall : Message.page sort limit pool.state.messages fromTimestamp toTimestamp
      = sort (Message.inTimeRange pool.state.messages fromTimestamp toTimestamp) := by
    rw [Message.page] at hpage ⊢
    refine List.take_of_length_le ?_
    rw [List.length_take] at hpage
    omega
  show List.count m (Message.page sort limit pool.state.messages fromTimestamp toTimestamp) = 1
  rw [hall, (hsort _).count_eq]
  refine List.count_eq_one_of_mem ?_ (mem_inTimeRange.mpr ⟨hheld, hfrom, hto⟩)
  exact hretained.unique.of_map.filter _

end

namespace Demo

/-- The handler of the message is done, and then the job runs. -/
def cleaned : Pool ChatCall Db Exn IMessage :=
  let pool := arrived.pool.steps [0, 0, 0, 0, 0, 0]
  { pool with state := (runMessageCleanupJob 1 86400000).exec pool.state }

theorem cleaned_runs : Pool.Runs (handler lib (config 1)) (fun _ => True) (fun _ _ => True)
    (Beside 1 86400000) ⟨[], { db with published := [] }⟩ cleaned := by
  have hstart : Pool.Runs (handler lib (config 1)) (fun _ => True) (fun _ _ => True)
      (Beside 1 86400000) ⟨[], { db with published := [] }⟩ arrived.pool :=
    .single (.start trivial)
  exact (hstart.steps (fun _ _ => trivial) _).tail (.env (.cleanup le_rfl))

theorem cleaned_messages : cleaned.state.messages = [stored] := by
  rw [cleaned, arrived_eq]
  decide +kernel

theorem cleaned_results : cleaned.results = [stored] := by
  rw [cleaned, arrived_eq]
  decide +kernel

end Demo

open Demo in
/-- The job runs a day after the beginning of time, and the message came ten seconds after it. -/
theorem accepted_in_history_once :
    (Message.page id ChatService.MESSAGE_COUNT_LIMIT cleaned.state.messages 0 20000).count stored
      = 1 := by
  have hruns := cleaned_runs
  have hmessages := cleaned_messages
  have hresults := cleaned_results
  generalize cleaned = pool at *
  have hanswered : Answered 0 20000 := ⟨by decide, by decide, by decide⟩
  have hfew : (Message.page id ChatService.MESSAGE_COUNT_LIMIT pool.state.messages 0
      20000).length < ChatService.MESSAGE_COUNT_LIMIT := by
    rw [hmessages]
    decide
  have hunique : db.UniqueMessages := by
    unfold Db.UniqueMessages
    decide +kernel
  exact accepted_in_history (fun _ => .refl _) hunique hruns
    (congrArg Prod.fst (run_timeRangeChatHistory hanswered)) hfew stored (by simp [hresults])
    (by decide) (by decide) (by decide)

end ZkChat
