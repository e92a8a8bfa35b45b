import ZkChat.Lib.Commit
import ZkChat.Server.Concurrency
import ZkChat.Server.NodeSync

set_option autoImplicit false

/-! # From a handled message to the clients

The handlers of all instances work on one store and publish on one channel. A handler returns the
message it was given when it has published it, and it publishes nothing else as a message; the other
work of the server (group syncs, bans, the cleanup job) publishes events only. So the results of the
handlers are the publications, and what a connected client gets are the messages that were accepted,
each once (`accepted_reach_clients`). -/

namespace ZkChat

open Prog

/-- The stored message that is published. -/
def ISyncMessage.message? : ISyncMessage → Option IMessage
  | .message m => some m
  | .event _ => none

/-- The messages among the publications. -/
def Db.announced (db : Db) : List IMessage := db.published.filterMap ISyncMessage.message?

/-! ## The handler -/

/-- Nothing but events is published. -/
def EventsOnly (db db' : Db) : Prop :=
  ∃ names : List String, db'.published = db.published ++ names.map .event

/-- The message is published. -/
def Announces (m : IMessage) (db db' : Db) : Prop :=
  db'.published = db.published ++ [.message m]

namespace EventsOnly

theorem of_eq {db db' : Db} (h : db'.published = db.published) : EventsOnly db db' :=
  ⟨[], by simp [h]⟩

theorem refl (db : Db) : EventsOnly db db := of_eq rfl

theorem announced {db db' : Db} (h : EventsOnly db db') : db'.announced = db.announced := by
  obtain ⟨names, h⟩ := h
  have hnone : (names.map ISyncMessage.event).filterMap ISyncMessage.message? = [] := by
    simp [List.filterMap_map, Function.comp_def, ISyncMessage.message?]
  rw [Db.announced, h, List.filterMap_append, hnone, List.append_nil, Db.announced]

end EventsOnly

theorem announced_loggedBy : Pool.LoggedBy Db.announced EventsOnly Announces where
  quiet _ _ h := h.announced
  appends m db db' h := by
    rw [Db.announced, h, List.filterMap_append]
    rfl

theorem OnlyTree.eventsOnly {db db' : Db} (h : OnlyTree db db') : EventsOnly db db' := by
  obtain ⟨_, rfl⟩ := h
  exact .of_eq rfl

theorem publish_event_eventsOnly (name : String) : Within EventsOnly (publish (.event name)) :=
  .modify fun _ => ⟨[name], rfl⟩

theorem banUser_eventsOnly (idCommitment : String) (secret : ℤ) :
    Within EventsOnly (UserService.banUser idCommitment secret) := by
  refine .bind (.query EventsOnly.refl _) fun found => ?_
  cases found with
  | none => exact .raise _
  | some d => exact .bind (.await fun db => .of_eq (by split <;> rfl)) fun _ => .ret _

theorem saveMessage_eventsOnly (model : StatsModel) (zk_proof epoch x_share : Option Json) :
    Within EventsOnly (model.saveMessage zk_proof epoch x_share) := by
  refine .bind (.ofExcept _) fun _ => .bind (.ofExcept _) fun _ => .bind (.ofExcept _) fun _ =>
    .bind (.ofExcept _) fun _ => .modify fun db => .of_eq ?_
  cases model <;> rfl

theorem persistMessage_eventsOnly (env : CallEnv) (message : RLNMessage) :
    Within EventsOnly (MessageHandlerService.persistMessage env message) := by
  refine .bind (.ofExcept _) fun epoch => .bind (.ofExcept _) fun _ => .bind (.ofExcept _) fun _ =>
    .bind (.ofExcept _) fun _ => ?_
  cases epoch with
  | finite q => exact .await fun db => .of_eq (by split <;> rfl)
  | infinity _ => exact .raise _
  | nan => exact .raise _

section

variable (lib : Libraries) (config : IZKServerConfig)

theorem checkRules_eventsOnly (env : CallEnv) (model : StatsModel)
    (zk_proof epoch x_share : Option Json) :
    Within EventsOnly (checkRules lib config env model zk_proof epoch x_share) := by
  refine (checkRules_readOnly ..).mono ?_
  rintro db db' rfl
  exact .refl db

theorem banSender_commits (message : RLNMessage) :
    Commits EventsOnly Announces (MessageHandlerService.banSender lib config message) := by
  refine .bind ?_ fun _ => .ofExcept_bind fun user _ => ?_
  · exact .bind (.ofExcept _) fun _ => .bind (.ofExcept _) fun _ => .query EventsOnly.refl _
  · exact .bind (banUser_eventsOnly _ _) fun _ =>
      .bind ((updateUser_onlyTree _ _ _ _).mono fun _ _ => OnlyTree.eventsOnly) fun _ =>
        .bind (publish_event_eventsOnly _) fun _ => .raise _

theorem persistAndBroadcast_commits (env : CallEnv) (message : RLNMessage) :
    Commits EventsOnly Announces (MessageHandlerService.persistAndBroadcast env message) := by
  refine .bind (persistMessage_eventsOnly env message) fun persisted => ?_
  exact .bind (saveMessage_eventsOnly _ _ _ _) fun _ => .modify_pure fun _ => rfl

/-- A call of the handler succeeds by publishing its message. -/
theorem handler_commits (call : ChatCall) :
    Commits EventsOnly Announces (handler lib config call) := by
  unfold handler MessageHandlerService.handleChatMessage
  cases validateFormat call.2 with
  | none => exact .raise _
  | some m =>
      refine .bind (checkRules_eventsOnly lib config call.1 _ _ _ _) fun spam => ?_
      split
      · exact banSender_commits lib config m
      · exact persistAndBroadcast_commits call.1 m

end

/-! ## The system -/

/-- The store with the handlers at work on it, and the instances with their clients. -/
structure System where
  pool : Pool ChatCall Db Exn IMessage
  deployment : Deployment

namespace System

variable (lib : Libraries) (config : IZKServerConfig) (socketConfig : ISocketServerConfig)
  (redisChannel : String) (stringify : IMessage → String)

/-- The store and its calls have changed, and what was published by that goes out. -/
def move (w : System) (pool : Pool ChatCall Db Exn IMessage) : System where
  pool := pool
  deployment := w.deployment.after socketConfig redisChannel stringify
    ((pool.state.published.drop w.pool.state.published.length).map .publish)

/-- A call is made, a call performs its next action, something else is done to the store, or
    something happens between the instances and their clients that is `ok`. -/
inductive Step (ok : Event → Prop) : System → System → Prop
  | call {w : System} (call : ChatCall) :
      Step ok w (w.move socketConfig redisChannel stringify
        (w.pool.start call (handler lib config call)))
  | act {w : System} (i : ℕ) :
      Step ok w (w.move socketConfig redisChannel stringify (w.pool.step i))
  | other {w : System} {db : Db} (h : EventsOnly w.pool.state db) :
      Step ok w (w.move socketConfig redisChannel stringify { w.pool with state := db })
  | silent {w : System} (e : Event) (hsilent : e.publications = []) (hok : ok e) :
      Step ok w { w with deployment := w.deployment.on socketConfig redisChannel stringify e }

abbrev Runs (ok : Event → Prop) : System → System → Prop :=
  Relation.ReflTransGen (Step lib config socketConfig redisChannel stringify ok)

/-- Nothing has been published and no instance has been started. -/
def init (db : Db) : System := ⟨⟨[], { db with published := [] }⟩, {}⟩

variable {lib config socketConfig redisChannel stringify} {ok : Event → Prop} {w w' : System}

/-! ### The handlers alone -/

/-- The pool of a run. -/
abbrev PoolRuns (lib : Libraries) (config : IZKServerConfig) :
    Pool ChatCall Db Exn IMessage → Pool ChatCall Db Exn IMessage → Prop :=
  Pool.Runs (handler lib config) (fun _ => True) (fun _ _ => True) EventsOnly

theorem Runs.pool (h : Runs lib config socketConfig redisChannel stringify ok w w') :
    PoolRuns lib config w.pool w'.pool := by
  induction h with
  | refl => exact .refl
  | tail _ hstep ih =>
      cases hstep with
      | call call => exact ih.tail (.start trivial)
      | act i => exact ih.tail (.step trivial)
      | other h => exact ih.tail (.env h)
      | silent _ _ _ => exact ih

/-- The calls of a run commit, so what has returned is what has been announced. -/
theorem committed_runs {pool pool' : Pool ChatCall Db Exn IMessage}
    (hcommitted : pool.Committed Db.announced EventsOnly Announces)
    (h : PoolRuns lib config pool pool') : pool'.Committed Db.announced EventsOnly Announces :=
  hcommitted.runs announced_loggedBy (fun call _ => handler_commits lib config call)
    (fun _ _ h => h.announced) h

/-! ### The log and the network -/

/-- The log of publications grows. -/
def Grows (db db' : Db) : Prop := ∃ new, db'.published = db.published ++ new

theorem grows_step {pool : Pool ChatCall Db Exn IMessage}
    (h : pool.Committed Db.announced EventsOnly Announces) (i : ℕ) :
    Grows pool.state (pool.step i).state := by
  cases hi : pool.threads[i]? with
  | none => exact ⟨[], by rw [Pool.step_of_none hi, List.append_nil]⟩
  | some thread =>
      obtain ⟨call, p⟩ := thread
      rw [Pool.step_of_some hi]
      rcases h.threads _ (List.mem_of_getElem? hi) with ⟨a, hret⟩ | hcommits
      · obtain rfl : p = .ret a := hret
        exact ⟨[], by simp [Prog.advance]⟩
      · have hgrows : Within Grows p := Commits.within hcommits
          (fun _ _ h => h.elim fun _ h => ⟨_, h⟩) (fun _ _ _ h => ⟨_, h⟩)
        exact (hgrows.advance (fun _ => ⟨[], by simp⟩) pool.state).1

variable (socketConfig redisChannel stringify) in
/-- What happened to the instances and their clients, and what was published meanwhile. -/
structure Network (ok : Event → Prop) (w w' : System) (events : List Event) : Prop where
  deployment : w'.deployment = w.deployment.after socketConfig redisChannel stringify events
  published : w'.pool.state.published
    = w.pool.state.published ++ events.flatMap Event.publications
  silent : ∀ e ∈ events, e.publications = [] → ok e

theorem Network.trans {w'' : System} {events events' : List Event}
    (h : Network socketConfig redisChannel stringify ok w w' events)
    (h' : Network socketConfig redisChannel stringify ok w' w'' events') :
    Network socketConfig redisChannel stringify ok w w'' (events ++ events') where
  deployment := by
    rw [h'.deployment, h.deployment, Deployment.after, Deployment.after, Deployment.after,
      List.foldl_append]
  published := by rw [h'.published, h.published, List.flatMap_append, List.append_assoc]
  silent e he := by
    rcases List.mem_append.mp he with he | he
    · exact h.silent e he
    · exact h'.silent e he

/-- What a change of the store has published goes out. -/
theorem network_move {pool : Pool ChatCall Db Exn IMessage} (h : Grows w.pool.state pool.state) :
    ∃ events, Network socketConfig redisChannel stringify ok w
      (w.move socketConfig redisChannel stringify pool) events := by
  obtain ⟨new, hnew⟩ := h
  have hdrop : pool.state.published.drop w.pool.state.published.length = new := by simp [hnew]
  have hflat : (new.map Event.publish).flatMap Event.publications = new := by
    induction new with
    | nil => rfl
    | cons m new ih => simp [Event.publications, List.flatMap_map]
  refine ⟨new.map .publish, ?_, ?_, ?_⟩
  · rw [move, hdrop]
  · rw [hflat]
    exact hnew
  · intro e he hsilent
    obtain ⟨m, -, rfl⟩ := List.mem_map.mp he
    cases hsilent

theorem Step.network (h : Step lib config socketConfig redisChannel stringify ok w w')
    (hcommitted : w.pool.Committed Db.announced EventsOnly Announces) :
    ∃ events, Network socketConfig redisChannel stringify ok w w' events := by
  cases h with
  | call call => exact network_move ⟨[], (List.append_nil _).symm⟩
  | act i => exact network_move (grows_step hcommitted i)
  | other h =>
      obtain ⟨names, hnames⟩ := h
      exact network_move ⟨_, hnames⟩
  | silent e hsilent hok =>
      refine ⟨[e], rfl, by simp [hsilent], fun e' he' _ => ?_⟩
      obtain rfl := List.mem_singleton.mp he'
      exact hok

theorem Runs.network (h : Runs lib config socketConfig redisChannel stringify ok w w')
    (hcommitted : w.pool.Committed Db.announced EventsOnly Announces) :
    ∃ events, Network socketConfig redisChannel stringify ok w w' events := by
  induction h with
  | refl => exact ⟨[], rfl, (List.append_nil _).symm, by simp⟩
  | tail hruns hstep ih =>
      obtain ⟨events, hevents⟩ := ih
      obtain ⟨events', hevents'⟩ := hstep.network (committed_runs hcommitted (Runs.pool hruns))
      exact ⟨_, hevents.trans hevents'⟩

theorem move_self (w : System) : w.move socketConfig redisChannel stringify w.pool = w := by
  simp [move, Deployment.after]

theorem deployment_move {pool : Pool ChatCall Db Exn IMessage} {new : List ISyncMessage}
    (h : pool.state.published = w.pool.state.published ++ new) :
    (w.move socketConfig redisChannel stringify pool).deployment
      = w.deployment.after socketConfig redisChannel stringify (new.map .publish) := by
  simp [move, h]

/-- What two changes publish goes out in turn. -/
theorem move_move {pool pool' : Pool ChatCall Db Exn IMessage} (h : Grows w.pool.state pool.state)
    (h' : Grows pool.state pool'.state) :
    (w.move socketConfig redisChannel stringify pool).move socketConfig redisChannel stringify pool'
      = w.move socketConfig redisChannel stringify pool' := by
  obtain ⟨new, hnew⟩ := h
  obtain ⟨new', hnew'⟩ := h'
  simp [move, Deployment.after, hnew, hnew']

/-- The calls perform actions, in any order. -/
theorem runs_steps (hcommitted : w.pool.Committed Db.announced EventsOnly Announces)
    (schedule : List ℕ) : Grows w.pool.state (w.pool.steps schedule).state ∧
      Runs lib config socketConfig redisChannel stringify ok w
        (w.move socketConfig redisChannel stringify (w.pool.steps schedule)) := by
  induction schedule using List.reverseRecOn with
  | nil =>
      refine ⟨⟨[], (List.append_nil _).symm⟩, ?_⟩
      rw [Pool.steps, List.foldl_nil, move_self]
  | append_singleton schedule i ih =>
      obtain ⟨hgrows, hruns⟩ := ih
      have hcommitted' : (w.pool.steps schedule).Committed Db.announced EventsOnly Announces :=
        committed_runs hcommitted hruns.pool
      have hstep := grows_step hcommitted' i
      have hlast : w.pool.steps (schedule ++ [i]) = (w.pool.steps schedule).step i := by
        simp [Pool.steps]
      rw [hlast, ← move_move hgrows hstep]
      refine ⟨?_, hruns.tail (.act i)⟩
      obtain ⟨new, hnew⟩ := hgrows
      obtain ⟨new', hnew'⟩ := hstep
      exact ⟨new ++ new', hnew'.trans (by simp [hnew])⟩

theorem committed_init (db : Db) :
    (init db).pool.Committed Db.announced EventsOnly Announces := .of_nil rfl

/-- What goes to a client of the broadcast channel are the messages among the publications. -/
theorem framesFor_broadcast
    (hchannels : socketConfig.messageBroadcastChannel ≠ socketConfig.updatesChannel)
    (new : List ISyncMessage) :
    new.flatMap (framesFor socketConfig stringify [socketConfig.messageBroadcastChannel])
      = (new.filterMap ISyncMessage.message?).map stringify := by
  induction new with
  | nil => rfl
  | cons m new ih =>
      rw [List.flatMap_cons, ih]
      cases m with
      | message m => simp [framesFor, ISyncMessage.topic, ISyncMessage.text, ISyncMessage.message?]
      | event name => simp [framesFor, ISyncMessage.topic, hchannels.symm,
          List.filterMap_cons_none (show ISyncMessage.message? (.event name) = none from rfl)]

/-- In a run from the beginning. -/
theorem Runs.started {db : Db}
    (h : Runs lib config socketConfig redisChannel stringify ok (init db) w) :
    w.pool.Committed Db.announced EventsOnly Announces ∧ w.deployment.Serving redisChannel := by
  obtain ⟨events, hevents⟩ := h.network (committed_init db)
  refine ⟨committed_runs (committed_init db) h.pool, ?_⟩
  rw [hevents.deployment]
  refine Deployment.Serving.after ?_ events
  intro n hn
  cases hn

theorem Network.announced {events : List Event}
    (h : Network socketConfig redisChannel stringify ok w w' events) :
    w'.pool.state.announced = w.pool.state.announced
      ++ (events.flatMap Event.publications).filterMap ISyncMessage.message? := by
  rw [Db.announced, h.published, List.filterMap_append, Db.announced]

variable {i j : ℕ} {n n' : Node} {s s' : Socket}

theorem Network.stream {events : List Event}
    (h : Network socketConfig redisChannel stringify (fun e => ¬ e.Skips i j) w w' events)
    (hchannels : socketConfig.messageBroadcastChannel ≠ socketConfig.updatesChannel)
    (hserving : w.deployment.Serving redisChannel) (hs : w.deployment.Has i j n s)
    (htopics : s.topics = [socketConfig.messageBroadcastChannel])
    (hs' : w'.deployment.Has i j n' s') (hopen : s'.isOpen = true) :
    stream socketConfig n' s' = stream socketConfig n s
      ++ ((events.flatMap Event.publications).filterMap ISyncMessage.message?).map stringify := by
  rw [h.deployment] at hs'
  obtain ⟨n₁, s₁, h₁, hfollows⟩ := hs.after socketConfig stringify hserving events
  obtain ⟨rfl, rfl⟩ := h₁.unique hs'
  rw [hfollows.complete hopen, htopics, framesFor_broadcast hchannels]
  rintro ⟨e, he, hskips⟩
  cases e with
  | handle k skipped => exact h.silent _ he rfl hskips
  | _ => exact hskips

end System

section

variable {lib : Libraries} {config : IZKServerConfig} {socketConfig : ISocketServerConfig}
  {redisChannel : String} {stringify : IMessage → String} {db : Db} {w w' : System} {i j : ℕ}
  {n n' : Node} {s s' : Socket}

/-- However the calls of the handler overlap, and whatever else the server does to its store
    meanwhile, a client that stays connected to any instance and is not skipped is sent exactly the
    messages whose calls have returned, each once. -/
theorem accepted_reach_clients
    (hchannels : socketConfig.messageBroadcastChannel ≠ socketConfig.updatesChannel)
    (hinit : System.Runs lib config socketConfig redisChannel stringify (fun _ => True)
      (System.init db) w)
    (hs : w.deployment.Has i j n s) (htopics : s.topics = [socketConfig.messageBroadcastChannel])
    (hruns : System.Runs lib config socketConfig redisChannel stringify (fun e => ¬ e.Skips i j)
      w w')
    (hs' : w'.deployment.Has i j n' s') (hopen : s'.isOpen = true) :
    ∃ accepted, w'.pool.results.Perm (w.pool.results ++ accepted) ∧
      stream socketConfig n' s' = stream socketConfig n s ++ accepted.map stringify := by
  obtain ⟨hcommitted, hserving⟩ := hinit.started
  obtain ⟨events, hevents⟩ := hruns.network hcommitted
  have hcommitted' := System.committed_runs hcommitted hruns.pool
  refine ⟨(events.flatMap Event.publications).filterMap ISyncMessage.message?, ?_,
    hevents.stream hchannels hserving hs htopics hs' hopen⟩
  refine hcommitted'.results.trans ?_
  rw [hevents.announced]
  exact hcommitted.results.symm.append_right _

end

/-! ## One message -/

namespace Demo

/-- One instance with one client, and a message that has arrived. -/
def arrived : System where
  pool := (Pool.mk [] db).start (env "a", chat 3 0 5 "0" "5")
    (handler lib (config 1) (env "a", chat 3 0 5 "0" "5"))
  deployment := { nodes := [freshNode] }

theorem runs_arrived {ok : Event → Prop} (hok : ∀ e, ok e) :
    System.Runs lib (config 1) socketConfig "nodeSync" documentText ok (System.init db)
      arrived := by
  have hstart : System.Runs lib (config 1) socketConfig "nodeSync" documentText ok (System.init db)
      ⟨⟨[], db⟩, { nodes := [Node.start "nodeSync"] }⟩ := .single (.silent .start rfl (hok _))
  exact (hstart.tail (.silent (.connect 0 "/message-broadcast") rfl (hok _))).tail
    (.call (env "a", chat 3 0 5 "0" "5"))

/-- The call has performed all its actions, and the client's instance has yet to handle the
    message. -/
def handled : System :=
  arrived.move socketConfig "nodeSync" documentText (arrived.pool.steps (List.replicate 6 0))

/-- The same state with the message parsed. -/
theorem arrived_eq : arrived = ⟨⟨[((env "a", chat 3 0 5 "0" "5"),
    MessageHandlerService.handleValid lib (config 1) (env "a") (message 3 0 5 "0" "5"))], db⟩,
      { nodes := [freshNode] }⟩ := by
  have hplain : Js.Unescaped "0" ∧ Js.Unescaped "5" := by decide +kernel
  rw [arrived, handler_chat _ hplain.1 hplain.2]
  rfl

/-- The document of the message. -/
def stored : IMessage := ⟨"a", 0, "PUBLIC", "hi", 10000, "me"⟩

theorem results_handled : handled.pool.results = [stored] := by
  rw [handled, arrived_eq]
  decide +kernel

theorem handled_open : (handled.deployment.nodes[0]?.bind (·.sockets[0]?)).map (·.isOpen)
    = some true := by
  rw [handled, arrived_eq]
  decide +kernel

end Demo

open Demo in
/-- Before the message has reached the client. -/
theorem accepted_reach_one_client : ∃ n s, handled.deployment.Has 0 0 n s ∧
    stream socketConfig n s = [documentText stored] := by
  obtain ⟨s, hs, hopen⟩ := Option.map_eq_some_iff.mp handled_open
  obtain ⟨n, hn, hs⟩ := Option.bind_eq_some_iff.mp hs
  have hinit : System.Runs lib (config 1) socketConfig "nodeSync" documentText (fun _ => True)
      (System.init db) arrived := runs_arrived fun _ => trivial
  refine ⟨n, s, ⟨hn, hs⟩, ?_⟩
  obtain ⟨accepted, hresults, hstream⟩ := accepted_reach_clients (by decide) hinit
    (⟨rfl, rfl⟩ : arrived.deployment.Has 0 0 freshNode _) rfl
    (System.runs_steps hinit.started.1 _).2 ⟨hn, hs⟩ hopen
  have hnone : arrived.pool.results = [] := by
    rw [arrived_eq]
    decide +kernel
  have hsame : [stored].Perm accepted := by
    rw [hnone, List.nil_append] at hresults
    exact results_handled ▸ hresults
  rw [hstream, List.perm_singleton.mp hsame.symm]
  rfl

end ZkChat
