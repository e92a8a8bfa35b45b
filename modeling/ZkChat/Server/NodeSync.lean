import ZkChat.Js.JsonRoundTrip
import ZkChat.Server.Db

set_option autoImplicit false

/-! # Several server instances

Clients are connected to one instance and have to see what is accepted at any of them. What an
instance publishes goes to Redis, which hands it to every instance that listens to the channel;
each of them broadcasts it to its own sockets. Between publication and client there are two queues,
the one of the instance's Redis client and the one of the socket, and instances start, stop and
lag behind as they please.

`stream` counts what a client has got together with what is under way to it. It grows by exactly
what is published on the client's topic (`stream_after`), so that clients of any two instances see
the same texts in the same order, and once nothing new is published the queues run dry
(`drained`). -/

namespace ZkChat

/-- Without the port. -/
structure ISocketServerConfig where
  messageChannel : String
  messageBroadcastChannel : String
  updatesChannel : String

/-! ## What is published -/

inductive SyncType where
  | MESSAGE
  | EVENT

/-- The members of the enumeration are numbers. -/
def SyncType.value : SyncType → ℕ
  | .MESSAGE => 0
  | .EVENT => 1

namespace ISyncMessage

def type : ISyncMessage → SyncType
  | .message _ => .MESSAGE
  | .event _ => .EVENT

/-- The field `message`; `stringify` is `JSONBig.stringify` of a stored document. -/
def text (stringify : IMessage → String) : ISyncMessage → String
  | .message m => stringify m
  | .event name => name

/-- The topic on which an instance broadcasts it. -/
def topic (config : ISocketServerConfig) : ISyncMessage → String
  | .message _ => config.messageBroadcastChannel
  | .event _ => config.updatesChannel

end ISyncMessage

/-- `JSON.stringify(message)` of `RedisPubSub.publish`. -/
def RedisPubSub.serialized (stringify : IMessage → String) (m : ISyncMessage) : String :=
  Js.jsonStringify
    (.obj [("type", .num (.finite m.type.value)), ("message", .str (m.text stringify))])

/-! ## The sockets of an instance -/

/-- What `publish` of the socket library gets. -/
structure Frame where
  topic : String
  text : String

/-- A connected client. `pending` is what the instance has sent and the client has not got. -/
structure Socket where
  topics : List String
  isOpen : Bool := true
  pending : List String := []
  received : List String := []
deriving DecidableEq

namespace Socket

/-- A socket over `MAX_BACKPRESSURE` is skipped. -/
def send (skipped : Bool) (f : Frame) (s : Socket) : Socket :=
  if s.isOpen && !skipped && f.topic ∈ s.topics then { s with pending := s.pending ++ [f.text] }
  else s

@[simp] theorem isOpen_send (skipped : Bool) (f : Frame) (s : Socket) :
    (s.send skipped f).isOpen = s.isOpen := by
  rw [send]
  split <;> rfl

def deliver (s : Socket) : Socket :=
  match s.isOpen, s.pending with
  | true, text :: pending => { s with pending, received := s.received ++ [text] }
  | _, _ => s

@[simp] theorem isOpen_deliver (s : Socket) : s.deliver.isOpen = s.isOpen := by
  rw [deliver]
  split <;> rfl

/-- What was under way is lost. -/
def close (s : Socket) : Socket := { s with isOpen := false, pending := [] }

end Socket

namespace SocketServer

/-- The topics that the `open` handler of the route subscribes to; there are three routes. -/
def topics (config : ISocketServerConfig) (path : String) : Option (List String) :=
  if path = "/" ++ config.messageChannel then some []
  else if path = "/" ++ config.messageBroadcastChannel then some [config.messageBroadcastChannel]
  else if path = "/" ++ config.updatesChannel then some [config.updatesChannel]
  else none

/-- `wsApp.publish` takes texts and buffers only. -/
def frame (topic : String) : Option Json → Except Exn Frame
  | some (.str text) => .ok ⟨topic, text⟩
  | _ => .error .typeError

def broadcastMessage (config : ISocketServerConfig) (message : Option Json) : Except Exn Frame :=
  frame config.messageBroadcastChannel message

def broadcastEvent (config : ISocketServerConfig) (event : Option Json) : Except Exn Frame :=
  frame config.updatesChannel event

end SocketServer

namespace NodeSynchronizer

/-- A case of the `switch`. -/
def isCase (type : Option Json) (t : SyncType) : Bool :=
  match type with
  | some (.num (.finite q)) => q = t.value
  | _ => false

def handleMessageSync (config : ISocketServerConfig) (serializedMessage : String) :
    Except Exn Frame :=
  match Js.jsonParse serializedMessage with
  | none => .error .syntaxError
  | some syncMessage => do
      let type ← Js.prop (some syncMessage) "type"
      let message ← Js.prop (some syncMessage) "message"
      if isCase type .MESSAGE then SocketServer.broadcastMessage config message
      else if isCase type .EVENT then SocketServer.broadcastEvent config message
      else SocketServer.broadcastMessage config message

/-- What was published arrives as it was, whatever characters it has. -/
theorem handleMessageSync_serialized (config : ISocketServerConfig)
    (stringify : IMessage → String) (m : ISyncMessage) :
    handleMessageSync config (RedisPubSub.serialized stringify m)
      = .ok ⟨m.topic config, m.text stringify⟩ := by
  rw [handleMessageSync, RedisPubSub.serialized, Js.jsonParse_of_readable]
  · cases m <;> simp [Js.prop, List.lookup_cons, isCase, ISyncMessage.type, SyncType.value,
      SocketServer.broadcastMessage, SocketServer.broadcastEvent, SocketServer.frame,
      ISyncMessage.topic, ISyncMessage.text, bind, Except.bind]
  · refine ⟨by simp, ⟨m.type.value, ?_, rfl⟩, trivial, trivial⟩
    cases m <;> simp [ISyncMessage.type, SyncType.value]

end NodeSynchronizer

/-! ## An instance -/

/-- A server instance. `inbox` is what Redis has sent to its subscribe client, with the channels;
    `listeners` counts the callbacks that `on("message")` has got. -/
structure Node where
  channel : String
  running : Bool := true
  subscribed : List String := []
  listeners : ℕ := 0
  inbox : List (String × String) := []
  sockets : List Socket := []
deriving DecidableEq

namespace Node

/-- `RedisPubSub.subscribe`, with the handler of the synchronizer. -/
def subscribe (n : Node) : Node :=
  { n with subscribed := [n.channel], listeners := n.listeners + 1 }

/-- `initZKChatServer`: the synchronizer subscribes when it is constructed. -/
def start (redisChannel : String) : Node := subscribe { channel := redisChannel }

/-- Redis hands a text to those who listen to its channel. -/
def accept (channel text : String) (n : Node) : Node :=
  if channel ∈ n.subscribed then { n with inbox := n.inbox ++ [(channel, text)] } else n

def broadcast (skipped : ℕ → Bool) (f : Frame) (n : Node) : Node :=
  { n with sockets := n.sockets.mapIdx fun j s => s.send (skipped j) f }

/-- One callback. A text that cannot be handled makes it throw. -/
def onMessage (config : ISocketServerConfig) (skipped : ℕ → Bool) (channel text : String)
    (n : Node) : Node :=
  if n.channel = channel then
    match NodeSynchronizer.handleMessageSync config text with
    | .ok f => n.broadcast skipped f
    | .error _ => n
  else n

/-- The next text of the subscribe client goes to all callbacks. -/
def handle (config : ISocketServerConfig) (skipped : ℕ → Bool) (n : Node) : Node :=
  match n.inbox with
  | [] => n
  | (channel, text) :: inbox =>
      (onMessage config skipped channel text)^[n.listeners] { n with inbox }

def connect (config : ISocketServerConfig) (path : String) (n : Node) : Node :=
  match n.running, SocketServer.topics config path with
  | true, some topics => { n with sockets := n.sockets ++ [{ topics }] }
  | _, _ => n

/-- The process ends. -/
def stop (n : Node) : Node :=
  { n with running := false, subscribed := [], inbox := [], sockets := n.sockets.map Socket.close }

end Node

/-! ## All of them -/

/-- What has been published, and the instances in the order of their starts. -/
structure Deployment where
  nodes : List Node := []
  published : List ISyncMessage := []

/-- What happens next: an instance is started, one publishes, the Redis client of one gets its next
    text, while some of its sockets are skipped, a client connects, gets its next frame or leaves,
    an instance stops. -/
inductive Event where
  | start
  | publish (m : ISyncMessage)
  | handle (i : ℕ) (skipped : ℕ → Bool)
  | connect (i : ℕ) (path : String)
  | deliver (i j : ℕ)
  | close (i j : ℕ)
  | stop (i : ℕ)

section

variable (config : ISocketServerConfig) (redisChannel : String) (stringify : IMessage → String)

namespace Deployment

def on (d : Deployment) : Event → Deployment
  | .start => { d with nodes := d.nodes ++ [Node.start redisChannel] }
  | .publish m =>
      { nodes := d.nodes.map (Node.accept redisChannel (RedisPubSub.serialized stringify m))
        published := d.published ++ [m] }
  | .handle i skipped => { d with nodes := d.nodes.modify i (Node.handle config skipped) }
  | .connect i path => { d with nodes := d.nodes.modify i (Node.connect config path) }
  | .deliver i j =>
      { d with nodes := d.nodes.modify i fun n =>
          { n with sockets := n.sockets.modify j Socket.deliver } }
  | .close i j =>
      { d with nodes := d.nodes.modify i fun n =>
          { n with sockets := n.sockets.modify j Socket.close } }
  | .stop i => { d with nodes := d.nodes.modify i Node.stop }

/-- The state after these events. -/
def after (d : Deployment) (events : List Event) : Deployment :=
  events.foldl (Deployment.on config redisChannel stringify) d

/-- The socket `j` of the instance `i`. -/
def Has (d : Deployment) (i j : ℕ) (n : Node) (s : Socket) : Prop :=
  d.nodes[i]? = some n ∧ n.sockets[j]? = some s

end Deployment

/-- The event passes over the socket. -/
def Event.Skips (i j : ℕ) : Event → Prop
  | .handle i' skipped => i' = i ∧ skipped j = true
  | _ => False

/-! ## The stream of a client -/

/-- What a text in the inbox will be for a socket of these topics. -/
def due (topics : List String) (entry : String × String) : List String :=
  match NodeSynchronizer.handleMessageSync config entry.2 with
  | .ok f => if f.topic ∈ topics then [f.text] else []
  | .error _ => []

/-- What the client has got, what is on the way to it, and what its instance has yet to handle. -/
def stream (n : Node) (s : Socket) : List String :=
  s.received ++ s.pending ++ n.inbox.flatMap (due config s.topics)

/-- What of a publication goes to sockets of these topics. -/
def framesFor (topics : List String) (m : ISyncMessage) : List String :=
  if m.topic config ∈ topics then [m.text stringify] else []

def Event.publications : Event → List ISyncMessage
  | .publish m => [m]
  | _ => []

/-- What holds of an instance in every run. -/
structure Node.Serving (n : Node) : Prop where
  channel : n.channel = redisChannel
  listeners : n.listeners = 1
  inbox : ∀ entry ∈ n.inbox, entry.1 = redisChannel
  subscribed : n.running = true → n.subscribed = [redisChannel]
  stopped : n.running = false → ∀ s ∈ n.sockets, s.isOpen = false

/-- From one state of an instance and a socket of it to a later one, while `new` was published. -/
structure Follows (skipped : Prop) (n n' : Node) (s s' : Socket) (new : List ISyncMessage) :
    Prop where
  topics : s'.topics = s.topics
  received : s.received <+: s'.received
  isOpen : s'.isOpen = true → s.isOpen = true
  sublist : s'.isOpen = true → (stream config n' s').Sublist
    (stream config n s ++ new.flatMap (framesFor config stringify s.topics))
  complete : s'.isOpen = true → ¬ skipped →
    stream config n' s' = stream config n s ++ new.flatMap (framesFor config stringify s.topics)

variable {config redisChannel stringify}

namespace Follows

variable {skipped skipped' : Prop} {n n' n'' : Node} {s s' s'' : Socket}
  {new new' : List ISyncMessage}

theorem of_eq (htopics : s'.topics = s.topics) (hreceived : s.received <+: s'.received)
    (hopen : s'.isOpen = true → s.isOpen = true)
    (hstream : s'.isOpen = true → stream config n' s'
      = stream config n s ++ new.flatMap (framesFor config stringify s.topics)) :
    Follows config stringify skipped n n' s s' new :=
  ⟨htopics, hreceived, hopen, fun h => hstream h ▸ List.Sublist.refl _, fun h _ => hstream h⟩

/-- Neither the socket nor what its instance has yet to handle has changed. -/
theorem of_inbox (h : n'.inbox = n.inbox) : Follows config stringify skipped n n' s s [] :=
  .of_eq rfl List.prefix_rfl id fun _ => by simp [stream, h]

theorem closed (htopics : s'.topics = s.topics) (hreceived : s.received <+: s'.received)
    (h : s'.isOpen = false) :
    Follows config stringify skipped n n' s s' new := by
  have hnot : s'.isOpen ≠ true := by simp [h]
  exact ⟨htopics, hreceived, fun h => absurd h hnot, fun h => absurd h hnot,
    fun h => absurd h hnot⟩

theorem trans (h : Follows config stringify skipped n n' s s' new)
    (h' : Follows config stringify skipped' n' n'' s' s'' new') :
    Follows config stringify (skipped ∨ skipped') n n'' s s'' (new ++ new') := by
  refine ⟨h'.topics.trans h.topics, h.received.trans h'.received,
    fun hopen => h.isOpen (h'.isOpen hopen), ?_, ?_⟩
  · intro hopen
    rw [List.flatMap_append, ← List.append_assoc]
    refine (h'.sublist hopen).trans ?_
    rw [h.topics]
    exact (h.sublist (h'.isOpen hopen)).append_right _
  · intro hopen hskipped
    rw [h'.complete hopen (fun hs => hskipped (.inr hs)),
      h.complete (h'.isOpen hopen) (fun hs => hskipped (.inl hs)), h.topics, List.flatMap_append,
      List.append_assoc]

end Follows

theorem due_serialized (topics : List String) (m : ISyncMessage) :
    due config topics (redisChannel, RedisPubSub.serialized stringify m)
      = framesFor config stringify topics m := by
  simp [due, NodeSynchronizer.handleMessageSync_serialized, framesFor]

/-! ### One event at one instance -/

namespace Node

variable {n : Node} {s : Socket} {j : ℕ}

theorem serving_start : (Node.start redisChannel).Serving redisChannel where
  channel := rfl
  listeners := rfl
  inbox := by simp [Node.start, subscribe]
  subscribed _ := rfl
  stopped h := by simp [Node.start, subscribe] at h

/-- The text is handled once. -/
theorem Serving.handle_cons (h : n.Serving redisChannel) {channel text : String}
    {inbox : List (String × String)} (hinbox : n.inbox = (channel, text) :: inbox)
    (skipped : ℕ → Bool) :
    n.handle config skipped = onMessage config skipped redisChannel text { n with inbox } := by
  have hchannel : channel = redisChannel := h.inbox (channel, text) (by simp [hinbox])
  rw [handle, hinbox]
  simp [h.listeners, hchannel]

variable (config stringify) in
theorem follows_handle (h : n.Serving redisChannel) (hs : n.sockets[j]? = some s)
    (skipped : ℕ → Bool) :
    ∃ s', (n.handle config skipped).sockets[j]? = some s' ∧ s'.isOpen = s.isOpen ∧
      Follows config stringify (skipped j = true) n (n.handle config skipped) s s' [] := by
  cases hinbox : n.inbox with
  | nil =>
      have hsame : n.handle config skipped = n := by rw [handle, hinbox]
      rw [hsame]
      exact ⟨s, hs, rfl, .of_inbox rfl⟩
  | cons entry inbox =>
      obtain ⟨channel, text⟩ := entry
      rw [h.handle_cons hinbox, onMessage, if_pos h.channel]
      cases hframe : NodeSynchronizer.handleMessageSync config text with
      | error e =>
          refine ⟨s, hs, rfl, .of_eq rfl List.prefix_rfl id fun _ => ?_⟩
          simp [stream, hinbox, due, hframe]
      | ok f =>
          refine ⟨s.send (skipped j) f, by simp [broadcast, hs], s.isOpen_send _ f, ?_⟩
          by_cases hsent : s.isOpen = true ∧ skipped j = false ∧ f.topic ∈ s.topics
          · have hsend : s.send (skipped j) f = { s with pending := s.pending ++ [f.text] } := by
              simp [Socket.send, hsent]
            rw [hsend]
            refine .of_eq rfl List.prefix_rfl id fun _ => ?_
            simp [stream, hinbox, due, hframe, hsent.2.2, broadcast]
          · have hsend : s.send (skipped j) f = s := by
              rw [Socket.send, if_neg]
              simpa [and_assoc] using hsent
            rw [hsend]
            refine ⟨rfl, List.prefix_rfl, id, fun _ => ?_, fun hopen hskip => ?_⟩
            · simp only [stream, broadcast, hinbox, List.flatMap_cons, List.flatMap_nil,
                List.append_nil]
              exact (List.sublist_append_right _ _).append_left _
            · have htopic : f.topic ∉ s.topics := fun hmem =>
                hsent ⟨hopen, by simpa using hskip, hmem⟩
              simp [stream, hinbox, due, hframe, htopic, broadcast]

theorem follows_accept (h : n.Serving redisChannel) (hs : n.sockets[j]? = some s)
    (m : ISyncMessage) {skipped : Prop} :
    Follows config stringify skipped n
      (n.accept redisChannel (RedisPubSub.serialized stringify m)) s s [m] := by
  cases hrunning : n.running with
  | false => exact .closed rfl List.prefix_rfl (h.stopped hrunning s (List.mem_of_getElem? hs))
  | true =>
      refine .of_eq rfl List.prefix_rfl id fun _ => ?_
      simp [accept, h.subscribed hrunning, stream, due_serialized]

theorem follows_connect (hs : n.sockets[j]? = some s) (path : String) {skipped : Prop} :
    (n.connect config path).sockets[j]? = some s ∧
      Follows config stringify skipped n (n.connect config path) s s [] := by
  rw [connect]
  split
  · refine ⟨?_, .of_inbox rfl⟩
    have hlt : j < n.sockets.length := (List.getElem?_eq_some_iff.mp hs).1
    simpa [List.getElem?_append_left hlt] using hs
  · exact ⟨hs, .of_inbox rfl⟩

variable (config stringify) in
theorem follows_deliver (hs : n.sockets[j]? = some s) (k : ℕ) (skipped : Prop) :
    ∃ s', (n.sockets.modify k Socket.deliver)[j]? = some s' ∧ s'.isOpen = s.isOpen ∧
      Follows config stringify skipped n { n with sockets := n.sockets.modify k Socket.deliver }
        s s' [] := by
  rw [List.getElem?_modify, hs]
  by_cases hk : k = j
  · refine ⟨s.deliver, by simp [hk], s.isOpen_deliver, ?_⟩
    rw [Socket.deliver]
    split
    · next text pending _ hpending =>
        exact .of_eq rfl (List.prefix_append _ _) id fun _ => by simp [stream, hpending]
    · exact .of_inbox rfl
  · exact ⟨s, by simp [hk], rfl, .of_inbox rfl⟩

theorem follows_close (hs : n.sockets[j]? = some s) (k : ℕ) {skipped : Prop} :
    ∃ s', (n.sockets.modify k Socket.close)[j]? = some s' ∧
      Follows config stringify skipped n { n with sockets := n.sockets.modify k Socket.close } s s'
        [] := by
  rw [List.getElem?_modify, hs]
  by_cases hk : k = j
  · exact ⟨s.close, by simp [hk], .closed rfl List.prefix_rfl rfl⟩
  · exact ⟨s, by simp [hk], .of_inbox rfl⟩

theorem follows_stop (hs : n.sockets[j]? = some s) {skipped : Prop} :
    n.stop.sockets[j]? = some s.close ∧
      Follows config stringify skipped n n.stop s s.close [] :=
  ⟨by simp [stop, hs], .closed rfl List.prefix_rfl rfl⟩

/-! ### Instances keep serving -/

theorem Serving.accept (h : n.Serving redisChannel) (text : String) :
    (n.accept redisChannel text).Serving redisChannel := by
  rw [Node.accept]
  split
  · refine ⟨h.channel, h.listeners, fun entry hentry => ?_, h.subscribed, h.stopped⟩
    rcases List.mem_append.mp hentry with hentry | hentry
    · exact h.inbox entry hentry
    · simp at hentry
      rw [hentry]
  · exact h

theorem Serving.sockets (h : n.Serving redisChannel) {sockets : List Socket}
    (hclosed : ∀ s' ∈ sockets, s'.isOpen = true → ∃ s ∈ n.sockets, s.isOpen = true) :
    { n with sockets }.Serving redisChannel := by
  refine ⟨h.channel, h.listeners, h.inbox, h.subscribed, fun hstopped s' hs' => ?_⟩
  by_contra hopen
  obtain ⟨s, hs, hsopen⟩ := hclosed s' hs' (by simpa using hopen)
  simp [h.stopped hstopped s hs] at hsopen

theorem Serving.handle (h : n.Serving redisChannel) (skipped : ℕ → Bool) :
    (n.handle config skipped).Serving redisChannel := by
  cases hinbox : n.inbox with
  | nil =>
      have hsame : n.handle config skipped = n := by rw [Node.handle, hinbox]
      rwa [hsame]
  | cons entry inbox =>
      obtain ⟨channel, text⟩ := entry
      have hrest : { n with inbox }.Serving redisChannel :=
        ⟨h.channel, h.listeners, fun entry hentry => h.inbox entry (by simp [hinbox, hentry]),
          h.subscribed, h.stopped⟩
      rw [h.handle_cons hinbox, onMessage, if_pos h.channel]
      split
      · next f _ =>
          refine hrest.sockets fun s' hs' hopen => ?_
          obtain ⟨j, hlt, rfl⟩ := List.mem_mapIdx.mp hs'
          refine ⟨n.sockets[j], List.getElem_mem hlt, ?_⟩
          simpa using hopen
      · exact hrest

theorem Serving.connect (h : n.Serving redisChannel) (path : String) :
    (n.connect config path).Serving redisChannel := by
  rw [Node.connect]
  split
  · next hrunning _ =>
      exact ⟨h.channel, h.listeners, h.inbox, h.subscribed, fun hstopped => by
        simp [hrunning] at hstopped⟩
  · exact h

theorem Serving.modify (h : n.Serving redisChannel) (j : ℕ) {f : Socket → Socket}
    (hf : ∀ s, (f s).isOpen = true → s.isOpen = true) :
    { n with sockets := n.sockets.modify j f }.Serving redisChannel := by
  refine h.sockets fun s' hs' hopen => ?_
  obtain ⟨k, hk⟩ := List.getElem?_of_mem hs'
  rw [List.getElem?_modify] at hk
  obtain ⟨s, hs, rfl⟩ := Option.map_eq_some_iff.mp hk
  refine ⟨s, List.mem_of_getElem? hs, ?_⟩
  split at hopen
  · exact hf s hopen
  · exact hopen

theorem Serving.stop (h : n.Serving redisChannel) : n.stop.Serving redisChannel where
  channel := h.channel
  listeners := h.listeners
  inbox := by simp [Node.stop]
  subscribed hrunning := by simp [Node.stop] at hrunning
  stopped _ s hs := by
    obtain ⟨s, -, rfl⟩ := List.mem_map.mp hs
    rfl

end Node

namespace Deployment

variable {d : Deployment} {i j : ℕ} {n : Node} {s : Socket}

/-- Every instance serves. -/
def Serving (redisChannel : String) (d : Deployment) : Prop :=
  ∀ n ∈ d.nodes, n.Serving redisChannel

theorem Serving.modify (h : d.Serving redisChannel) (i : ℕ) {f : Node → Node}
    (hf : ∀ n : Node, n.Serving redisChannel → (f n).Serving redisChannel) :
    { d with nodes := d.nodes.modify i f }.Serving redisChannel := by
  intro n' hn'
  obtain ⟨k, hk⟩ := List.getElem?_of_mem hn'
  rw [List.getElem?_modify] at hk
  obtain ⟨n, hn, rfl⟩ := Option.map_eq_some_iff.mp hk
  have hserving := h n (List.mem_of_getElem? hn)
  split
  · exact hf n hserving
  · exact hserving

theorem Serving.on (h : d.Serving redisChannel) (e : Event) :
    (d.on config redisChannel stringify e).Serving redisChannel := by
  cases e with
  | start =>
      intro n hn
      rcases List.mem_append.mp hn with hn | hn
      · exact h n hn
      · exact List.mem_singleton.mp hn ▸ Node.serving_start
  | publish m =>
      intro n' hn'
      obtain ⟨n, hn, rfl⟩ := List.mem_map.mp hn'
      exact (h n hn).accept _
  | handle i skipped => exact h.modify i fun n hn => hn.handle skipped
  | connect i path => exact h.modify i fun n hn => hn.connect path
  | deliver i j =>
      exact h.modify i fun n hn => hn.modify j fun s hopen => by simpa using hopen
  | close i j =>
      exact h.modify i fun n hn => hn.modify j fun s hopen => by simp [Socket.close] at hopen
  | stop i => exact h.modify i fun n hn => hn.stop

theorem Serving.after (h : d.Serving redisChannel) (events : List Event) :
    (d.after config redisChannel stringify events).Serving redisChannel := by
  induction events generalizing d with
  | nil => exact h
  | cons e events ih => exact ih (h.on e)

theorem published_on (d : Deployment) (e : Event) :
    (d.on config redisChannel stringify e).published = d.published ++ e.publications := by
  cases e <;> simp [on, Event.publications]

theorem published_after (d : Deployment) (events : List Event) :
    (d.after config redisChannel stringify events).published
      = d.published ++ events.flatMap Event.publications := by
  induction events generalizing d with
  | nil => simp [after]
  | cons e events ih =>
      rw [after, List.foldl_cons, ← after, ih, published_on, List.flatMap_cons, List.append_assoc]

/-- An event at one instance. -/
theorem Has.modify (h : d.Has i j n s) (k : ℕ) {f : Node → Node}
    {R : Node → Node → Socket → Socket → Prop} (hsame : R n n s s)
    (hf : k = i → ∃ s', (f n).sockets[j]? = some s' ∧ R n (f n) s s') :
    ∃ n' s', { d with nodes := d.nodes.modify k f }.Has i j n' s' ∧ R n n' s s' := by
  by_cases hk : k = i
  · obtain ⟨s', hs', hR⟩ := hf hk
    refine ⟨f n, s', ⟨?_, hs'⟩, hR⟩
    rw [List.getElem?_modify, h.1]
    simp [hk]
  · refine ⟨n, s, ⟨?_, h.2⟩, hsame⟩
    rw [List.getElem?_modify, h.1]
    simp [hk]

variable (config stringify) in
/-- One event. -/
theorem Has.on (h : d.Has i j n s) (hserving : d.Serving redisChannel) (e : Event) :
    ∃ n' s', (d.on config redisChannel stringify e).Has i j n' s' ∧
      Follows config stringify (e.Skips i j) n n' s s' e.publications := by
  have hn : n.Serving redisChannel := hserving n (List.mem_of_getElem? h.1)
  cases e with
  | start =>
      refine ⟨n, s, ⟨?_, h.2⟩, .of_inbox rfl⟩
      have hlt : i < d.nodes.length := (List.getElem?_eq_some_iff.mp h.1).1
      simpa [Deployment.on, List.getElem?_append_left hlt] using h.1
  | publish m =>
      refine ⟨n.accept redisChannel (RedisPubSub.serialized stringify m), s, ⟨?_, ?_⟩,
        Node.follows_accept hn h.2 m⟩
      · simp [Deployment.on, h.1]
      · rw [Node.accept]
        split <;> exact h.2
  | handle k skipped =>
      refine h.modify k (R := fun n n' s s' => Follows config stringify _ n n' s s' [])
        (.of_inbox rfl) fun hk => ?_
      obtain ⟨s', hs', -, hfollows⟩ := Node.follows_handle config stringify hn h.2 skipped
      refine ⟨s', hs', hfollows.topics, hfollows.received, hfollows.isOpen, hfollows.sublist,
        fun hopen hskip => ?_⟩
      exact hfollows.complete hopen fun hj => hskip ⟨hk, hj⟩
  | connect k path =>
      exact h.modify k (R := fun n n' s s' => Follows config stringify _ n n' s s' [])
        (.of_inbox rfl) fun _ => ⟨s, Node.follows_connect h.2 path⟩
  | deliver k l =>
      exact h.modify k (R := fun n n' s s' => Follows config stringify _ n n' s s' [])
        (.of_inbox rfl) fun _ =>
          (Node.follows_deliver config stringify h.2 l _).imp fun _ hs' => ⟨hs'.1, hs'.2.2⟩
  | close k l =>
      exact h.modify k (R := fun n n' s s' => Follows config stringify _ n n' s s' [])
        (.of_inbox rfl) fun _ => Node.follows_close h.2 l
  | stop k =>
      exact h.modify k (R := fun n n' s s' => Follows config stringify _ n n' s s' [])
        (.of_inbox rfl) fun _ => ⟨s.close, Node.follows_stop h.2⟩

variable (config stringify) in
/-- A run. -/
theorem Has.after (h : d.Has i j n s) (hserving : d.Serving redisChannel) (events : List Event) :
    ∃ n' s', (d.after config redisChannel stringify events).Has i j n' s' ∧
      Follows config stringify (∃ e ∈ events, e.Skips i j) n n' s s'
        (events.flatMap Event.publications) := by
  induction events generalizing d n s with
  | nil => exact ⟨n, s, h, .of_inbox rfl⟩
  | cons e events ih =>
      obtain ⟨n₁, s₁, h₁, hfollows₁⟩ := h.on config stringify hserving e
      obtain ⟨n₂, s₂, h₂, hfollows₂⟩ := ih h₁ (hserving.on e)
      refine ⟨n₂, s₂, h₂, ?_⟩
      have hboth := hfollows₁.trans hfollows₂
      refine ⟨hboth.topics, hboth.received, hboth.isOpen, by simpa using hboth.sublist,
        fun hopen hskip => ?_⟩
      simpa using hboth.complete hopen fun hs => hskip (by simpa using hs)

theorem Has.unique {n' : Node} {s' : Socket} (h : d.Has i j n s) (h' : d.Has i j n' s') :
    n' = n ∧ s' = s := by
  obtain rfl := Option.some.inj (h.1.symm.trans h'.1)
  exact ⟨rfl, Option.some.inj (h'.2.symm.trans h.2)⟩

/-- The states of runs in which no instance is there at first. -/
inductive Reached (config : ISocketServerConfig) (redisChannel : String)
    (stringify : IMessage → String) : Deployment → Prop
  | init : Reached config redisChannel stringify {}
  | on {d : Deployment} (h : Reached config redisChannel stringify d) (e : Event) :
      Reached config redisChannel stringify (d.on config redisChannel stringify e)

theorem Reached.serving (h : Reached config redisChannel stringify d) :
    d.Serving redisChannel := by
  induction h with
  | init => intro n hn; cases hn
  | on _ e ih => exact ih.on e

end Deployment

section

variable {d : Deployment} {events : List Event} {i j : ℕ} {n n' : Node} {s s' : Socket}

/-- Whatever the instances and clients do meanwhile, what a client that stays connected has got, is
    getting and will get from its instance is extended by what is published on its topic, each text
    once and in the order of the publications; a client that is skipped misses texts but gets no
    other and none twice. -/
theorem stream_after (h : d.Reached config redisChannel stringify) (hs : d.Has i j n s)
    (events : List Event) (hs' : (d.after config redisChannel stringify events).Has i j n' s')
    (hopen : s'.isOpen = true) :
    ∃ new, (d.after config redisChannel stringify events).published = d.published ++ new ∧
      (stream config n' s').Sublist
        (stream config n s ++ new.flatMap (framesFor config stringify s.topics)) ∧
      ((∀ e ∈ events, ¬ e.Skips i j) → stream config n' s'
        = stream config n s ++ new.flatMap (framesFor config stringify s.topics)) := by
  obtain ⟨n₁, s₁, h₁, hfollows⟩ := hs.after config stringify h.serving events
  obtain ⟨rfl, rfl⟩ := h₁.unique hs'
  refine ⟨_, Deployment.published_after d events, hfollows.sublist hopen, fun hskip => ?_⟩
  exact hfollows.complete hopen fun ⟨e, he, hs⟩ => hskip e he hs

/-! ## The queues run dry -/

/-- The event hands something over. -/
inductive Event.Moves (d : Deployment) : Event → Prop
  | handle {i : ℕ} {n : Node} {skipped : ℕ → Bool} (hn : d.nodes[i]? = some n)
      (hinbox : n.inbox ≠ []) : Moves d (.handle i skipped)
  | deliver {i j : ℕ} {n : Node} {s : Socket} (hs : d.Has i j n s) (hopen : s.isOpen = true)
      (hpending : s.pending ≠ []) : Moves d (.deliver i j)

/-- Every event hands something over. -/
inductive Draining (config : ISocketServerConfig) (redisChannel : String)
    (stringify : IMessage → String) : Deployment → List Event → Prop
  | nil (d : Deployment) : Draining config redisChannel stringify d []
  | cons {d : Deployment} {e : Event} {events : List Event} (hmoves : e.Moves d)
      (hrest :
        Draining config redisChannel stringify (d.on config redisChannel stringify e) events) :
      Draining config redisChannel stringify d (e :: events)

/-- There is nothing to hand over. -/
def Deployment.Quiet (d : Deployment) : Prop := ∀ e : Event, ¬ e.Moves d

/-- A text in an inbox is handled once and then delivered once for each socket at most. -/
def Node.work (n : Node) : ℕ :=
  n.inbox.length * (n.sockets.length + 1) + (n.sockets.map (·.pending.length)).sum

def Deployment.work (d : Deployment) : ℕ := (d.nodes.map Node.work).sum

theorem sum_map_modify {α : Type} (g : α → ℕ) (f : α → α) {l : List α} {i : ℕ} {a : α}
    (h : l[i]? = some a) : ((l.modify i f).map g).sum + g a = (l.map g).sum + g (f a) := by
  induction l generalizing i with
  | nil => simp at h
  | cons b l ih =>
      cases i with
      | zero =>
          obtain rfl := Option.some.inj h
          simp
          omega
      | succ i =>
          have := ih (i := i) (by simpa using h)
          simp
          omega

theorem pending_send_le (f : Frame) (skipped : ℕ → Bool) (sockets : List Socket) :
    ((sockets.mapIdx fun j s => s.send (skipped j) f).map (·.pending.length)).sum
      ≤ (sockets.map (·.pending.length)).sum + sockets.length := by
  induction sockets generalizing skipped with
  | nil => simp
  | cons s sockets ih =>
      have hrest := ih fun j => skipped (j + 1)
      have hsend : (s.send (skipped 0) f).pending.length ≤ s.pending.length + 1 := by
        rw [Socket.send]
        split <;> simp
      simp [List.mapIdx_cons]
      omega

variable (config) in
theorem Node.Serving.work_handle (h : n.Serving redisChannel) (hinbox : n.inbox ≠ [])
    (skipped : ℕ → Bool) : (n.handle config skipped).work < n.work := by
  obtain ⟨⟨channel, text⟩, inbox, hcons⟩ := List.exists_cons_of_ne_nil hinbox
  rw [h.handle_cons hcons, onMessage, if_pos h.channel]
  split
  · next f _ =>
      have hsend := pending_send_le f skipped n.sockets
      simp [Node.work, broadcast, hcons, Nat.add_mul]
      omega
  · simp [Node.work, hcons, Nat.add_mul]

variable (config stringify) in
theorem Event.Moves.work {e : Event} (h : e.Moves d) (hserving : d.Serving redisChannel) :
    (d.on config redisChannel stringify e).work < d.work := by
  cases h with
  | @handle i n skipped hn hinbox =>
      have hsum := sum_map_modify Node.work (Node.handle config skipped) hn
      have hless := (hserving n (List.mem_of_getElem? hn)).work_handle config hinbox skipped
      simp [Deployment.work, Deployment.on]
      omega
  | @deliver i j n s hs hopen hpending =>
      obtain ⟨text, pending, hcons⟩ := List.exists_cons_of_ne_nil hpending
      have hsum := sum_map_modify Node.work
        (fun n => { n with sockets := n.sockets.modify j Socket.deliver }) hs.1
      have hsocket := sum_map_modify (·.pending.length) Socket.deliver hs.2
      have hdeliver : s.deliver.pending.length + 1 = s.pending.length := by
        simp [Socket.deliver, hopen, hcons]
      simp [Node.work] at hsum
      simp [Deployment.work, Deployment.on]
      omega

theorem Event.Moves.publications {e : Event} (h : e.Moves d) : e.publications = [] := by
  cases h <;> rfl

variable (config stringify) in
/-- Handing over closes no socket. -/
theorem Event.Moves.isOpen {e : Event} (h : e.Moves d) (hserving : d.Serving redisChannel)
    (hs : d.Has i j n s) :
    ∃ n' s', (d.on config redisChannel stringify e).Has i j n' s' ∧ s'.isOpen = s.isOpen := by
  cases h with
  | @handle k _ skipped hn hinbox =>
      refine hs.modify k (R := fun _ _ s s' => s'.isOpen = s.isOpen) rfl fun _ => ?_
      obtain ⟨s', hs', hsame, -⟩ := Node.follows_handle config stringify
        (hserving n (List.mem_of_getElem? hs.1)) hs.2 skipped
      exact ⟨s', hs', hsame⟩
  | @deliver k l _ _ hs' hopen hpending =>
      refine hs.modify k (R := fun _ _ s s' => s'.isOpen = s.isOpen) rfl fun _ => ?_
      obtain ⟨s', hs', hsame, -⟩ := Node.follows_deliver config stringify hs.2 l False
      exact ⟨s', hs', hsame⟩

theorem Draining.length_le (h : Draining config redisChannel stringify d events)
    (hserving : d.Serving redisChannel) : events.length ≤ d.work := by
  induction h with
  | nil d => exact Nat.zero_le _
  | cons hmoves _ ih =>
      have hless := hmoves.work config stringify hserving
      have hrest := ih (hserving.on _)
      simp
      omega

theorem Draining.publications (h : Draining config redisChannel stringify d events) :
    events.flatMap Event.publications = [] := by
  induction h with
  | nil d => rfl
  | cons hmoves _ ih => simp [hmoves.publications, ih]

theorem Draining.isOpen (h : Draining config redisChannel stringify d events)
    (hserving : d.Serving redisChannel) (hs : d.Has i j n s) :
    ∃ n' s', (d.after config redisChannel stringify events).Has i j n' s' ∧
      s'.isOpen = s.isOpen := by
  induction h generalizing n s with
  | nil d => exact ⟨n, s, hs, rfl⟩
  | cons hmoves _ ih =>
      obtain ⟨n₁, s₁, h₁, hsame₁⟩ := hmoves.isOpen config stringify hserving hs
      obtain ⟨n₂, s₂, h₂, hsame₂⟩ := ih (hserving.on _) h₁
      exact ⟨n₂, s₂, h₂, hsame₂.trans hsame₁⟩

variable (config) in
theorem Deployment.Quiet.stream_eq (h : d.Quiet) (hs : d.Has i j n s) (hopen : s.isOpen = true) :
    stream config n s = s.received := by
  have hinbox : n.inbox = [] := by
    by_contra hne
    exact h _ (@Event.Moves.handle d i n (fun _ => false) hs.1 hne)
  have hpending : s.pending = [] := by
    by_contra hne
    exact h _ (.deliver hs hopen hne)
  simp [stream, hinbox, hpending]

theorem Deployment.after_append (d : Deployment) (events events' : List Event) :
    d.after config redisChannel stringify (events ++ events')
      = (d.after config redisChannel stringify events).after config redisChannel stringify
          events' := by
  rw [Deployment.after, Deployment.after, Deployment.after, List.foldl_append]

/-- When nothing more is published, in whatever order the instances and sockets hand over what they
    have, they are done after a bounded number of steps; and a client that was idle before has then
    got what was published on its topic since, or some of it in this order if it was skipped. -/
theorem drained (h : d.Reached config redisChannel stringify) (events drain : List Event)
    (hdraining : Draining config redisChannel stringify
      (d.after config redisChannel stringify events) drain) :
    drain.length ≤ (d.after config redisChannel stringify events).work ∧
      (((d.after config redisChannel stringify events).after config redisChannel stringify
          drain).Quiet → ∀ i j n s, d.Has i j n s → n.inbox = [] → s.pending = [] →
        ∀ n₁ s₁, (d.after config redisChannel stringify events).Has i j n₁ s₁ →
          s₁.isOpen = true → ∃ n' s' new, ((d.after config redisChannel stringify events).after
              config redisChannel stringify drain).Has i j n' s' ∧ s'.isOpen = true ∧
            (d.after config redisChannel stringify events).published = d.published ++ new ∧
            s'.received.Sublist
              (s.received ++ new.flatMap (framesFor config stringify s.topics)) ∧
            ((∀ e ∈ events ++ drain, ¬ e.Skips i j) → s'.received
              = s.received ++ new.flatMap (framesFor config stringify s.topics))) := by
  refine ⟨hdraining.length_le (h.serving.after events), fun hquiet => ?_⟩
  intro i j n s hs hinbox hpending n₁ s₁ hs₁ hopen₁
  obtain ⟨n', s', hs', hsame⟩ := hdraining.isOpen (h.serving.after events) hs₁
  have hopen' : s'.isOpen = true := hsame.trans hopen₁
  obtain ⟨n₂, s₂, hs₂, hfollows⟩ := hs.after config stringify h.serving (events ++ drain)
  rw [Deployment.after_append] at hs₂
  obtain ⟨rfl, rfl⟩ := hs₂.unique hs'
  -- nothing is under way to the client, neither before nor after
  have hbefore : stream config n s = s.received := by simp [stream, hinbox, hpending]
  have hafter := hquiet.stream_eq config hs' hopen'
  have hnew : (events ++ drain).flatMap Event.publications
      = events.flatMap Event.publications := by
    rw [List.flatMap_append, hdraining.publications, List.append_nil]
  refine ⟨_, _, events.flatMap Event.publications, hs', hopen', Deployment.published_after d events,
    ?_, fun hskip => ?_⟩
  · rw [← hafter, ← hbefore, ← hnew]
    exact hfollows.sublist hopen'
  · rw [← hafter, ← hbefore, ← hnew]
    exact hfollows.complete hopen' fun ⟨e, he, hskips⟩ => hskip e he hskips

end

end

/-! ## Two instances -/

namespace Demo

def socketConfig : ISocketServerConfig := ⟨"messages", "message-broadcast", "updates"⟩

/-- The text of a document. -/
def documentText (m : IMessage) : String :=
  Js.jsonStringify (.obj [("_id", .str "64b5"), ("uuid", .str m.uuid),
    ("epoch", .num (.finite m.epoch)), ("chat_type", .str m.chat_type),
    ("message_content", .str m.message_content), ("timestamp", .num (.finite m.timestamp)),
    ("sender", .str m.sender), ("__v", .num (.finite 0))])

def chatted : IMessage := ⟨"u1", 10000, "PUBLIC", "aGk=", 12000, "anon"⟩

/-- A client at each of two instances. -/
def twoClients : Deployment := ({} : Deployment).after socketConfig "nodeSync" documentText
  [.start, .start, .connect 0 "/message-broadcast", .connect 1 "/message-broadcast"]

theorem reached_after {d : Deployment} (h : d.Reached socketConfig "nodeSync" documentText)
    (events : List Event) :
    (d.after socketConfig "nodeSync" documentText events).Reached socketConfig "nodeSync"
      documentText := by
  induction events generalizing d with
  | nil => exact h
  | cons e events ih => exact ih (h.on e)

/-- The instance of a client that has just connected. -/
def freshNode : Node :=
  { Node.start "nodeSync" with sockets := [{ topics := ["message-broadcast"] }] }

theorem twoClients_has : twoClients.Has 1 0 freshNode { topics := ["message-broadcast"] } :=
  ⟨rfl, rfl⟩

/-- It has a text to handle, has sent it on, and its client has got it. -/
def toldNode : Node :=
  { freshNode with
    inbox := [("nodeSync", RedisPubSub.serialized documentText (.message chatted))] }

def sentNode : Node :=
  { freshNode with
    sockets := [{ topics := ["message-broadcast"], pending := [documentText chatted] }] }

def doneNode : Node :=
  { freshNode with
    sockets := [{ topics := ["message-broadcast"], received := [documentText chatted] }] }

theorem handle_toldNode : toldNode.handle socketConfig (fun _ => false) = sentNode := by
  simp [Node.handle, toldNode, freshNode, Node.start, Node.subscribe, Node.onMessage,
    NodeSynchronizer.handleMessageSync_serialized, Node.broadcast, Socket.send,
    ISyncMessage.topic, ISyncMessage.text, socketConfig, sentNode]

/-- The events that hand the message over at both instances. -/
def handOver : List Event :=
  [.handle 0 fun _ => false, .handle 1 fun _ => false, .deliver 1 0, .deliver 0 0]

def told : Deployment := { nodes := [toldNode, toldNode], published := [.message chatted] }

theorem told_eq : twoClients.after socketConfig "nodeSync" documentText [.publish (.message chatted)]
    = told := rfl

theorem after_handOver : told.after socketConfig "nodeSync" documentText handOver
    = { nodes := [doneNode, doneNode], published := [.message chatted] } := by
  simp [told, handOver, Deployment.after, Deployment.on, handle_toldNode, sentNode, doneNode,
    Socket.deliver]

theorem draining_handOver : Draining socketConfig "nodeSync" documentText told handOver := by
  refine .cons (.handle (n := toldNode) rfl (by simp [toldNode])) ?_
  refine .cons (.handle (n := toldNode) rfl (by simp [toldNode])) ?_
  simp only [told, Deployment.on, List.modify_zero_cons, List.modify_succ_cons, handle_toldNode]
  refine .cons (.deliver (n := sentNode) ⟨rfl, rfl⟩ rfl (by simp)) ?_
  exact .cons (.deliver (n := sentNode) ⟨rfl, rfl⟩ rfl (by simp)) (.nil _)

theorem has_toldNode : told.Has 1 0 toldNode { topics := ["message-broadcast"] } := ⟨rfl, rfl⟩

theorem quiet_done :
    ({ nodes := [doneNode, doneNode], published := [.message chatted] } : Deployment).Quiet := by
  rintro e (⟨hn, hinbox⟩ | ⟨⟨hn, hs⟩, -, hpending⟩)
  · have hdone := List.mem_of_getElem? hn
    simp at hdone
    simp [hdone, doneNode, freshNode, Node.start, Node.subscribe] at hinbox
  · have hdone := List.mem_of_getElem? hn
    simp at hdone
    have hsocket := List.mem_of_getElem? hs
    simp [hdone, doneNode] at hsocket
    simp [hsocket] at hpending

theorem reached_twoClients : twoClients.Reached socketConfig "nodeSync" documentText :=
  reached_after .init _

/-- A message and an event are published, then a third instance starts. -/
def twoTold : List Event :=
  [.publish (.message chatted), .publish (.event "TREE_UPDATE"), .start]

/-- An instance that has handled none of them yet. -/
def twoToldNode : Node :=
  { freshNode with
    inbox := [("nodeSync", RedisPubSub.serialized documentText (.message chatted)),
      ("nodeSync", RedisPubSub.serialized documentText (.event "TREE_UPDATE"))] }

theorem has_twoToldNode : (twoClients.after socketConfig "nodeSync" documentText twoTold).Has 1 0
    twoToldNode { topics := ["message-broadcast"] } :=
  ⟨rfl, rfl⟩

end Demo

open Demo in
/-- What is under way to a client of the second instance. -/
theorem stream_after_publication :
    stream socketConfig twoToldNode { topics := ["message-broadcast"] } = [documentText chatted] := by
  obtain ⟨new, hnew, -, hstream⟩ :=
    stream_after reached_twoClients twoClients_has twoTold has_twoToldNode rfl
  have hpublished : new = [.message chatted, .event "TREE_UPDATE"] := hnew.symm
  rw [hstream (by simp [twoTold, Event.Skips]), hpublished]
  simp [stream, freshNode, Node.start, Node.subscribe, framesFor, ISyncMessage.topic, socketConfig,
    ISyncMessage.text]

open Demo in
/-- Both instances hand the message over to their clients. -/
theorem drained_publication : ∃ n s,
    (told.after socketConfig "nodeSync" documentText handOver).Has 1 0 n s ∧
      s.received = [documentText chatted] := by
  obtain ⟨-, hquiet⟩ := drained reached_twoClients [.publish (.message chatted)] handOver
    (told_eq ▸ draining_handOver)
  have hdone : (told.after socketConfig "nodeSync" documentText handOver).Quiet := by
    rw [after_handOver]
    exact quiet_done
  obtain ⟨n, s, new, hs, -, hnew, -, hreceived⟩ :=
    hquiet hdone 1 0 _ _ twoClients_has rfl rfl _ _ has_toldNode rfl
  have hpublished : new = [.message chatted] := hnew.symm
  refine ⟨n, s, hs, (hreceived (by simp [handOver, Event.Skips])).trans ?_⟩
  rw [hpublished]
  rfl

end ZkChat
