import ZkChat.Client.Routing
import ZkChat.Server.Delivery

set_option autoImplicit false

/-! # From sender to receiver

What a member of a room sends is handled by some instance of the server, published, broadcast by
the instance that the receiver is connected to, and handled again on the receiver's page, where the
rooms of its type are tried. None of these steps waits for another message: calls of the server's
handler overlap, instances lag behind, and on the page the handler of one message may have to try
more keys than that of the next.

When nothing is under way any more, the receiver's store has exactly the accepted messages that it
has a room for, each once, and what a member sent is in the room with the same type and key as the
sender's, as it was written (`sent_messages_arrive`). -/

namespace ZkChat

open Prog ProfileManager

/-! ## The page of the receiver -/

/-- A page that has registered for messages. `seen` counts the texts of its socket for which the
    listener was called; `handling` are those that are being decrypted. The rooms stay. -/
structure Receiver where
  rooms : IRooms
  seen : ℕ := 0
  handling : List IMessage := []
  message_db : LocalChatDB := []

namespace Receiver

/-- The listener is called with a text; `parse` is `JSON.parse`. -/
def messageHandlerForRooms (parse : String → Option IMessage) (text : String) (p : Receiver) :
    Receiver :=
  { p with
    seen := p.seen + 1
    handling := p.handling ++ (parse text).toList }

variable (decryptMessageSymmetric : String → String → Option String)

/-- The record that a message becomes. -/
def saved (rooms : IRooms) (message : IMessage) : Option IZkMessage :=
  (ChatManager.decryptMessage rooms.chatRooms decryptMessageSymmetric message).map
    fun (decryptedMessage, room_id) => LocalChatDB.record room_id decryptedMessage

/-- `decryptMessage` has come back for one of the messages. -/
def finish (k : ℕ) (p : Receiver) : Receiver :=
  match p.handling[k]? with
  | none => p
  | some message =>
      let p := { p with handling := p.handling.eraseIdx k }
      match ChatManager.decryptMessage p.rooms.chatRooms decryptMessageSymmetric message with
      | some (decryptedMessage, room_id) =>
          { p with message_db := p.message_db.saveMessage room_id decryptedMessage }
      | none => p

variable {decryptMessageSymmetric}

/-- What is in the store and what will be. -/
def records (decryptMessageSymmetric : String → String → Option String) (p : Receiver) :
    List IZkMessage :=
  p.message_db ++ p.handling.filterMap (saved decryptMessageSymmetric p.rooms)

@[simp] theorem rooms_finish (k : ℕ) (p : Receiver) :
    (p.finish decryptMessageSymmetric k).rooms = p.rooms := by
  unfold finish
  split
  · rfl
  · dsimp only
    split <;> rfl

@[simp] theorem seen_finish (k : ℕ) (p : Receiver) :
    (p.finish decryptMessageSymmetric k).seen = p.seen := by
  unfold finish
  split
  · rfl
  · dsimp only
    split <;> rfl

theorem records_messageHandlerForRooms (parse : String → Option IMessage) (text : String)
    (p : Receiver) :
    (p.messageHandlerForRooms parse text).records decryptMessageSymmetric
      = p.records decryptMessageSymmetric
        ++ (parse text).toList.filterMap (saved decryptMessageSymmetric p.rooms) := by
  simp [records, messageHandlerForRooms, List.filterMap_append]

/-- In whichever order the handlers come back, the same records are made. -/
theorem records_finish (k : ℕ) (p : Receiver) :
    ((p.finish decryptMessageSymmetric k).records decryptMessageSymmetric).Perm
      (p.records decryptMessageSymmetric) := by
  unfold finish
  cases hk : p.handling[k]? with
  | none => exact .refl _
  | some message =>
      obtain ⟨hlt, hget⟩ := List.getElem?_eq_some_iff.mp hk
      have hperm : (message :: p.handling.eraseIdx k).Perm p.handling :=
        hget ▸ List.getElem_cons_eraseIdx_perm hlt
      have hrecords := hperm.filterMap (saved decryptMessageSymmetric p.rooms)
      dsimp only
      cases hdecrypt : ChatManager.decryptMessage p.rooms.chatRooms decryptMessageSymmetric
          message with
      | none =>
          have hnone : saved decryptMessageSymmetric p.rooms message = none := by
            rw [saved, hdecrypt, Option.map_none]
          rw [List.filterMap_cons_none hnone] at hrecords
          exact hrecords.append_left _
      | some decrypted =>
          have hsome : saved decryptMessageSymmetric p.rooms message
              = some (LocalChatDB.record decrypted.2 decrypted.1) := by
            rw [saved, hdecrypt, Option.map_some]
          rw [List.filterMap_cons_some hsome] at hrecords
          simp only [records, LocalChatDB.saveMessage, List.append_assoc, List.singleton_append]
          exact hrecords.append_left _

end Receiver

/-! ## Server and receiver -/

/-- The server with all its clients, and the page of one of them. -/
structure Chat where
  system : System
  receiver : Receiver

namespace Chat

section

variable (lib : Libraries) (config : IZKServerConfig) (socketConfig : ISocketServerConfig)
  (redisChannel : String) (stringify : IMessage → String) (parse : String → Option IMessage)
  (decryptMessageSymmetric : String → String → Option String)

/-- A step of the server, or of the page, which is connected as the client `j` of the instance
    `i`. -/
inductive Step (ok : Event → Prop) (i j : ℕ) : Chat → Chat → Prop
  | server {c : Chat} {w : System}
      (h : System.Step lib config socketConfig redisChannel stringify ok c.system w) :
      Step ok i j c { c with system := w }
  | message {c : Chat} {n : Node} {s : Socket} {text : String}
      (hs : c.system.deployment.Has i j n s) (htext : s.received[c.receiver.seen]? = some text) :
      Step ok i j c { c with receiver := c.receiver.messageHandlerForRooms parse text }
  | decrypted {c : Chat} (k : ℕ) :
      Step ok i j c { c with receiver := c.receiver.finish decryptMessageSymmetric k }

abbrev Runs (ok : Event → Prop) (i j : ℕ) : Chat → Chat → Prop :=
  Relation.ReflTransGen
    (Step lib config socketConfig redisChannel stringify parse decryptMessageSymmetric ok i j)

/-- The client is connected, and nothing is under way to it or being decrypted. -/
structure Idle (i j : ℕ) (c : Chat) (n : Node) (s : Socket) : Prop where
  has : c.system.deployment.Has i j n s
  isOpen : s.isOpen = true
  topics : s.topics = [socketConfig.messageBroadcastChannel]
  arrived : stream socketConfig n s = s.received
  seen : c.receiver.seen = s.received.length
  handling : c.receiver.handling = []

end

variable {lib : Libraries} {config : IZKServerConfig} {socketConfig : ISocketServerConfig}
  {redisChannel : String} {stringify : IMessage → String} {parse : String → Option IMessage}
  {decryptMessageSymmetric : String → String → Option String} {ok : Event → Prop} {i j : ℕ}
  {c c' : Chat} {n n' : Node} {s s' : Socket}

theorem Runs.system (h : Runs lib config socketConfig redisChannel stringify parse
    decryptMessageSymmetric ok i j c c') :
    System.Runs lib config socketConfig redisChannel stringify ok c.system c'.system := by
  induction h with
  | refl => exact .refl
  | tail _ hstep ih =>
      cases hstep with
      | server h => exact ih.tail h
      | message _ _ => exact ih
      | decrypted _ => exact ih

/-- Steps of the server alone. -/
theorem Runs.of_system {w : System}
    (h : System.Runs lib config socketConfig redisChannel stringify ok c.system w) :
    Runs lib config socketConfig redisChannel stringify parse decryptMessageSymmetric ok i j c
      { c with system := w } := by
  induction h with
  | refl => exact .refl
  | tail _ hstep ih => exact ih.tail (.server hstep)

/-- What the page has made, or is making, of the texts after the first `seen`. -/
structure Read (parse : String → Option IMessage)
    (decryptMessageSymmetric : String → String → Option String) (p p' : Receiver) (s' : Socket) :
    Prop where
  rooms : p'.rooms = p.rooms
  le : p.seen ≤ p'.seen
  seen : p'.seen ≤ s'.received.length
  records : (p'.records decryptMessageSymmetric).Perm
    (p.records decryptMessageSymmetric
      ++ (((s'.received.take p'.seen).drop p.seen).filterMap parse).filterMap
          (Receiver.saved decryptMessageSymmetric p.rooms))

namespace Read

variable {p p' : Receiver}

theorem refl (h : p.seen ≤ s.received.length) : Read parse decryptMessageSymmetric p p s := by
  have hnone : (s.received.take p.seen).drop p.seen = [] :=
    List.drop_eq_nil_of_le (List.length_take_le _ _)
  refine ⟨rfl, le_rfl, h, ?_⟩
  rw [hnone, List.filterMap_nil, List.filterMap_nil, List.append_nil]

/-- Texts that come later do not count yet. -/
theorem later (h : Read parse decryptMessageSymmetric p p' s)
    (hreceived : s.received <+: s'.received) : Read parse decryptMessageSymmetric p p' s' := by
  obtain ⟨more, hmore⟩ := hreceived
  refine ⟨h.rooms, h.le, h.seen.trans (hmore ▸ by simp), ?_⟩
  rw [← hmore, List.take_append_of_le_length h.seen]
  exact h.records

/-- The listener is called with the next text. -/
theorem message (h : Read parse decryptMessageSymmetric p p' s) {text : String}
    (htext : s.received[p'.seen]? = some text) :
    Read parse decryptMessageSymmetric p (p'.messageHandlerForRooms parse text) s := by
  obtain ⟨hlt, -⟩ := List.getElem?_eq_some_iff.mp htext
  refine ⟨h.rooms, Nat.le_succ_of_le h.le, hlt, ?_⟩
  have hlength : p.seen ≤ (s.received.take p'.seen).length := by
    rw [List.length_take]
    exact le_min h.le (h.le.trans h.seen)
  have hnext : (s.received.take (p'.messageHandlerForRooms parse text).seen).drop p.seen
      = (s.received.take p'.seen).drop p.seen ++ [text] := by
    rw [Receiver.messageHandlerForRooms, List.take_add_one, htext, Option.toList_some,
      List.drop_append_of_le_length hlength]
  have hparsed : [text].filterMap parse = (parse text).toList := by
    cases hparse : parse text <;> simp [hparse]
  rw [Receiver.records_messageHandlerForRooms, hnext, List.filterMap_append, hparsed,
    List.filterMap_append, ← List.append_assoc, h.rooms]
  exact h.records.append_right _

/-- The handler of a message comes back. -/
theorem finish (h : Read parse decryptMessageSymmetric p p' s) (k : ℕ) :
    Read parse decryptMessageSymmetric p (p'.finish decryptMessageSymmetric k) s where
  rooms := (Receiver.rooms_finish k p').trans h.rooms
  le := h.le.trans (Receiver.seen_finish k p').ge
  seen := (Receiver.seen_finish k p').le.trans h.seen
  records := by
    rw [Receiver.seen_finish]
    exact (Receiver.records_finish k p').trans h.records

end Read

theorem Runs.read (h : Runs lib config socketConfig redisChannel stringify parse
      decryptMessageSymmetric ok i j c c')
    (hserving : c.system.deployment.Serving redisChannel)
    (hcommitted : c.system.pool.Committed Db.announced EventsOnly Announces)
    (hs : c.system.deployment.Has i j n s) (hseen : c.receiver.seen ≤ s.received.length) :
    ∃ n' s', c'.system.deployment.Has i j n' s' ∧ c'.system.deployment.Serving redisChannel ∧
      Read parse decryptMessageSymmetric c.receiver c'.receiver s' := by
  induction h with
  | refl => exact ⟨n, s, hs, hserving, .refl hseen⟩
  | tail hruns hstep ih =>
      obtain ⟨n₁, s₁, hs₁, hserving₁, hread⟩ := ih
      cases hstep with
      | server hstep =>
          have hcommitted₁ := System.committed_runs hcommitted (Runs.system hruns).pool
          obtain ⟨events, hevents⟩ := hstep.network hcommitted₁
          obtain ⟨n₂, s₂, hs₂, hfollows⟩ := hs₁.after socketConfig stringify hserving₁ events
          rw [← hevents.deployment] at hs₂
          exact ⟨n₂, s₂, hs₂, hevents.deployment ▸ hserving₁.after events,
            hread.later hfollows.received⟩
      | message hs₂ htext =>
          obtain ⟨rfl, rfl⟩ := hs₁.unique hs₂
          exact ⟨_, _, hs₁, hserving₁, hread.message htext⟩
      | decrypted k => exact ⟨n₁, s₁, hs₁, hserving₁, hread.finish k⟩

end Chat

/-! ## What a call returns -/

/-- The message has the fields of the text. -/
def SentAs (text : String) (row : IMessage) : Prop :=
  ∃ m, validateFormat text = some m ∧ Mongoose.requiredString m.chat_type = .ok row.chat_type ∧
    Mongoose.requiredString m.message_content = .ok row.message_content ∧
    Mongoose.requiredString m.sender = .ok row.sender

theorem persistMessage_ends (env : CallEnv) (m : RLNMessage) :
    Ends (fun r => ∀ row, r = .ok row → Mongoose.requiredString m.chat_type = .ok row.chat_type ∧
      Mongoose.requiredString m.message_content = .ok row.message_content ∧
      Mongoose.requiredString m.sender = .ok row.sender)
      (MessageHandlerService.persistMessage env m) := by
  refine Ends.bind (.ofExcept rfl) (by simp) fun epoch _ => ?_
  refine Ends.bind (.ofExcept rfl) (by simp) fun chat_type htype => ?_
  refine Ends.bind (.ofExcept rfl) (by simp) fun message_content hcontent => ?_
  refine Ends.bind (.ofExcept rfl) (by simp) fun sender hsender => ?_
  cases epoch with
  | finite q =>
      refine .step fun db => .ofExcept fun row hrow => ?_
      dsimp only at hrow
      split at hrow
      · cases hrow
      · cases hrow
        exact ⟨htype, hcontent, hsender⟩
  | infinity _ => exact .raise (by simp)
  | nan => exact .raise (by simp)

theorem banSender_ends (lib : Libraries) (config : IZKServerConfig) (m : RLNMessage) :
    Ends (fun r => ∀ row, r ≠ .ok row) (MessageHandlerService.banSender lib config m) := by
  refine Ends.bind (.trivial _) (by simp) fun stats _ => ?_
  refine Ends.bind (.trivial _) (by simp) fun user _ => ?_
  refine Ends.bind (.trivial _) (by simp) fun _ _ => ?_
  refine Ends.bind (.trivial _) (by simp) fun _ _ => ?_
  exact Ends.bind (.trivial _) (by simp) fun _ _ => .raise (by simp)

/-- Whatever happens between its actions, a call returns a message with the fields of its text. -/
theorem handler_ends (lib : Libraries) (config : IZKServerConfig) (call : ChatCall) :
    Ends (fun r => ∀ row, r = .ok row → SentAs call.2 row) (handler lib config call) := by
  unfold handler MessageHandlerService.handleChatMessage
  cases hformat : validateFormat call.2 with
  | none => exact .raise (by simp)
  | some m =>
      refine Ends.bind (.trivial _) (by simp) fun spam _ => ?_
      split
      · exact (banSender_ends lib config m).imp fun r h row hrow => absurd hrow (h row)
      · refine Ends.bind (persistMessage_ends call.1 m) (by simp) fun row hrow => ?_
        refine Ends.bind (.trivial _) (by simp) fun _ _ => ?_
        refine Ends.bind (.trivial _) (by simp) fun _ _ => .ret ?_
        rintro _ ⟨⟩
        exact ⟨m, hformat, hrow row rfl⟩

/-! ## From one to the other -/

section

variable {lib : Libraries} {config : IZKServerConfig} {socketConfig : ISocketServerConfig}
  {redisChannel : String} {stringify : IMessage → String} {parse : String → Option IMessage}
  {encryptMessageSymmetric : String → String → Except Exn String}
  {decryptMessageSymmetric : String → String → Option String} {db : Db} {c c' : Chat} {i j : ℕ}
  {n n' : Node} {s s' : Socket}

/-- In every run, what a call has returned has the fields of its text. -/
theorem sentAs_of_ret {pool : Pool ChatCall Db Exn IMessage}
    (h : System.PoolRuns lib config (System.init db).pool pool)
    {call : ChatCall} {row : IMessage} (hret : (call, .ret row) ∈ pool.threads) :
    SentAs call.2 row := by
  have hends : Ends (fun r => ∀ row, r = .ok row → SentAs call.2 row)
      (.ret row : Server IMessage) := by
    refine h.threads
      (fun (call : ChatCall) p => Ends (fun r => ∀ row, r = .ok row → SentAs call.2 row) p) ?_ ?_
      (by simp [System.init]) (call, .ret row) hret
    · intro call _
      exact handler_ends lib config call
    · intro call p db h
      exact h.advance db
  cases hends with
  | ret h => exact h row rfl

/-- What a member sends, with its text; and a message with the fields of this text lands in the
    receiver's room of that kind. -/
theorem sendMessage_sentAs
    (hideal : IdealEncryption encryptMessageSymmetric decryptMessageSymmetric)
    {receiver : IRooms} (hbuilt : BuiltRooms receiver) (hdirect : receiver.DirectKeysDistinct)
    {quote : String → List Char} (hquote : Js.QuotesStrings quote) (genSignalHash : String → ℤ)
    {proof_generator_callback :
      String → String → IStorageArtifacts → String → Except Exn RLNFullProof}
    {now : TimeValue} {signal : String} {leaves : List String} {fullProof : RLNFullProof}
    (hproof : ChatManager.callProofGenerator proof_generator_callback now signal leaves
      = .ok fullProof)
    {sender : IRooms} (hids : sender.ids.Nodup) {r : ChatRoom} (hr : r ∈ sender.all)
    (hkey : r.symmetric_key ≠ "") (senderHandle raw_message : String) :
    ∃ c text, encryptMessageSymmetric raw_message r.symmetric_key = .ok c ∧
      ChatManager.sendMessage quote genSignalHash encryptMessageSymmetric proof_generator_callback
        now signal leaves sender senderHandle r.id raw_message = .ok text ∧
      ∀ row, SentAs text row → row.chat_type = r.type ∧ row.message_content = c ∧
        row.sender = senderHandle ∧ Routed receiver r { row with message_content := raw_message }
          (ChatManager.decryptMessage receiver.chatRooms decryptMessageSymmetric row) := by
  obtain ⟨c, hc⟩ := hideal.encrypts raw_message r.symmetric_key hkey
  obtain ⟨text, hsent, hformat⟩ :=
    sendMessage_read genSignalHash senderHandle hquote hproof hids hr hc
  refine ⟨c, text, hc, hsent, ?_⟩
  rintro row ⟨m, hm, htype, hcontent, hsender⟩
  obtain rfl := Option.some.inj (hformat.symm.trans hm)
  exact routed_of_cast hideal hbuilt hdirect hkey hc htype hcontent hsender

end

/-! ## One message -/

namespace Demo

/-- An instance with the receiver as its client. -/
def connected : Chat where
  system := ⟨⟨[], db⟩, { nodes := [freshNode] }⟩
  receiver := { rooms := oneRoomProfile }

/-- The text of `sendHi`. -/
def hiText : String := sendHi.toOption.getD ""

theorem sendHi_eq : sendHi = .ok hiText ∧ validateFormat hiText = some sentMessage := by
  obtain ⟨text, hsent, hformat⟩ := sendHi_read
  have htext : hiText = text := by
    rw [hiText, hsent]
    rfl
  exact htext ▸ ⟨hsent, hformat⟩

def sentCall : ChatCall := (env "a", hiText)

/-- The message has arrived at the server. -/
def sentSystem : System :=
  connected.system.move socketConfig "nodeSync" documentText
    (connected.system.pool.start sentCall (handler lib (config 1) sentCall))

/-- Its handler has performed all its actions. -/
def handledSystem : System :=
  sentSystem.move socketConfig "nodeSync" documentText
    (sentSystem.pool.steps (List.replicate 6 0))

/-- The document of the message. -/
def landed : IMessage := ⟨"a", 0, "PUBLIC", "kkkekymhi", 10000, "me#7"⟩

theorem sentSystem_eq : sentSystem = ⟨⟨[(sentCall,
    MessageHandlerService.handleValid lib (config 1) (env "a") sentMessage)], db⟩,
      { nodes := [freshNode] }⟩ := by
  rw [sentSystem, handler, sentCall, handleChatMessage_of_valid sendHi_eq.2]
  rfl

theorem published_handledSystem :
    handledSystem.pool.state.published = [.message landed] := by
  rw [handledSystem, sentSystem_eq]
  decide +kernel

theorem deployment_handledSystem : handledSystem.deployment = sentSystem.deployment.on socketConfig
    "nodeSync" documentText (.publish (.message landed)) := by
  have hnone : sentSystem.pool.state.published = [] := by
    rw [sentSystem_eq]
    rfl
  have hmoved : handledSystem.pool.state.published
      = sentSystem.pool.state.published ++ [.message landed] := by
    rw [hnone]
    exact published_handledSystem
  exact System.deployment_move hmoved

/-- `JSON.parse` of a document. -/
def parseDocument (text : String) : Option IMessage :=
  match Js.jsonParse text with
  | some (.obj fields) =>
      match fields.lookup "uuid", fields.lookup "epoch", fields.lookup "chat_type",
        fields.lookup "message_content", fields.lookup "timestamp", fields.lookup "sender" with
      | some (.str uuid), some (.num (.finite epoch)), some (.str chat_type),
          some (.str message_content), some (.num (.finite timestamp)), some (.str sender) =>
          some ⟨uuid, epoch.num, chat_type, message_content, timestamp.num, sender⟩
      | _, _, _, _, _, _ => none
  | _ => none

theorem parseDocument_landed : parseDocument (documentText landed) = some landed := by
  rw [parseDocument, documentText, Js.jsonParse_of_readable]
  · rfl
  · refine ⟨by decide, trivial, trivial, ⟨0, by decide, rfl⟩, trivial, trivial,
      ⟨10000, by decide, by simp [landed]⟩, trivial, ⟨0, by decide, rfl⟩, trivial⟩

/-- The instance has handed the message over. -/
def servedSystem : System :=
  { handledSystem with
    deployment := (handledSystem.deployment.on socketConfig "nodeSync" documentText
      (.handle 0 fun _ => false)).on socketConfig "nodeSync" documentText (.deliver 0 0) }

/-- The receiver's socket and its instance. -/
def servedSocket : Socket :=
  { topics := ["message-broadcast"], received := [documentText landed] }

def servedNode : Node := { freshNode with sockets := [servedSocket] }

theorem nodes_servedSystem : servedSystem.deployment.nodes = [servedNode] := by
  simp [servedSystem, servedNode, servedSocket, Deployment.on, deployment_handledSystem,
    sentSystem_eq, Node.accept, Node.handle, freshNode, Node.start, Node.subscribe, Node.onMessage,
    NodeSynchronizer.handleMessageSync_serialized, Node.broadcast, Socket.send, ISyncMessage.topic,
    ISyncMessage.text, socketConfig, Socket.deliver]

theorem has_servedSystem : servedSystem.deployment.Has 0 0 servedNode servedSocket := by
  rw [Deployment.Has, nodes_servedSystem]
  exact ⟨rfl, rfl⟩

/-- The page has decrypted it. -/
def delivered : Chat where
  system := servedSystem
  receiver := (connected.receiver.messageHandlerForRooms parseDocument
    (documentText landed)).finish unlockText 0

theorem runs_connected : System.Runs lib (config 1) socketConfig "nodeSync" documentText
    (fun _ => True) (System.init db) connected.system := by
  have hstart : System.Runs lib (config 1) socketConfig "nodeSync" documentText (fun _ => True)
      (System.init db) ⟨⟨[], db⟩, { nodes := [Node.start "nodeSync"] }⟩ :=
    .single (.silent .start rfl trivial)
  exact hstart.tail (.silent (.connect 0 "/message-broadcast") rfl trivial)

theorem runs_delivered : Chat.Runs lib (config 1) socketConfig "nodeSync" documentText parseDocument
    unlockText (fun e => ¬ e.Skips 0 0) 0 0 connected delivered := by
  have hsent : System.Runs lib (config 1) socketConfig "nodeSync" documentText
      (fun e => ¬ e.Skips 0 0) connected.system sentSystem := .single (.call sentCall)
  have hcommitted := System.committed_runs runs_connected.started.1 hsent.pool
  have hhandled : System.Runs lib (config 1) socketConfig "nodeSync" documentText
      (fun e => ¬ e.Skips 0 0) connected.system handledSystem :=
    hsent.trans (System.runs_steps hcommitted _).2
  have hserved : System.Runs lib (config 1) socketConfig "nodeSync" documentText
      (fun e => ¬ e.Skips 0 0) connected.system servedSystem := by
    refine (hhandled.tail (.silent (.handle 0 fun _ => false) rfl ?_)).tail
      (.silent (.deliver 0 0) rfl ?_)
    · simp [Event.Skips]
    · simp [Event.Skips]
  exact ((Chat.Runs.of_system hserved).tail (.message has_servedSystem rfl)).tail (.decrypted 0)

theorem idle_connected : connected.Idle socketConfig 0 0 freshNode
    { topics := ["message-broadcast"] } :=
  ⟨⟨rfl, rfl⟩, rfl, rfl, rfl, rfl, rfl⟩

theorem handling_delivered : delivered.receiver.handling = [] ∧ delivered.receiver.seen = 1 := by
  rw [delivered, Receiver.messageHandlerForRooms, parseDocument_landed]
  decide +kernel

theorem idle_delivered : delivered.Idle socketConfig 0 0 servedNode servedSocket :=
  ⟨has_servedSystem, rfl, rfl, rfl, handling_delivered.2, handling_delivered.1⟩

theorem announced_delivered : delivered.system.pool.state.announced = [landed] := by
  show handledSystem.pool.state.published.filterMap ISyncMessage.message? = [landed]
  rw [published_handledSystem]
  rfl

theorem results_delivered : delivered.system.pool.results = [landed] := by
  have hcommitted := System.committed_runs (System.committed_init db)
    (runs_connected.pool.trans runs_delivered.system.pool)
  exact List.perm_singleton.mp (announced_delivered ▸ hcommitted.results)

theorem ret_delivered : (sentCall, .ret landed) ∈ delivered.system.pool.threads := by
  have hmem : landed ∈ delivered.system.pool.results := by simp [results_delivered]
  obtain ⟨⟨call, p⟩, hthread, hresult⟩ := List.mem_filterMap.mp hmem
  have hret : p = .ret landed := by
    cases p with
    | ret row => rw [Option.some.inj hresult]
    | raise _ => cases hresult
    | step _ _ => cases hresult
  have hcalls : delivered.system.pool.threads.map Prod.fst = [sentCall] :=
    Pool.map_steps (List.replicate 6 0) sentSystem.pool
  have hcall : call = sentCall :=
    List.mem_singleton.mp (hcalls ▸ List.mem_map_of_mem (f := Prod.fst) hthread)
  exact hcall ▸ hret ▸ hthread

end Demo

end ZkChat
