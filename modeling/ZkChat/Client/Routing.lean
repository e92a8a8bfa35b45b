import ZkChat.Client.ChatManager
import ZkChat.Client.Wire
import ZkChat.Server.Requests

set_option autoImplicit false

/-! # Where a message lands

`sendMessage` names the room by its type and by nothing else; a receiver tries the keys of all its
rooms of that type. With ideal encryption the message shows up in the one room of that type that has
the key, since the add operations keep the keys of public and of private rooms distinct. -/

namespace ZkChat

open Prog ProfileManager

/-! ## The receiver -/

def ChatRoom.toIChatRoom (r : ChatRoom) : IChatRoom := ⟨r.id, r.symmetric_key⟩

/-- The rooms as `decryptMessage` uses them. -/
def IRooms.chatRooms (rooms : IRooms) : Rooms where
  publicRooms := rooms.publicRooms.map (ChatRoom.room · |>.toIChatRoom)
  privateRooms := rooms.privateRooms.map (ChatRoom.room · |>.toIChatRoom)
  directRooms := rooms.directRooms.map (ChatRoom.direct · |>.toIChatRoom)

/-- Each room is in the list of its type. -/
structure IRooms.Typed (rooms : IRooms) : Prop where
  publicRooms : ∀ r ∈ rooms.publicRooms, r.type = "PUBLIC"
  privateRooms : ∀ r ∈ rooms.privateRooms, r.type = "PRIVATE"
  directRooms : ∀ r ∈ rooms.directRooms, r.type = "DIRECT"

/-- The rooms that the add operations make of empty lists. -/
inductive BuiltRooms : IRooms → Prop
  | empty : BuiltRooms ⟨[], [], []⟩
  | addPublicRoom {rooms : IRooms} {room : IRoom} {publicRooms : List IRoom} (h : BuiltRooms rooms)
      (htype : room.type = "PUBLIC")
      (hadd : ProfileManager.addPublicRoom rooms.publicRooms room = .ok publicRooms) :
      BuiltRooms { rooms with publicRooms }
  | addPrivateRoom {rooms : IRooms} {room : IRoom} {privateRooms : List IRoom}
      (h : BuiltRooms rooms)
      (htype : room.type = "PRIVATE")
      (hadd : ProfileManager.addPrivateRoom rooms.privateRooms room = .ok privateRooms) :
      BuiltRooms { rooms with privateRooms }
  | addDirectRoom {rooms : IRooms} {room : IDirectRoom String}
      {directRooms : List (IDirectRoom String)} (h : BuiltRooms rooms)
      (htype : room.type = "DIRECT")
      (hadd : ProfileManager.addDirectRoom rooms.directRooms room = .ok directRooms) :
      BuiltRooms { rooms with directRooms }

/-- No two direct rooms have one key, unless it is still missing. -/
def IRooms.DirectKeysDistinct (rooms : IRooms) : Prop :=
  rooms.directRooms.Pairwise fun q q' => q.symmetric_key = q'.symmetric_key → q.symmetric_key = ""

/-- Ideal authenticated encryption. -/
structure IdealEncryption (encryptMessageSymmetric : String → String → Except Exn String)
    (decryptMessageSymmetric : String → String → Option String) : Prop where
  encrypts : ∀ message key, key ≠ "" → ∃ c, encryptMessageSymmetric message key = .ok c
  decrypts : ∀ {message key c}, encryptMessageSymmetric message key = .ok c →
    decryptMessageSymmetric c key = some message
  authentic : ∀ {message key c}, encryptMessageSymmetric message key = .ok c →
    ∀ key' ≠ key, decryptMessageSymmetric c key' = none

/-- What the receiver makes of a message with this content for rooms like `r`: it is in the one room
    with the type and the key of `r`, or in none if there is none. -/
def Routed (receiver : IRooms) (r : ChatRoom) (message : IMessage)
    (result : Option (IMessage × String)) : Prop :=
  match receiver.all.filter fun q => q.type = r.type ∧ q.symmetric_key = r.symmetric_key with
  | [] => result = none
  | [q] => result = some (message, q.id)
  | _ => False

/-! ## At most one room -/

theorem filter_eq_nil_or_singleton {α : Type} {p : α → Bool} {l : List α}
    (h : l.Pairwise fun a b => p a = true → p b = true → False) :
    l.filter p = [] ∨ ∃ a, l.filter p = [a] := by
  have hfilter := h.filter p
  cases hl : l.filter p with
  | nil => exact .inl rfl
  | cons a rest =>
      cases rest with
      | nil => exact .inr ⟨a, rfl⟩
      | cons b rest =>
          have hmem : ∀ x ∈ a :: b :: rest, p x = true := fun x hx =>
            (List.mem_filter.mp (hl ▸ hx)).2
          rw [hl, List.pairwise_cons] at hfilter
          exact (hfilter.1 b (by simp) (hmem a (by simp)) (hmem b (by simp))).elim

theorem pairwise_addPublicRoom {rooms rooms' : List IRoom} {room : IRoom}
    (h : rooms.Pairwise fun q q' => q.symmetric_key ≠ q'.symmetric_key)
    (hadd : addPublicRoom rooms room = .ok rooms') :
    rooms'.Pairwise fun q q' => q.symmetric_key ≠ q'.symmetric_key := by
  obtain ⟨hnone, rfl⟩ := addUnless_eq_ok.mp hadd
  rw [List.pairwise_append]
  refine ⟨h, by simp, fun q hq q' hq' => ?_⟩
  obtain rfl := List.mem_singleton.mp hq'
  simpa using hnone q hq

theorem findSome?_eq_head? {α β : Type} {g : α → Option β} {p : α → Bool} {f : α → β}
    (h : ∀ a, g a = if p a then some (f a) else none) (l : List α) :
    l.findSome? g = ((l.filter p).map f).head? := by
  induction l with
  | nil => rfl
  | cons a l ih => by_cases ha : p a = true <;> simp [h a, ha, ih]

/-- What the add operations keep. -/
structure KeysDistinct (rooms : IRooms) : Prop extends rooms.Typed where
  distinctPublic : rooms.publicRooms.Pairwise fun q q' => q.symmetric_key ≠ q'.symmetric_key
  distinctPrivate : rooms.privateRooms.Pairwise fun q q' => q.symmetric_key ≠ q'.symmetric_key

theorem BuiltRooms.keysDistinct {rooms : IRooms} (h : BuiltRooms rooms) : KeysDistinct rooms := by
  induction h with
  | empty => exact ⟨⟨by simp, by simp, by simp⟩, .nil, .nil⟩
  | addPublicRoom h htype hadd ih =>
      have hdistinct := pairwise_addPublicRoom ih.distinctPublic hadd
      obtain ⟨-, rfl⟩ := addUnless_eq_ok.mp hadd
      exact
        { ih with
          publicRooms := List.forall_mem_append.mpr ⟨ih.publicRooms, by simpa using htype⟩
          distinctPublic := hdistinct }
  | addPrivateRoom h htype hadd ih =>
      -- both lists are guarded in the same way
      have hdistinct := pairwise_addPublicRoom ih.distinctPrivate hadd
      obtain ⟨-, rfl⟩ := addUnless_eq_ok.mp hadd
      exact
        { ih with
          privateRooms := List.forall_mem_append.mpr ⟨ih.privateRooms, by simpa using htype⟩
          distinctPrivate := hdistinct }
  | addDirectRoom h htype hadd ih =>
      obtain ⟨-, rfl⟩ := addUnless_eq_ok.mp hadd
      exact
        { ih with
          directRooms := List.forall_mem_append.mpr ⟨ih.directRooms, by simpa using htype⟩ }

section

variable {rooms : IRooms}

/-- Among all rooms, type and key determine the room, unless the key is missing. -/
theorem KeysDistinct.pairwise (h : KeysDistinct rooms) (hdirect : rooms.DirectKeysDistinct) :
    rooms.all.Pairwise fun q q' =>
      q.type = q'.type → q.symmetric_key = q'.symmetric_key → q.symmetric_key = "" := by
  rw [IRooms.all, List.pairwise_append, List.pairwise_append]
  simp only [List.pairwise_map, List.mem_map, List.mem_append]
  refine ⟨⟨?_, ?_, ?_⟩, ?_, ?_⟩
  · exact h.distinctPublic.imp fun hne _ heq => absurd heq hne
  · exact h.distinctPrivate.imp fun hne _ heq => absurd heq hne
  · rintro _ ⟨q, hq, rfl⟩ _ ⟨q', hq', rfl⟩ (htype : q.type = q'.type)
    rw [h.publicRooms q hq, h.privateRooms q' hq'] at htype
    exact absurd htype (by decide)
  · refine hdirect.imp fun hkey _ => ?_
    exact hkey
  · rintro _ (⟨q, hq, rfl⟩ | ⟨q, hq, rfl⟩) _ ⟨q', hq', rfl⟩ (htype : q.type = q'.type)
    · rw [h.publicRooms q hq, h.directRooms q' hq'] at htype
      exact absurd htype (by decide)
    · rw [h.privateRooms q hq, h.directRooms q' hq'] at htype
      exact absurd htype (by decide)

theorem filter_type {l : List ChatRoom} {s t : String} (h : ∀ q ∈ l, q.type = s) :
    l.filter (fun q => q.type = t) = if s = t then l else [] := by
  by_cases hst : s = t
  · rw [if_pos hst, List.filter_eq_self]
    exact fun q hq => by simp [h q hq, hst]
  · rw [if_neg hst, List.filter_eq_nil_iff]
    exact fun q hq => by simp [h q hq, hst]

/-- The rooms that are tried are those of the type. -/
theorem getUserRoomsForChatType_chatRooms (h : rooms.Typed) (type : String) :
    getUserRoomsForChatType rooms.chatRooms type
      = (rooms.all.filter fun q => q.type = type).map ChatRoom.toIChatRoom := by
  have hpublic : ∀ q ∈ rooms.publicRooms.map ChatRoom.room, q.type = "PUBLIC" := by
    simpa [ChatRoom.type] using h.publicRooms
  have hprivate : ∀ q ∈ rooms.privateRooms.map ChatRoom.room, q.type = "PRIVATE" := by
    simpa [ChatRoom.type] using h.privateRooms
  have hdirect : ∀ q ∈ rooms.directRooms.map ChatRoom.direct, q.type = "DIRECT" := by
    simpa [ChatRoom.type] using h.directRooms
  rw [IRooms.all, List.filter_append, List.filter_append, filter_type hpublic, filter_type hprivate,
    filter_type hdirect, getUserRoomsForChatType]
  by_cases hp : type = "PUBLIC"
  · subst hp
    simp [IRooms.chatRooms]
  by_cases hq : type = "PRIVATE"
  · subst hq
    simp [IRooms.chatRooms]
  by_cases hd : type = "DIRECT"
  · subst hd
    simp [IRooms.chatRooms]
  · simp [hp, hq, hd, Ne.symm hp, Ne.symm hq, Ne.symm hd]

end

/-! ## What the server hands on -/

section

variable {lib : Libraries} {config : IZKServerConfig} {env : CallEnv} {db db' : Db} {row : IMessage}

theorem persistMessage_fields {m : RLNMessage}
    (h : (MessageHandlerService.persistMessage env m).run db = (.ok row, db')) :
    Mongoose.requiredString m.chat_type = .ok row.chat_type ∧
      Mongoose.requiredString m.message_content = .ok row.message_content ∧
      Mongoose.requiredString m.sender = .ok row.sender := by
  obtain ⟨epoch, -, h⟩ := run_ofExcept_bind_ok_iff.mp h
  obtain ⟨chat_type, htype, h⟩ := run_ofExcept_bind_ok_iff.mp h
  obtain ⟨message_content, hcontent, h⟩ := run_ofExcept_bind_ok_iff.mp h
  obtain ⟨sender, hsender, h⟩ := run_ofExcept_bind_ok_iff.mp h
  cases epoch with
  | infinity negative => exact absurd h run_throw_ne_ok
  | nan => exact absurd h run_throw_ne_ok
  | finite q =>
      rw [run_await] at h
      split at h
      · cases h
      · cases h
        exact ⟨htype, hcontent, hsender⟩

/-- The message that a call returns is the one it publishes, with the fields of what was sent. -/
theorem handleChatMessage_ok {text : String}
    (h : (MessageHandlerService.handleChatMessage lib config env text).run db = (.ok row, db')) :
    ISyncMessage.message row ∈ db'.published ∧ ∃ m, validateFormat text = some m ∧
      Mongoose.requiredString m.chat_type = .ok row.chat_type ∧
      Mongoose.requiredString m.message_content = .ok row.message_content ∧
      Mongoose.requiredString m.sender = .ok row.sender := by
  unfold MessageHandlerService.handleChatMessage at h
  cases hformat : validateFormat text with
  | none =>
      rw [hformat] at h
      exact absurd h run_throw_ne_ok
  | some m =>
  rw [hformat] at h
  obtain ⟨spam, db₁, -, h⟩ := run_bind_ok_iff.mp h
  cases spam with
  | true =>
      obtain ⟨e, he⟩ := banSender_throws lib config m db₁
      rw [if_pos rfl] at h
      rw [h] at he
      cases he
  | false =>
      rw [if_neg (by simp)] at h
      obtain ⟨row', db₂, hrow, h⟩ := run_bind_ok_iff.mp h
      obtain ⟨_, db₃, -, h⟩ := run_bind_ok_iff.mp h
      obtain ⟨_, db₄, hpublish, h⟩ := run_bind_ok_iff.mp h
      cases h
      cases hpublish
      exact ⟨by simp, m, rfl, persistMessage_fields hrow⟩

end

/-! ## From the sender to the receiver -/

section

variable {encryptMessageSymmetric : String → String → Except Exn String}
  {decryptMessageSymmetric : String → String → Option String} {receiver : IRooms} {r : ChatRoom}

/-- The first room of the type that has the key is the one room that has both. -/
theorem routed_decryptMessage
    (hideal : IdealEncryption encryptMessageSymmetric decryptMessageSymmetric)
    (hreceiver : KeysDistinct receiver) (hdirect : receiver.DirectKeysDistinct)
    (hkey : r.symmetric_key ≠ "") {raw_message : String} {message : IMessage}
    (htype : message.chat_type = r.type)
    (hcontent : encryptMessageSymmetric raw_message r.symmetric_key = .ok message.message_content) :
    Routed receiver r { message with message_content := raw_message }
      (ChatManager.decryptMessage receiver.chatRooms decryptMessageSymmetric message) := by
  have hdecrypt : ∀ q : ChatRoom, (decryptMessageSymmetric message.message_content
      q.symmetric_key).map (fun decrypted => ({ message with message_content := decrypted }, q.id))
      = if decide (q.symmetric_key = r.symmetric_key)
        then some ({ message with message_content := raw_message }, q.id) else none := by
    intro q
    by_cases hq : q.symmetric_key = r.symmetric_key
    · rw [hq, hideal.decrypts hcontent, if_pos (by simp)]
      rfl
    · rw [hideal.authentic hcontent _ hq, if_neg (by simpa using hq)]
      rfl
  have hresult : ChatManager.decryptMessage receiver.chatRooms decryptMessageSymmetric message
      = ((receiver.all.filter fun q => q.type = r.type ∧ q.symmetric_key = r.symmetric_key).map
          fun q => ({ message with message_content := raw_message }, q.id)).head? := by
    have hrooms := getUserRoomsForChatType_chatRooms hreceiver.toTyped message.chat_type
    rw [ChatManager.decryptMessage, hrooms, List.findSome?_map]
    refine (findSome?_eq_head? hdecrypt _).trans ?_
    rw [List.filter_filter, htype]
    simp only [Bool.decide_and, Bool.and_comm]
  -- a key that is not empty occurs in one room of each type
  have hone : receiver.all.Pairwise fun q q' =>
      decide (q.type = r.type ∧ q.symmetric_key = r.symmetric_key) = true →
      decide (q'.type = r.type ∧ q'.symmetric_key = r.symmetric_key) = true → False := by
    refine (hreceiver.pairwise hdirect).imp fun {q q'} hsame hq hq' => ?_
    obtain ⟨htype, hq⟩ := of_decide_eq_true hq
    obtain ⟨htype', hq'⟩ := of_decide_eq_true hq'
    exact hkey (hq ▸ hsame (htype.trans htype'.symm) (hq.trans hq'.symm))
  rw [Routed, hresult]
  rcases filter_eq_nil_or_singleton hone with hnil | ⟨q, hq⟩
  · rw [hnil]
    rfl
  · rw [hq]
    rfl

theorem requiredString_str {text text' : String}
    (h : Mongoose.requiredString (some (.str text)) = .ok text') : text = text' := by
  by_cases hempty : text = ""
  · rw [hempty] at h
    cases h
  · simpa [Mongoose.requiredString, Mongoose.castString, hempty] using h

/-- A message with the fields of what was sent, as the server casts them, lands where it belongs. -/
theorem routed_of_cast (hideal : IdealEncryption encryptMessageSymmetric decryptMessageSymmetric)
    (hbuilt : BuiltRooms receiver) (hdirect : receiver.DirectKeysDistinct)
    (hkey : r.symmetric_key ≠ "") {senderHandle raw_message c : String} {row : IMessage}
    (hc : encryptMessageSymmetric raw_message r.symmetric_key = .ok c)
    (htype : Mongoose.requiredString (some (.str r.type)) = .ok row.chat_type)
    (hcontent : Mongoose.requiredString (some (.str c)) = .ok row.message_content)
    (hsender : Mongoose.requiredString (some (.str senderHandle)) = .ok row.sender) :
    row.chat_type = r.type ∧ row.message_content = c ∧ row.sender = senderHandle ∧
      Routed receiver r { row with message_content := raw_message }
        (ChatManager.decryptMessage receiver.chatRooms decryptMessageSymmetric row) := by
  have hrow : row.chat_type = r.type := (requiredString_str htype).symm
  have hrow' : row.message_content = c := (requiredString_str hcontent).symm
  refine ⟨hrow, hrow', (requiredString_str hsender).symm, ?_⟩
  exact routed_decryptMessage hideal hbuilt.keysDistinct hdirect hkey hrow (hrow' ▸ hc)

/-- `sendMessage` makes a text that the server reads as a message of the type of the room, encrypted
    under its key; and wherever this message is stored and broadcast, it lands where it belongs. -/
theorem sendMessage_routed
    (hideal : IdealEncryption encryptMessageSymmetric decryptMessageSymmetric)
    {quote : String → List Char} (hquote : Js.QuotesStrings quote) (genSignalHash : String → ℤ)
    {proof_generator_callback :
      String → String → IStorageArtifacts → String → Except Exn RLNFullProof}
    {now : TimeValue} {signal : String} {leaves : List String} {fullProof : RLNFullProof}
    (hproof : ChatManager.callProofGenerator proof_generator_callback now signal leaves
      = .ok fullProof)
    {sender : IRooms} (hids : sender.ids.Nodup) (hr : r ∈ sender.all) (hkey : r.symmetric_key ≠ "")
    (hbuilt : BuiltRooms receiver) (hdirect : receiver.DirectKeysDistinct)
    (senderHandle raw_message : String) :
    ∃ c text, encryptMessageSymmetric raw_message r.symmetric_key = .ok c ∧
      ChatManager.sendMessage quote genSignalHash encryptMessageSymmetric proof_generator_callback
        now signal leaves sender senderHandle r.id raw_message = .ok text ∧
      validateFormat text = some
        { zk_proof := some fullProof.toBigJson.received
          x_share := some (.str (Js.bigIntToString (genSignalHash signal)))
          epoch := some (.str (getEpoch now))
          chat_type := some (.str r.type)
          message_content := some (.str c)
          sender := some (.str senderHandle) } ∧
      ∀ lib config env db row db',
        (MessageHandlerService.handleChatMessage lib config env text).run db = (.ok row, db') →
          ISyncMessage.message row ∈ db'.published ∧ row.chat_type = r.type ∧
          row.message_content = c ∧ row.sender = senderHandle ∧
          Routed receiver r { row with message_content := raw_message }
            (ChatManager.decryptMessage receiver.chatRooms decryptMessageSymmetric row) := by
  obtain ⟨c, hc⟩ := hideal.encrypts raw_message r.symmetric_key hkey
  obtain ⟨text, hsent, hformat⟩ := sendMessage_read genSignalHash senderHandle hquote hproof
    hids hr hc
  refine ⟨c, text, hc, hsent, hformat, ?_⟩
  intro lib config env db row db' hrun
  obtain ⟨hpublished, m, hm, htype, hcontent, hsender⟩ := handleChatMessage_ok hrun
  -- the server has read the message that was sent
  obtain rfl := Option.some.inj (hformat.symm.trans hm)
  exact ⟨hpublished, routed_of_cast hideal hbuilt hdirect hkey hc htype hcontent hsender⟩

end

namespace Demo

/-- A cipher that shows the key and the text, letter by letter. -/
def lock (message : List Char) : List Char → List Char
  | [] => 'm' :: message
  | a :: key => 'k' :: a :: lock message key

def unlock : List Char → List Char → Option (List Char)
  | 'm' :: c, [] => some c
  | 'k' :: a :: c, b :: key => if a = b then unlock c key else none
  | _, _ => none

theorem unlock_lock (message key key' : List Char) :
    unlock (lock message key) key' = if key' = key then some message else none := by
  induction key generalizing key' with
  | nil => cases key' <;> simp [lock, unlock]
  | cons a key ih =>
      cases key' with
      | nil => simp [lock, unlock]
      | cons b key' => by_cases hab : a = b <;> simp [lock, unlock, ih, hab, eq_comm]

def lockText (message key : String) : Except Exn String :=
  if key = "" then .error .typeError else .ok (String.ofList (lock message.toList key.toList))

def unlockText (c key : String) : Option String :=
  if key = "" then none else (unlock c.toList key.toList).map String.ofList

theorem unlockText_lockText {message key c : String} (h : lockText message key = .ok c)
    (key' : String) : unlockText c key' = if key' = key then some message else none := by
  unfold lockText at h
  by_cases hkey : key = ""
  · rw [if_pos hkey] at h
    cases h
  · rw [if_neg hkey] at h
    cases h
    by_cases hkey' : key' = ""
    · subst hkey'
      simp [unlockText, Ne.symm hkey]
    · simp only [unlockText, if_neg hkey', String.toList_ofList, unlock_lock, String.toList_inj]
      by_cases hsame : key' = key <;> simp [hsame]

theorem idealEncryption : IdealEncryption lockText unlockText where
  encrypts _ _ hkey := ⟨_, if_neg hkey⟩
  decrypts h := (unlockText_lockText h _).trans (if_pos rfl)
  authentic h key' hne := (unlockText_lockText h key').trans (if_neg hne)

/-- A profile with one room. -/
def oneRoomProfile : IRooms := ⟨[⟨"id", "room", "PUBLIC", "key"⟩], [], []⟩

theorem built_oneRoomProfile : BuiltRooms oneRoomProfile :=
  BuiltRooms.empty.addPublicRoom rfl rfl

/-- A signal of a proof, as a decimal string. -/
def decimal (digits : List Char) (hne : digits ≠ []) (hdigit : digits.all Char.isDigit) :
    StrBigInt :=
  .str ⟨false, digits, hne, List.all_eq_true.mp hdigit⟩

/-- The proof of the member with the secret 3 for the first epoch and the signal 5. -/
def wireProof : RLNFullProof where
  snarkProof :=
    { proof := { pi_a := [], pi_b := [], pi_c := [], protocol := "groth16", curve := "bn128" }
      publicSignals :=
        { yShare := decimal ['4'] (by decide) rfl
          merkleRoot := decimal ['3', '7', '2'] (by decide) rfl
          internalNullifier := decimal "1018248274854420550".toList (by decide) rfl
          signalHash := decimal ['5'] (by decide) rfl
          externalNullifier := decimal "504541444".toList (by decide) rfl } }
  epoch := 0
  rlnIdentifier := 11231

/-- Five seconds into the first epoch. -/
def sentAt : TimeValue := .ofNat 5000 (by decide)

theorem wireProof_generated : ChatManager.callProofGenerator (fun _ _ _ _ => .ok wireProof) sentAt
    "0.1" ["9", "12"] = .ok wireProof := rfl

/-- The text "hi" in that room. -/
def sendHi : Except Exn String :=
  ChatManager.sendMessage Js.quote (fun _ => 5) lockText (fun _ _ _ _ => .ok wireProof) sentAt
    "0.1" ["9", "12"] oneRoomProfile (getUserHandle (some "me") (some 7)) "id" "hi"

/-- What the server reads. -/
def sentMessage : RLNMessage where
  zk_proof := some wireProof.toBigJson.received
  x_share := some (.str (Js.bigIntToString 5))
  epoch := some (.str (getEpoch sentAt))
  chat_type := some (.str "PUBLIC")
  message_content := some (.str "kkkekymhi")
  sender := some (.str "me#7")

theorem oneRoom_mem : ChatRoom.room ⟨"id", "room", "PUBLIC", "key"⟩ ∈ oneRoomProfile.all := by decide

theorem sendHi_read : ∃ text, sendHi = .ok text ∧ validateFormat text = some sentMessage :=
  sendMessage_read (fun _ => 5) (getUserHandle (some "me") (some 7)) Js.quotesStrings_quote
    wireProof_generated (by decide) oneRoom_mem rfl

/-- A text that the server reads so is accepted. -/
theorem sent_handled {text : String} (h : validateFormat text = some sentMessage) :
    ∃ row db', (MessageHandlerService.handleChatMessage lib (config 2) (env "a") text).run db
      = (.ok row, db') := by
  have hreturned : returned ((MessageHandlerService.handleValid lib (config 2) (env "a")
      sentMessage).run db).1 = true := by
    decide +kernel
  rw [handleChatMessage_of_valid h]
  exact exists_of_returned hreturned

end Demo

open Demo in
/-- A message that one profile sends in its one room, the server accepts, and another profile reads
    in its own. -/
theorem message_lands : ∃ text row db', sendHi = .ok text ∧
    (MessageHandlerService.handleChatMessage lib (config 2) (env "a") text).run db = (.ok row, db') ∧
    ChatManager.decryptMessage oneRoomProfile.chatRooms unlockText row
      = some ({ row with message_content := "hi" }, "id") := by
  obtain ⟨c, text, hc, hsent, hformat, hroute⟩ := sendMessage_routed idealEncryption
    Js.quotesStrings_quote (fun _ => 5) wireProof_generated (by decide) oneRoom_mem (by decide)
    built_oneRoomProfile .nil (getUserHandle (some "me") (some 7)) "hi"
  obtain rfl : "kkkekymhi" = c := Except.ok.inj hc
  obtain ⟨row, db', hrun⟩ := sent_handled hformat
  obtain ⟨-, -, -, -, hrouted⟩ := hroute _ _ _ _ row db' hrun
  exact ⟨text, row, db', hsent, hrun, hrouted⟩

end ZkChat
