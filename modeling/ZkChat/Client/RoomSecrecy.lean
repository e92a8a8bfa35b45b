import ZkChat.Client.KeyAuthenticity
import ZkChat.Client.RoomIds

set_option autoImplicit false

/-! # What outsiders learn of a room

The server stores and forwards whatever the clients send, and anyone may read it. The key of a
direct room is agreed on with Diffie-Hellman keys that never leave their clients; the key of a
private room leaves its clients only in invites, each encrypted for one user. As long as these users
are the right ones, nothing that goes through the server gives a key away, and with the key what is
written in the room stays secret (`direct_keys_secret`, `private_room_secret`). -/

namespace ZkChat

open Prog Term

/-! ## Direct rooms -/

section

variable {ι μ : Type}

/-- The private keys and the Diffie-Hellman pairs of the clients. -/
def clientSecrets : Secrets (ι ⊕ μ) (KeyName ι μ) ((ι ⊕ μ) × ℕ) where
  privateKey u := ∃ a, u = .inl a
  symmetricKey _ := False
  dhPair x := ∃ a, x.1 = .inl a
  sealed _ := True

/-- What is there to be seen: the bundles, any hashes, and whatever clients write to each other in
    direct rooms. -/
inductive Seen (w : World ι (Message ι μ)) : Message ι μ → Prop
  | known {t : Message ι μ} (h : t ∈ knowledge w) : Seen w t
  | hash (t : Message ι μ) : Seen w (.hash t)
  | written {c p : ι} {room : IDirectRoom (Message ι μ)} (hroom : room ∈ (w.sessions c).direct)
      (hp : room.recipient_public_key = userPublicKey p) (hkey : room.symmetric_key ≠ .empty)
      (message : Message ι μ) : Seen w (.encrypted message room.symmetric_key)

variable [DecidableEq ι] [DecidableEq μ]

/-- The room has no key yet, or the one that it has was agreed on with its recipient. -/
def Keyed (w : World ι (Message ι μ)) (c p : ι) (room : IDirectRoom (Message ι μ)) : Prop :=
  room.symmetric_key = .empty ∨ ∃ dh, AnnouncedBy w p (userPublicKey c) dh ∧
    cryptography.deriveSharedSecretKey room.dh_private_key dh = some room.symmetric_key

/-- What every run keeps, beside the authenticity of the keys. -/
structure Secretive (w : World ι (Message ι μ)) : Prop where
  pairs : ∀ (c : ι), ∀ room ∈ (w.sessions c).direct,
    ∃ n, IKeyPair.mk room.dh_public_key room.dh_private_key = dhKeyPair (.inl c, n)
  posted : ∀ b ∈ w.posted, ∀ t, b.Shows t → Conceals clientSecrets t
  keys : ∀ (c p : ι), ∀ room ∈ (w.sessions c).direct,
    room.recipient_public_key = userPublicKey p → Keyed w c p room

variable {w w' : World ι (Message ι μ)}

omit [DecidableEq ι] [DecidableEq μ] in
theorem InitiallyKnown.conceals {t : Message ι μ} (h : InitiallyKnown t) :
    Conceals clientSecrets t := by
  cases h with
  | empty | publicKey _ | dhPublic _ => trivial
  | symmetricKey m receiver n => exact id
  | privateKey m =>
      rintro ⟨a, ha⟩
      cases ha
  | dhPrivate m n =>
      rintro ⟨a, ha⟩
      cases ha

theorem Secretive.knowledge (h : Secretive w) : ∀ t ∈ knowledge w, Conceals clientSecrets t := by
  rintro t (ht | ⟨b, hb, ht⟩)
  · exact ht.conceals
  · exact h.posted b hb t ht

theorem Keyed.grows {c p : ι} {room : IDirectRoom (Message ι μ)} (h : Keyed w c p room)
    (hgrow : Grows w w') : Keyed w' c p room := by
  refine h.imp_right ?_
  rintro ⟨dh, hannounced, hderive⟩
  exact ⟨dh, hgrow.announcedBy hannounced, hderive⟩

/-- A key that two clients have agreed on is secret. -/
theorem Secretive.isKey (h : Secretive w) {c p : ι} {room : IDirectRoom (Message ι μ)}
    (hroom : room ∈ (w.sessions c).direct) (hp : room.recipient_public_key = userPublicKey p)
    (hkey : room.symmetric_key ≠ .empty) : clientSecrets.IsKey room.symmetric_key := by
  obtain ⟨dh, ⟨room', hroom', -, hdh⟩, hderive⟩ := (h.keys c p room hroom hp).resolve_left hkey
  obtain ⟨n, hpair⟩ := h.pairs c room hroom
  obtain ⟨m, hpair'⟩ := h.pairs p room' hroom'
  have hprivate : room.dh_private_key = .dhPrivate (.inl c, n) := congrArg IKeyPair.privateKey hpair
  have hpublic : dh = .dhPublic (.inl p, m) := hdh ▸ congrArg IKeyPair.publicKey hpair'
  rw [hprivate, hpublic] at hderive
  obtain hshared : Term.shared s((.inl c, n), (.inl p, m)) = room.symmetric_key :=
    Option.some.inj hderive
  rw [← hshared]
  intro x hx
  rcases Sym2.mem_iff.mp hx with rfl | rfl
  · exact ⟨c, rfl⟩
  · exact ⟨p, rfl⟩

/-- A change of one session. -/
theorem Secretive.update (h : Secretive w) {a : ι} {s : Session (Message ι μ)}
    (hgrow : Grows w (w.update a s))
    (hpairs : ∀ room ∈ s.direct,
      ∃ n, IKeyPair.mk room.dh_public_key room.dh_private_key = dhKeyPair (.inl a, n))
    (hkeys : ∀ p, ∀ room ∈ s.direct, room.recipient_public_key = userPublicKey p →
      Keyed (w.update a s) a p room) : Secretive (w.update a s) := by
  refine ⟨fun c room hroom => ?_, h.posted, fun c p room hroom hp => ?_⟩
  · by_cases hc : c = a
    · subst hc
      rw [World.sessions_update_self] at hroom
      exact hpairs room hroom
    · rw [World.sessions_update_of_ne hc] at hroom
      exact h.pairs c room hroom
  · by_cases hc : c = a
    · subst hc
      rw [World.sessions_update_self] at hroom
      exact hkeys p room hroom hp
    · rw [World.sessions_update_of_ne hc] at hroom
      exact (h.keys c p room hroom hp).grows hgrow

theorem Secretive.of_direct (h : Secretive w) {a : ι} {s : Session (Message ι μ)}
    (hgrow : Grows w (w.update a s)) (hdirect : s.direct = (w.sessions a).direct) :
    Secretive (w.update a s) :=
  h.update hgrow (fun room hroom => h.pairs a room (hdirect ▸ hroom))
    fun p room hroom hp => (h.keys a p room (hdirect ▸ hroom) hp).grows hgrow

/-- The bundle of a client. -/
theorem conceals_ownBundle {a : ι} {b : Bundle (Message ι μ)} (h : Authentic w)
    (hown : OwnBundle cryptography FreshKeys w a b) {t : Message ι μ}
    (ht : b.Shows t) : Conceals clientSecrets t := by
  obtain ⟨room, hroom, symmetricKey, coins, ⟨⟨n, hpair⟩, hname⟩, hcontent, hkey, hreceiver⟩ := hown
  obtain ⟨u, hu, hsealed⟩ : ∃ u, room.recipient_public_key = .publicKey u ∧
      b.encrypted_key = .wrapped symmetricKey coins u := by
    simp only [cryptography] at hkey
    split at hkey
    · next u hu => exact ⟨u, hu, (Option.some.inj hkey).symm⟩
    · cases hkey
  obtain ⟨k, rfl⟩ := hname u hu
  have hdh : room.dh_public_key = .dhPublic (.inl a, n) := congrArg IKeyPair.publicKey hpair
  rcases ht with rfl | rfl | rfl
  · have henc : b.encrypted_content = .encrypted (.pair (.dhPublic (.inl a, n)) (userPublicKey a))
        (.symmetricKey ⟨.inl a, u, k⟩) := by
      rw [← hdh, ← (h.userKeys a).1]
      exact (Option.some.inj hcontent).symm
    rw [henc]
    exact .inr ⟨trivial, trivial⟩
  · rw [hsealed]
    exact .inr id
  · rw [hreceiver, hu]
    trivial

theorem Secretive.effect (hs : Secretive w) (h : Authentic w)
    (heffect : Effect cryptography FreshKeys w w') : Secretive w' := by
  have hgrow := heffect.grows
  cases heffect with
  | same => exact hs
  | joined a room hnew hkey hfresh =>
      obtain ⟨symmetricKey, coins, ⟨n, hpair⟩, -⟩ := hfresh
      refine hs.update hgrow (fun r hr => ?_) (fun p r hr hp => ?_)
      · rcases List.mem_append.mp hr with hr | hr
        · exact hs.pairs a r hr
        · obtain rfl := List.mem_singleton.mp hr
          exact ⟨n, hpair⟩
      · rcases List.mem_append.mp hr with hr | hr
        · exact (hs.keys a p r hr hp).grows hgrow
        · obtain rfl := List.mem_singleton.mp hr
          exact .inl hkey
  | persisted a profile => exact hs.of_direct hgrow rfl
  | posted a b hown =>
      refine ⟨hs.pairs, fun b' hb' t ht => ?_, fun c p room hroom hp =>
        (hs.keys c p room hroom hp).grows hgrow⟩
      rcases List.mem_append.mp hb' with hold | hnew
      · exact hs.posted b' hold t ht
      · obtain rfl := List.mem_singleton.mp hnew
        exact conceals_ownBundle h hown ht
  | started a i dh hoffered => exact hs.of_direct hgrow rfl
  | saved a n profile => exact hs.of_direct hgrow rfl
  | requested a bundles => exact ⟨hs.pairs, hs.posted, hs.keys⟩
  | removed bundles hsub => exact ⟨hs.pairs, hs.posted, hs.keys⟩
  | assigned a n s hassign =>
      obtain ⟨d, room, key, hd, -, hroom, hderive, rfl⟩ := assignKey_eq_some hassign
      have hmem : room ∈ (w.sessions a).direct := List.mem_of_getElem? hroom
      refine hs.update hgrow (fun r hr => ?_) (fun p r hr hp => ?_)
      · rcases List.mem_or_eq_of_mem_set hr with hr | rfl
        · exact hs.pairs a r hr
        · exact hs.pairs a room hmem
      · rcases List.mem_or_eq_of_mem_set hr with hr | rfl
        · exact (hs.keys a p r hr hp).grows hgrow
        · -- the derivation was started for a key of the recipient
          obtain ⟨room', hroom', hannounced⟩ := h.derivations a d (List.mem_of_getElem? hd)
          obtain rfl := Option.some.inj (hroom.symm.trans hroom')
          exact .inr ⟨_, hgrow.announcedBy (hannounced p hp), hderive⟩

theorem Secretive.intruder (hs : Secretive w) (hmove : Intruder Unforged w w')
    (hgrow : Grows w w') : Secretive w' := by
  cases hmove with
  | deletes bundles hsub => exact ⟨hs.pairs, hs.posted, hs.keys⟩
  | posts b hmade =>
      refine ⟨hs.pairs, fun b' hb' t ht => ?_, fun c p room hroom hp =>
        (hs.keys c p room hroom hp).grows hgrow⟩
      rcases List.mem_append.mp hb' with hold | hnew
      · exact hs.posted b' hold t ht
      · obtain rfl := List.mem_singleton.mp hnew
        exact (hmade t ht).conceals hs.knowledge

/-- In the runs in which no other member encrypts a bundle in the name of a client, the key of a
    direct room between two clients cannot be learned from all bundles and all that is written in
    such rooms. -/
theorem direct_keys_secret
    {pool : Pool (KeyExchangeCall ι (Message ι μ)) (World ι (Message ι μ)) Exn Unit}
    (hruns : AttackedRuns Unforged ⟨[], .start userPublicKey userPrivateKey⟩ pool) {c p : ι}
    {room : IDirectRoom (Message ι μ)} (hroom : room ∈ (pool.state.sessions c).direct)
    (hp : room.recipient_public_key = userPublicKey p) (hkey : room.symmetric_key ≠ .empty) :
    ¬ Derives { t | Seen pool.state t } room.symmetric_key := by
  have hg : Pool.Guarantee (KeyExchangeCall.body cryptography) (KeyExchangeCall.Fresh FreshKeys)
      (fun _ _ => True) (Intruder Unforged) (fun w => Authentic w ∧ Secretive w)
      (Effect (ι := ι) (τ := Message ι μ) cryptography FreshKeys) Grows :=
    { refl := .same
      safe := fun _ hfresh _ h => KeyExchangeCall.safe hfresh h.1.bundles
      step := fun _ _ h heffect _ => ⟨⟨h.1.effect heffect, h.2.effect h.1 heffect⟩, heffect.grows⟩
      env := fun _ _ h hmove =>
        ⟨⟨(h.1.intruder hmove).1, h.2.intruder hmove (h.1.intruder hmove).2⟩,
          (h.1.intruder hmove).2⟩ }
  obtain ⟨-, hs⟩ := hg.inv (s := .start userPublicKey userPrivateKey) ⟨⟨fun _ => ⟨rfl, rfl⟩,
    fun _ => id, by simp [World.start], by simp [World.start], by simp [World.start]⟩,
      by simp [World.start], by simp [World.start], by simp [World.start]⟩ hruns
  refine (hs.isKey hroom hp hkey).not_derives ?_
  rintro t (ht | _ | ⟨hroom', hp', hkey', message⟩)
  · exact hs.knowledge _ ht
  · trivial
  · exact .inl (hs.isKey hroom' hp' hkey')

end

/-- The bundle that the other member posts does not help it, although it has the key of that one. -/
theorem direct_keys_secret_unforged :
    ¬ Derives { t | Seen Demo.unforged.state t }
      (.shared s((.inl false, 0), (.inl true, 0)) : Demo.Letter) := by
  have hroom : (Demo.unforged.state.sessions false).direct[0]? = some
      ⟨"", "", "DIRECT", .shared s((.inl false, 0), (.inl true, 0)), userPublicKey true,
        .dhPublic (.inl false, 0), .dhPrivate (.inl false, 0)⟩ := by
    decide +kernel
  have hruns : AttackedRuns Unforged ⟨[], .start userPublicKey userPrivateKey⟩ Demo.unforged := by
    refine Demo.runs_received (.inr ()) (fun w c p k dh _ _ hcontent => ?_) _
    cases decryptMessageSymmetric_eq_some hcontent
  exact direct_keys_secret hruns (List.mem_of_getElem? hroom) rfl (by simp)

/-! ## Private rooms -/

namespace PrivateRooms

/-- The fields that an invite is about. -/
structure Room (τ : Type) where
  id : τ
  name : τ
  symmetric_key : τ

/-- The rooms of a profile. -/
structure Rooms (τ : Type) where
  publicRooms : List (Room τ)
  privateRooms : List (Room τ) := []
  directRooms : List (Room τ) := []

/-- In the order in which they are searched. -/
def Rooms.all {τ : Type} (rooms : Rooms τ) : List (Room τ) :=
  rooms.publicRooms ++ rooms.privateRooms ++ rooms.directRooms

section

variable {τ : Type} [DecidableEq τ] (crypto : ICryptography τ)

def getRoomById (rooms : Rooms τ) (id : τ) : Option (Room τ) := rooms.all.find? fun r => r.id = id

def addPrivateRoom (rooms : Rooms τ) (room : Room τ) : Option (Rooms τ) :=
  if rooms.privateRooms.any fun r => r.symmetric_key = room.symmetric_key then none
  else some { rooms with privateRooms := rooms.privateRooms ++ [room] }

/-- The text is `JSON.stringify([room.symmetric_key, room.id, room.name])`. -/
def invite_private_room (rooms : Rooms τ) (room_id recipient_public_key coins : τ) : Option τ := do
  let room ← getRoomById rooms room_id
  crypto.encryptMessageAsymmetric
    (crypto.stringify room.symmetric_key (crypto.stringify room.id room.name))
    recipient_public_key coins

def join_private_room (rooms : Rooms τ) (encrypted_invite user_private_key : τ) :
    Option (Rooms τ) := do
  let text ← crypto.decryptMessageAsymmetric encrypted_invite user_private_key
  let (symmetric_key, rest) ← crypto.parse text
  let (id, name) ← crypto.parse rest
  addPrivateRoom rooms { id, name, symmetric_key }

def encryptMessageForRoom (rooms : Rooms τ) (room_id message : τ) : Option τ := do
  let room ← getRoomById rooms room_id
  crypto.encryptMessageSymmetric message room.symmetric_key

end

/-! ### On strings

The operations are those of `ProfileManager` on the rooms that it has. -/

def Room.ofChatRoom : ChatRoom → Room String
  | .room r => { id := r.id, name := r.name, symmetric_key := r.symmetric_key }
  | .direct r => { id := r.id, name := r.name, symmetric_key := r.symmetric_key }

def Rooms.ofProfile (rooms : IRooms) : Rooms String where
  publicRooms := rooms.publicRooms.map fun r => .ofChatRoom (.room r)
  privateRooms := rooms.privateRooms.map fun r => .ofChatRoom (.room r)
  directRooms := rooms.directRooms.map fun r => .ofChatRoom (.direct r)

section

variable (crypto : ICryptography String) (rooms : IRooms)

theorem Rooms.all_ofProfile : (ofProfile rooms).all = rooms.all.map .ofChatRoom := by
  simp [Rooms.all, ofProfile, IRooms.all, Function.comp_def]

theorem Room.ofChatRoom_eq (r : ChatRoom) :
    (ofChatRoom r).id = r.id ∧ (ofChatRoom r).symmetric_key = r.symmetric_key := by
  cases r <;> exact ⟨rfl, rfl⟩

theorem getRoomById_ofProfile (id : String) : getRoomById (.ofProfile rooms) id
    = (ProfileManager.getRoomById rooms id).toOption.map .ofChatRoom := by
  have hfind : getRoomById (.ofProfile rooms) id = (rooms.lookup id).map .ofChatRoom := by
    rw [getRoomById, Rooms.all_ofProfile, List.find?_map, IRooms.lookup]
    simp only [Function.comp_def, (Room.ofChatRoom_eq _).1]
  rw [hfind, getRoomById_eq]
  cases rooms.lookup id <;> rfl

theorem addPrivateRoom_ofProfile (room : IRoom) :
    addPrivateRoom (.ofProfile rooms) (.ofChatRoom (.room room))
      = (ProfileManager.addPrivateRoom rooms.privateRooms room).toOption.map
          fun privateRooms => .ofProfile { rooms with privateRooms } := by
  have hsame : ((Rooms.ofProfile rooms).privateRooms.any fun r =>
        r.symmetric_key = (Room.ofChatRoom (.room room)).symmetric_key)
      = rooms.privateRooms.any fun r => r.symmetric_key = room.symmetric_key := by
    rw [Rooms.ofProfile, List.any_map]
    rfl
  rw [addPrivateRoom, hsame, ProfileManager.addPrivateRoom, ProfileManager.addUnless]
  split
  · rfl
  · simp [Rooms.ofProfile, Except.toOption]

/-- An invite that can be read is joined as the client joins it. -/
theorem join_private_room_ofProfile {encrypted_invite user_private_key text rest : String}
    {symmetric_key id name : String}
    (htext : crypto.decryptMessageAsymmetric encrypted_invite user_private_key = some text)
    (hkey : crypto.parse text = some (symmetric_key, rest))
    (hid : crypto.parse rest = some (id, name)) :
    join_private_room crypto (.ofProfile rooms) encrypted_invite user_private_key
      = (ZkChat.join_private_room symmetric_key id name rooms).toOption.map .ofProfile := by
  have hadd := addPrivateRoom_ofProfile rooms { id, name, type := "PRIVATE", symmetric_key }
  rw [join_private_room, htext, Option.bind_eq_bind, Option.bind_some]
  simp only [hkey, hid, Option.bind_eq_bind, Option.bind_some]
  refine hadd.trans ?_
  unfold ZkChat.join_private_room
  cases ProfileManager.addPrivateRoom rooms.privateRooms
    { id, name, type := "PRIVATE", symmetric_key } <;> rfl

/-- A message is encrypted with the key of the same room. -/
theorem encryptMessageForRoom_ofProfile
    {encryptMessageSymmetric : String → String → Except Exn String}
    (h : ∀ message key, crypto.encryptMessageSymmetric message key
      = (encryptMessageSymmetric message key).toOption) (id message : String) :
    encryptMessageForRoom crypto (.ofProfile rooms) id message
      = (ProfileManager.encryptMessageForRoom encryptMessageSymmetric rooms id message).toOption := by
  rw [encryptMessageForRoom, getRoomById_ofProfile, getRoomById_eq, encryptMessageForRoom_eq]
  cases rooms.lookup id with
  | none => rfl
  | some r =>
      show crypto.encryptMessageSymmetric message (Room.ofChatRoom r).symmetric_key = _
      rw [(Room.ofChatRoom_eq r).2, h]

end

/-! ### What the clients do -/

section

variable {ι μ ν : Type} [DecidableEq ι] [DecidableEq μ] [DecidableEq ν]

/-- Texts and symmetric keys are names. -/
abbrev Text (ι μ ν : Type) := Term (ι ⊕ μ) ν Empty

/-- The profiles of the clients and all that has left them. -/
structure Chat (ι μ ν : Type) where
  rooms : ι → Rooms (Text ι μ ν)
  sent : List (Text ι μ ν)

/-- These names are secrets of the clients; a secret key may be sealed with an id and a name that
    are none. -/
def secretsOf (secret : ν → Prop) : Secrets (ι ⊕ μ) ν Empty where
  privateKey u := ∃ a, u = .inl a
  symmetricKey := secret
  dhPair _ := True
  sealed m := ∃ key id name, m = .pair (.symmetricKey key)
    (.pair (.symmetricKey id) (.symmetricKey name)) ∧ secret key ∧ ¬ secret id ∧ ¬ secret name

variable (secret : ν → Prop)

/-- What outsiders may know: everything that tells no secret, and what was sent. -/
def known (w : Chat ι μ ν) : Set (Text ι μ ν) := { t | Conceals (secretsOf secret) t ∨ t ∈ w.sent }

/-- The room that would be used has no secret key. -/
def Open (rooms : Rooms (Text ι μ ν)) (room_id : Text ι μ ν) : Prop :=
  ∀ room, getRoomById rooms room_id = some room → ¬ (secretsOf secret).IsKey room.symmetric_key

/-- The rooms of a client after a call. -/
def Chat.update (w : Chat ι μ ν) (a : ι) (rooms : Rooms (Text ι μ ν)) :
    Chat ι μ ν :=
  { w with rooms := Function.update w.rooms a rooms }

/-- A client creates a room, invites to one, joins one, or writes into one. Nobody but clients is
    invited to rooms with secret keys, and secrets are written into these only. -/
inductive Step : Chat ι μ ν → Chat ι μ ν → Prop
  | create {w : Chat ι μ ν} (a : ι) (id name key : ν) {rooms : Rooms (Text ι μ ν)}
      (hplain : ¬ secret id ∧ ¬ secret name)
      (h : addPrivateRoom (w.rooms a) ⟨.symmetricKey id, .symmetricKey name, .symmetricKey key⟩
        = some rooms) : Step w (w.update a rooms)
  | invite {w : Chat ι μ ν} (a : ι) (room_id recipient_public_key coins : Text ι μ ν)
      {encrypted_invite : Text ι μ ν}
      (hclients : Open secret (w.rooms a) room_id ∨ ∃ b, recipient_public_key = .publicKey (.inl b))
      (h : invite_private_room cryptography (w.rooms a) room_id recipient_public_key coins
        = some encrypted_invite) : Step w { w with sent := w.sent ++ [encrypted_invite] }
  | join {w : Chat ι μ ν} (a : ι) (encrypted_invite : Text ι μ ν) {rooms : Rooms (Text ι μ ν)}
      (hmade : Derives (known secret w) encrypted_invite)
      (h : join_private_room cryptography (w.rooms a) encrypted_invite (.privateKey (.inl a))
        = some rooms) : Step w (w.update a rooms)
  | write {w : Chat ι μ ν} (a : ι) (room_id message : Text ι μ ν) {ciphertext : Text ι μ ν}
      (hsecret : Open secret (w.rooms a) room_id → Conceals (secretsOf secret) message)
      (h : encryptMessageForRoom cryptography (w.rooms a) room_id message = some ciphertext) :
      Step w { w with sent := w.sent ++ [ciphertext] }

/-- The profiles have public rooms only, whose keys are no secrets. -/
structure Start (w : Chat ι μ ν) : Prop where
  rooms : ∀ a, ∀ r ∈ (w.rooms a).all, Conceals (secretsOf secret) r.symmetric_key ∧
    Conceals (secretsOf secret) r.id ∧ Conceals (secretsOf secret) r.name
  sent : w.sent = []

variable {secret} {w w' : Chat ι μ ν}

/-! ### What every step keeps -/

/-- The key is a secret, and id and name are none, or all three are known. -/
def Room.Kept (secret : ν → Prop) (room : Room (Text ι μ ν)) : Prop :=
  (∃ key id name, room = ⟨.symmetricKey id, .symmetricKey name, .symmetricKey key⟩ ∧
    secret key ∧ ¬ secret id ∧ ¬ secret name) ∨
  (Conceals (secretsOf secret) room.symmetric_key ∧ Conceals (secretsOf secret) room.id ∧
    Conceals (secretsOf secret) room.name)

structure Kept (secret : ν → Prop) (w : Chat ι μ ν) : Prop where
  rooms : ∀ a, ∀ room ∈ (w.rooms a).all, room.Kept secret
  sent : ∀ t ∈ w.sent, Conceals (secretsOf secret) t

omit [DecidableEq ι] [DecidableEq μ] [DecidableEq ν] in
theorem Kept.conceals (h : Kept secret w) {t : Text ι μ ν} (ht : Derives (known secret w) t) :
    Conceals (secretsOf secret) t :=
  ht.conceals fun _ hs => hs.elim id (h.sent _)

omit [DecidableEq ι] [DecidableEq μ] [DecidableEq ν] in
/-- A secret key is one of the names. -/
theorem isKey_iff {key : Text ι μ ν} :
    (secretsOf secret).IsKey key ↔ ∃ n, key = .symmetricKey n ∧ secret n := by
  constructor
  · intro h
    cases key with
    | symmetricKey n => exact ⟨n, rfl, h⟩
    | shared xs => exact (xs.out.1).elim
    | empty | publicKey _ | privateKey _ | dhPublic _ | dhPrivate _ | encrypted _ _ | wrapped _ _ _
      | pair _ _ | hash _ => exact h.elim
  · rintro ⟨n, rfl, hn⟩
    exact hn

theorem mem_of_getRoomById {rooms : Rooms (Text ι μ ν)} {id : Text ι μ ν}
    {room : Room (Text ι μ ν)} (h : getRoomById rooms id = some room) : room ∈ rooms.all :=
  List.mem_of_find?_eq_some h

theorem mem_of_addPrivateRoom {rooms rooms' : Rooms (Text ι μ ν)} {room r : Room (Text ι μ ν)}
    (h : addPrivateRoom rooms room = some rooms') (hr : r ∈ rooms'.all) :
    r ∈ rooms.all ∨ r = room := by
  unfold addPrivateRoom at h
  split at h
  · cases h
  · obtain rfl := Option.some.inj h
    simp only [Rooms.all, List.mem_append, List.mem_singleton] at hr ⊢
    tauto

theorem Kept.update (h : Kept secret w) {a : ι} {rooms : Rooms (Text ι μ ν)}
    {room : Room (Text ι μ ν)} (hadd : addPrivateRoom (w.rooms a) room = some rooms)
    (hroom : room.Kept secret) : Kept secret (w.update a rooms) := by
  refine ⟨fun b r hr => ?_, h.sent⟩
  by_cases hb : b = a
  · subst hb
    simp only [Chat.update, Function.update_self] at hr
    rcases mem_of_addPrivateRoom hadd hr with hr | rfl
    · exact h.rooms b r hr
    · exact hroom
  · simp only [Chat.update, Function.update_of_ne hb] at hr
    exact h.rooms b r hr

omit [DecidableEq ι] [DecidableEq μ] [DecidableEq ν] in
theorem Kept.send (h : Kept secret w) {t : Text ι μ ν} (ht : Conceals (secretsOf secret) t) :
    Kept secret { w with sent := w.sent ++ [t] } := by
  refine ⟨h.rooms, fun s hs => ?_⟩
  rcases List.mem_append.mp hs with hs | hs
  · exact h.sent s hs
  · obtain rfl := List.mem_singleton.mp hs
    exact ht

/-- An invite conceals what is in it, from everybody or from those who are no clients. -/
theorem conceals_invite {rooms : Rooms (Text ι μ ν)}
    {room_id recipient_public_key coins encrypted_invite : Text ι μ ν}
    (hrooms : ∀ room ∈ rooms.all, room.Kept secret)
    (hclients : Open secret rooms room_id ∨ ∃ b, recipient_public_key = .publicKey (.inl b))
    (h : invite_private_room cryptography rooms room_id recipient_public_key coins
      = some encrypted_invite) : Conceals (secretsOf secret) encrypted_invite := by
  obtain ⟨room, hfound, h⟩ := Option.bind_eq_some_iff.mp h
  obtain ⟨u, rfl, rfl⟩ : ∃ u, recipient_public_key = .publicKey u ∧ encrypted_invite
      = .wrapped (.pair room.symmetric_key (.pair room.id room.name)) coins u := by
    simp only [cryptography] at h
    split at h
    · next u h => exact ⟨u, rfl, (Option.some.inj h).symm⟩
    · cases h
  rcases hrooms room (mem_of_getRoomById hfound) with
    ⟨key, id, name, rfl, hkey, hid, hname⟩ | ⟨hkey, hid, hname⟩
  · rcases hclients with hopen | ⟨b, hb⟩
    · exact absurd (isKey_iff.mpr ⟨key, rfl, hkey⟩) (hopen _ hfound)
    · obtain rfl := Term.publicKey.inj hb
      exact .inl ⟨⟨b, rfl⟩, key, id, name, rfl, hkey, hid, hname⟩
  · exact .inr ⟨hkey, hid, hname⟩

/-- A room that is joined has a secret key that a client has sealed, or one that is known. -/
theorem kept_of_join {rooms rooms' : Rooms (Text ι μ ν)} {a : ι} {encrypted_invite : Text ι μ ν}
    (hinvite : Conceals (secretsOf secret) encrypted_invite)
    (h : join_private_room cryptography rooms encrypted_invite (.privateKey (.inl a))
      = some rooms') :
    ∃ room, room.Kept secret ∧ addPrivateRoom rooms room = some rooms' := by
  have hparse : ∀ {t p q : Text ι μ ν}, cryptography.parse t = some (p, q) → t = .pair p q := by
    intro t p q ht
    simp only [cryptography] at ht
    split at ht
    · cases ht
      rfl
    · cases ht
  obtain ⟨text, htext, h⟩ := Option.bind_eq_some_iff.mp h
  obtain ⟨⟨symmetric_key, rest⟩, hrest, h⟩ := Option.bind_eq_some_iff.mp h
  obtain ⟨⟨id, name⟩, hname, h⟩ := Option.bind_eq_some_iff.mp h
  obtain rfl := hparse hrest
  obtain rfl := hparse hname
  refine ⟨⟨id, name, symmetric_key⟩, ?_, h⟩
  obtain ⟨coins, rfl⟩ : ∃ coins, encrypted_invite
      = .wrapped (.pair symmetric_key (.pair id name)) coins (.inl a) := by
    simp only [cryptography] at htext
    split at htext
    · next m coins u u' heq =>
        cases heq
        split at htext
        · next hu =>
            cases htext
            exact ⟨coins, hu ▸ rfl⟩
        · cases htext
    · cases htext
  rcases hinvite with ⟨-, key, i, n, hsealed, hparts⟩ | ⟨hkey, hid, hname⟩
  · obtain ⟨rfl, hpair⟩ := Term.pair.inj hsealed
    obtain ⟨rfl, rfl⟩ := Term.pair.inj hpair
    exact .inl ⟨key, i, n, rfl, hparts⟩
  · exact .inr ⟨hkey, hid, hname⟩

theorem Kept.step (h : Kept secret w) (hstep : Step secret w w') : Kept secret w' := by
  cases hstep with
  | create a id name key hplain hadd =>
      refine h.update hadd ?_
      by_cases hkey : secret key
      · exact .inl ⟨key, id, name, rfl, hkey, hplain⟩
      · exact .inr ⟨hkey, hplain⟩
  | invite a room_id recipient_public_key coins hclients hinvite =>
      exact h.send (conceals_invite (h.rooms a) hclients hinvite)
  | join a encrypted_invite hmade hjoin =>
      obtain ⟨room, hroom, hadd⟩ := kept_of_join (h.conceals hmade) hjoin
      exact h.update hadd hroom
  | write a room_id message hsecret hwrite =>
      obtain ⟨room, hfound, hwrite⟩ := Option.bind_eq_some_iff.mp hwrite
      obtain rfl := Option.some.inj hwrite
      refine h.send ?_
      by_cases hkey : (secretsOf secret).IsKey room.symmetric_key
      · exact .inl hkey
      · refine .inr (hsecret fun r hr => ?_)
        obtain rfl := Option.some.inj (hfound.symm.trans hr)
        exact hkey

theorem Kept.run (h : Kept secret w) (hruns : Relation.ReflTransGen (Step secret) w w') :
    Kept secret w' := by
  induction hruns with
  | refl => exact h
  | tail _ hstep ih => exact ih.step hstep

/-- Clients invite each other to rooms, others send them invites of their own, and everybody sees
    all that is sent. As long as only clients are invited to a room with a secret key, and secrets
    are written only into such rooms, nobody else can learn any of the keys and secrets, whatever
    else is known. -/
theorem private_room_secret (hstart : Start secret w)
    (hruns : Relation.ReflTransGen (Step secret) w w') (n : ν) (hn : secret n) :
    ¬ Derives (known secret w') (.symmetricKey n) := by
  have hkept : Kept secret w := by
    refine ⟨fun a room hroom => .inr (hstart.rooms a room hroom), fun t ht => ?_⟩
    rw [hstart.sent] at ht
    cases ht
  exact fun hderives => (hkept.run hruns).conceals hderives hn

end

namespace Demo

/-- The key 0 and the text 7. -/
def secret (n : ℕ) : Prop := n = 0 ∨ n = 7

def lobby : Rooms (Text Bool Unit ℕ) where
  publicRooms := [⟨.symmetricKey 3, .symmetricKey 4, .symmetricKey 5⟩]

def withRoom : Rooms (Text Bool Unit ℕ) :=
  { lobby with privateRooms := [⟨.symmetricKey 1, .symmetricKey 2, .symmetricKey 0⟩] }

def invite : Text Bool Unit ℕ :=
  .wrapped (.pair (.symmetricKey 0) (.pair (.symmetricKey 1) (.symmetricKey 2))) .empty (.inl true)

def before : Chat Bool Unit ℕ := ⟨fun _ => lobby, []⟩

def created : Chat Bool Unit ℕ := before.update false withRoom

def joined : Chat Bool Unit ℕ := { created with sent := [invite] }.update true withRoom

/-- The first client has created the room and invited the second one, which has joined and written
    the text. -/
def written : Chat Bool Unit ℕ :=
  { joined with sent := [invite, .encrypted (.symmetricKey 7) (.symmetricKey 0)] }

theorem start_before : Start secret before := by
  refine ⟨fun a r hr => ?_, rfl⟩
  obtain rfl : r = ⟨.symmetricKey 3, .symmetricKey 4, .symmetricKey 5⟩ := by
    simpa [before, Rooms.all, lobby] using hr
  exact ⟨by simp [Conceals, secretsOf, secret], by simp [Conceals, secretsOf, secret],
    by simp [Conceals, secretsOf, secret]⟩

theorem runs_written : Relation.ReflTransGen (Step secret) before written := by
  have hcreate : Step secret before created :=
    .create false 1 2 0 ⟨by simp [secret], by simp [secret]⟩ rfl
  have hinvite : Step secret created { created with sent := [invite] } :=
    .invite false (.symmetricKey 1) (.publicKey (.inl true)) .empty (.inr ⟨true, rfl⟩) rfl
  have hjoin : Step secret { created with sent := [invite] } joined :=
    .join true invite (.known (.inr (List.mem_singleton_self _))) rfl
  have hwrite : Step secret joined written := by
    refine .write true (.symmetricKey 1) (.symmetricKey 7) (fun hopen => ?_) rfl
    exact absurd (show secret 0 from .inl rfl) (hopen _ rfl)
  exact (((Relation.ReflTransGen.single hcreate).tail hinvite).tail hjoin).tail hwrite

end Demo

/-- The text that was written in the room is a secret of the two clients. -/
theorem private_room_secret_text :
    ¬ Derives (known Demo.secret Demo.written) (.symmetricKey 7) :=
  private_room_secret Demo.start_before Demo.runs_written 7 (.inr rfl)

end PrivateRooms

end ZkChat
