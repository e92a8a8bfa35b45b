import ZkChat.Client.KeyExchange
import ZkChat.Lib.Interleaving

set_option autoImplicit false

/-! # What one action of the key exchange does

Every action of every call is one of a few (`Effect`), with all that the call knows when it performs
it: a derivation is started for a bundle that was stored and that the client could open, a save at
the end of a derivation writes a profile that has the derived key. The laws of the exchange are
case analyses of this one relation. -/

namespace ZkChat

open Prog

variable {ι τ : Type}

/-! ## What the others cannot disturb -/

/-- The parts of a room that no call changes. -/
structure SameExchange (room room' : IDirectRoom τ) : Prop where
  recipient : room'.recipient_public_key = room.recipient_public_key
  dhPublic : room'.dh_public_key = room.dh_public_key
  dhPrivate : room'.dh_private_key = room.dh_private_key

/-- The rooms and the derivations of a client are never taken back, its keys stay. -/
structure Session.Grows (s s' : Session τ) : Prop where
  publicKey : s'.user_public_key = s.user_public_key
  privateKey : s'.user_private_key = s.user_private_key
  rooms : ∀ (i : ℕ) (room : IDirectRoom τ), s.direct[i]? = some room →
    ∃ room', s'.direct[i]? = some room' ∧ SameExchange room room'
  derivations : ∀ (n : ℕ) (d : Derivation τ), s.derivations[n]? = some d →
    ∃ d', s'.derivations[n]? = some d' ∧ d'.room = d.room ∧ d'.dh_public_key = d.dh_public_key

/-- Neither is a bundle that was stored, as far as the clients have seen it. -/
structure Grows (w w' : World ι τ) : Prop where
  sessions : ∀ a, (w.sessions a).Grows (w'.sessions a)
  posted : w.posted ⊆ w'.posted
  bundles : w.bundles ⊆ w.posted → w'.bundles ⊆ w'.posted

theorem SameExchange.refl (room : IDirectRoom τ) : SameExchange room room := ⟨rfl, rfl, rfl⟩

theorem Session.Grows.refl (s : Session τ) : s.Grows s :=
  ⟨rfl, rfl, fun _ room h => ⟨room, h, .refl room⟩, fun _ d h => ⟨d, h, rfl, rfl⟩⟩

theorem Grows.mem_direct {w w' : World ι τ} (h : Grows w w') {a : ι} {room : IDirectRoom τ}
    (hroom : room ∈ (w.sessions a).direct) :
    ∃ room' ∈ (w'.sessions a).direct, SameExchange room room' := by
  obtain ⟨i, hi⟩ := List.mem_iff_getElem?.mp hroom
  obtain ⟨room', hi', hsame⟩ := (h.sessions a).rooms i room hi
  exact ⟨room', List.mem_of_getElem? hi', hsame⟩

/-! ## Actions -/

section

variable (crypto : ICryptography τ) (fresh : ι → τ → IKeyPair τ → τ → τ → Prop)

/-- A bundle that a client made for one of its rooms, with a fresh symmetric key. -/
def OwnBundle (w : World ι τ) (a : ι) (b : Bundle τ) : Prop :=
  ∃ room ∈ (w.sessions a).direct, ∃ symmetricKey coins,
    fresh a room.recipient_public_key ⟨room.dh_public_key, room.dh_private_key⟩ symmetricKey coins ∧
    crypto.encryptMessageSymmetric
      (crypto.stringify room.dh_public_key (w.sessions a).user_public_key) symmetricKey
        = some b.encrypted_content ∧
    crypto.encryptMessageAsymmetric symmetricKey room.recipient_public_key coins
      = some b.encrypted_key ∧
    b.receiver_public_key = room.recipient_public_key

/-- A stored bundle for the client says that the recipient of its room `i` has this key. -/
def Offered (w : World ι τ) (a : ι) (i : ℕ) (dh_public_key : τ) : Prop :=
  ∃ room b contentHash, (w.sessions a).direct[i]? = some room ∧ b ∈ w.posted ∧
    b.receiver_public_key = (w.sessions a).user_public_key ∧
    KeyExchangeManager.openBundle crypto (w.sessions a).user_private_key b
      = some ((dh_public_key, room.recipient_public_key), contentHash)

/-- The rooms have the key of this derivation. -/
def HasKey (d : Derivation τ) (rooms : List (IDirectRoom τ)) : Prop :=
  ∃ room, rooms[d.room]? = some room ∧
    crypto.deriveSharedSecretKey room.dh_private_key d.dh_public_key = some room.symmetric_key

/-- The derivation that was started for a bundle with this hash. -/
def StartedFor (w : World ι τ) (a : ι) (m : IKeyBundleMetadata τ) (d : Derivation τ) : Prop :=
  (w.sessions a).derivations[m.derivation]? = some d ∧
    ∃ room b, (w.sessions a).direct[d.room]? = some room ∧
      KeyExchangeManager.openBundle crypto (w.sessions a).user_private_key b
        = some ((d.dh_public_key, room.recipient_public_key), m.content_hash)

variable [DecidableEq ι] [Inhabited τ]

/-- One action of a call. -/
inductive Effect : World ι τ → World ι τ → Prop
  | same (w : World ι τ) : Effect w w
  | joined {w : World ι τ} (a : ι) (room : IDirectRoom τ)
      (hnew : ∀ r ∈ (w.sessions a).direct, r.recipient_public_key ≠ room.recipient_public_key)
      (hkey : room.symmetric_key = default)
      (hfresh : ∃ symmetricKey coins, fresh a room.recipient_public_key
        ⟨room.dh_public_key, room.dh_private_key⟩ symmetricKey coins) :
      Effect w (w.update a { w.sessions a with direct := (w.sessions a).direct ++ [room] })
  | persisted {w : World ι τ} (a : ι) (profile : List (IDirectRoom τ)) :
      Effect w (w.update a { w.sessions a with storage := profile })
  | posted {w : World ι τ} (a : ι) (b : Bundle τ) (h : OwnBundle crypto fresh w a b) :
      Effect w { w with bundles := w.bundles ++ [b], posted := w.posted ++ [b] }
  | started {w : World ι τ} (a : ι) (i : ℕ) (dh_public_key : τ)
      (h : Offered crypto w a i dh_public_key) :
      Effect w (w.update a { w.sessions a with
        derivations := (w.sessions a).derivations ++ [⟨i, dh_public_key, .started⟩] })
  | assigned {w : World ι τ} (a : ι) (n : ℕ) (s : Session τ)
      (h : ProfileManager.assignKey crypto n (w.sessions a) = some s) : Effect w (w.update a s)
  | saved {w : World ι τ} (a : ι) (n : ℕ) (profile : List (IDirectRoom τ))
      (h : ∃ d, (w.sessions a).derivations[n]? = some d ∧ HasKey crypto d profile) :
      Effect w (w.update a (ProfileManager.markSaved n profile (w.sessions a)))
  | requested {w : World ι τ} (a : ι) (bundles : List (IKeyBundleMetadata τ))
      (h : ∀ m ∈ bundles, ∃ d, StartedFor crypto w a m d) :
      Effect w { w with requests := w.requests ++
        [{ client := a, bundles, storage := (w.sessions a).storage }] }
  | removed {w : World ι τ} (bundles : List (Bundle τ)) (h : bundles ⊆ w.bundles) :
      Effect w { w with bundles }

end

variable {crypto : ICryptography τ} {w w' : World ι τ}

/-- The session that an assigned key leaves. -/
theorem assignKey_eq_some {n : ℕ} {s s' : Session τ}
    (h : ProfileManager.assignKey crypto n s = some s') :
    ∃ d room key, s.derivations[n]? = some d ∧ d.progress = .started ∧
      s.direct[d.room]? = some room ∧
      crypto.deriveSharedSecretKey room.dh_private_key d.dh_public_key = some key ∧
      s' = { s with
        direct := s.direct.set d.room { room with symmetric_key := key }
        derivations := s.derivations.set n { d with progress := .derived } } := by
  unfold ProfileManager.assignKey at h
  obtain ⟨d, hd, h⟩ := Option.bind_eq_some_iff.mp h
  by_cases hprogress : d.progress ≠ .started
  · rw [if_pos hprogress] at h
    cases h
  · rw [if_neg hprogress] at h
    obtain ⟨room, hroom, h⟩ := Option.bind_eq_some_iff.mp h
    obtain ⟨key, hkey, h⟩ := Option.bind_eq_some_iff.mp h
    exact ⟨d, room, key, hd, not_ne_iff.mp hprogress, hroom, hkey, (Option.some.inj h).symm⟩

/-! ## What a call knows -/

/-- The client has this room, up to its symmetric key. -/
def OwnRoom (a : ι) (room : IDirectRoom τ) (w : World ι τ) : Prop :=
  ∃ r ∈ (w.sessions a).direct, SameExchange room r

/-- What a run of the protocol has looked up. -/
structure LookedUp (a : ι) (rooms : List (IDirectRoom τ × ℕ)) (userPublicKey userPrivateKey : τ)
    (w : World ι τ) : Prop where
  publicKey : userPublicKey = (w.sessions a).user_public_key
  privateKey : userPrivateKey = (w.sessions a).user_private_key
  rooms : ∀ room ∈ rooms, ∃ r, (w.sessions a).direct[room.2]? = some r ∧ SameExchange room.1 r

/-- What the loop over the bundles knows. -/
structure Handling (crypto : ICryptography τ) (a : ι) (rooms : List (IDirectRoom τ × ℕ))
    (userPublicKey userPrivateKey : τ) (bundles : List (Bundle τ))
    (bundlesToDelete : List (IKeyBundleMetadata τ)) (w : World ι τ) : Prop where
  lookedUp : LookedUp a rooms userPublicKey userPrivateKey w
  fetched : ∀ b ∈ bundles, b ∈ w.posted ∧ b.receiver_public_key = userPublicKey
  marked : ∀ m ∈ bundlesToDelete, ∃ d, StartedFor crypto w a m d

theorem SameExchange.trans {r s t : IDirectRoom τ} (h : SameExchange r s) (h' : SameExchange s t) :
    SameExchange r t :=
  ⟨h'.recipient.trans h.recipient, h'.dhPublic.trans h.dhPublic, h'.dhPrivate.trans h.dhPrivate⟩

namespace Grows

theorem ownRoom {a : ι} {room : IDirectRoom τ} (h : Grows w w') (hroom : OwnRoom a room w) :
    OwnRoom a room w' := by
  obtain ⟨r, hr, hsame⟩ := hroom
  obtain ⟨r', hr', hsame'⟩ := h.mem_direct hr
  exact ⟨r', hr', hsame.trans hsame'⟩

theorem lookedUp {a : ι} {rooms : List (IDirectRoom τ × ℕ)} {userPublicKey userPrivateKey : τ}
    (h : Grows w w') (hup : LookedUp a rooms userPublicKey userPrivateKey w) :
    LookedUp a rooms userPublicKey userPrivateKey w' := by
  refine ⟨hup.publicKey.trans (h.sessions a).publicKey.symm,
    hup.privateKey.trans (h.sessions a).privateKey.symm, fun room hroom => ?_⟩
  obtain ⟨r, hr, hsame⟩ := hup.rooms room hroom
  obtain ⟨r', hr', hsame'⟩ := (h.sessions a).rooms _ r hr
  exact ⟨r', hr', hsame.trans hsame'⟩

theorem startedFor {a : ι} {m : IKeyBundleMetadata τ} (h : Grows w w')
    (hstart : ∃ d, StartedFor crypto w a m d) : ∃ d, StartedFor crypto w' a m d := by
  obtain ⟨d, hd, room, b, hroom, hopen⟩ := hstart
  obtain ⟨d', hd', hposition, hdh⟩ := (h.sessions a).derivations _ d hd
  obtain ⟨room', hroom', hsame⟩ := (h.sessions a).rooms _ room hroom
  refine ⟨d', hd', room', b, hposition ▸ hroom', ?_⟩
  rw [(h.sessions a).privateKey, hdh, hsame.recipient]
  exact hopen

theorem hasKey {a : ι} {n : ℕ} {profile : List (IDirectRoom τ)} (h : Grows w w')
    (hkey : ∃ d, (w.sessions a).derivations[n]? = some d ∧ HasKey crypto d profile) :
    ∃ d, (w'.sessions a).derivations[n]? = some d ∧ HasKey crypto d profile := by
  obtain ⟨d, hd, room, hroom, hderive⟩ := hkey
  obtain ⟨d', hd', hposition, hdh⟩ := (h.sessions a).derivations _ d hd
  exact ⟨d', hd', room, hposition ▸ hroom, hdh ▸ hderive⟩

theorem handling {a : ι} {rooms : List (IDirectRoom τ × ℕ)} {userPublicKey userPrivateKey : τ}
    {bundles : List (Bundle τ)} {bundlesToDelete : List (IKeyBundleMetadata τ)} (h : Grows w w')
    (hand : Handling crypto a rooms userPublicKey userPrivateKey bundles bundlesToDelete w) :
    Handling crypto a rooms userPublicKey userPrivateKey bundles bundlesToDelete w' :=
  ⟨h.lookedUp hand.lookedUp, fun b hb => ⟨h.posted (hand.fetched b hb).1, (hand.fetched b hb).2⟩,
    fun m hm => h.startedFor (hand.marked m hm)⟩

end Grows

namespace Handling

variable {a : ι} {rooms : List (IDirectRoom τ × ℕ)} {userPublicKey userPrivateKey : τ}
  {b : Bundle τ} {bs : List (Bundle τ)} {bundlesToDelete : List (IKeyBundleMetadata τ)}

/-- The next bundle is skipped. -/
theorem skip
    (h : Handling crypto a rooms userPublicKey userPrivateKey (b :: bs) bundlesToDelete w) :
    Handling crypto a rooms userPublicKey userPrivateKey bs bundlesToDelete w :=
  ⟨h.lookedUp, fun b' hb' => h.fetched b' (List.mem_cons_of_mem b hb'), h.marked⟩

/-- A bundle whose sender is the recipient of a room that was looked up is meant for that room. -/
theorem opens
    (h : Handling crypto a rooms userPublicKey userPrivateKey (b :: bs) bundlesToDelete w)
    {dh_public_key sender_public_key contentHash : τ} {room : IDirectRoom τ × ℕ}
    (hopen : KeyExchangeManager.openBundle crypto userPrivateKey b
      = some ((dh_public_key, sender_public_key), contentHash))
    (hroom : room ∈ rooms) (hsender : room.1.recipient_public_key = sender_public_key) :
    ∃ r, (w.sessions a).direct[room.2]? = some r ∧
      KeyExchangeManager.openBundle crypto (w.sessions a).user_private_key b
        = some ((dh_public_key, r.recipient_public_key), contentHash) := by
  obtain ⟨r, hr, hsame⟩ := h.lookedUp.rooms room hroom
  refine ⟨r, hr, ?_⟩
  rw [← h.lookedUp.privateKey, hsame.recipient, hsender]
  exact hopen

end Handling

/-! ## Every action is a growth -/

theorem Session.Grows.set {s : Session τ} {n : ℕ} {d : Derivation τ} {room : IDirectRoom τ}
    {key : τ} {progress : Progress} (hd : s.derivations[n]? = some d)
    (hroom : s.direct[d.room]? = some room) :
    s.Grows { s with
      direct := s.direct.set d.room { room with symmetric_key := key }
      derivations := s.derivations.set n { d with progress } } := by
  refine ⟨rfl, rfl, fun i r hr => ?_, fun m d' hd' => ?_⟩
  · by_cases hi : i = d.room
    · subst hi
      obtain rfl := Option.some.inj (hroom.symm.trans hr)
      exact ⟨_, List.getElem?_set_self (List.getElem?_eq_some_iff.mp hr).1, rfl, rfl, rfl⟩
    · exact ⟨r, by rw [List.getElem?_set_ne (Ne.symm hi), hr], .refl r⟩
  · by_cases hm : m = n
    · subst hm
      obtain rfl := Option.some.inj (hd.symm.trans hd')
      exact ⟨_, List.getElem?_set_self (List.getElem?_eq_some_iff.mp hd').1, rfl, rfl⟩
    · exact ⟨d', by rw [List.getElem?_set_ne (Ne.symm hm), hd'], rfl, rfl⟩

theorem Session.Grows.append {s : Session τ} (rooms : List (IDirectRoom τ))
    (derivations : List (Derivation τ)) :
    s.Grows { s with
      direct := s.direct ++ rooms
      derivations := s.derivations ++ derivations } := by
  refine ⟨rfl, rfl, fun i room h => ⟨room, ?_, .refl room⟩, fun n d h => ⟨d, ?_, rfl, rfl⟩⟩
  · exact List.getElem?_append_left (List.getElem?_eq_some_iff.mp h).1 ▸ h
  · exact List.getElem?_append_left (List.getElem?_eq_some_iff.mp h).1 ▸ h

theorem Session.Grows.markSaved (s : Session τ) (n : ℕ) (profile : List (IDirectRoom τ)) :
    s.Grows (ProfileManager.markSaved n profile s) := by
  refine ⟨rfl, rfl, fun _ room h => ⟨room, h, .refl room⟩, fun m d h => ?_⟩
  refine ⟨if n = m then { d with progress := .saved } else d, ?_, ?_, ?_⟩
  · show (s.derivations.modify n _)[m]? = _
    rw [List.getElem?_modify, h]
    split <;> simp_all
  all_goals split <;> rfl

theorem mem_markSaved {s : Session τ} {n : ℕ} {profile : List (IDirectRoom τ)} {d' : Derivation τ}
    (h : d' ∈ (ProfileManager.markSaved n profile s).derivations) :
    ∃ d ∈ s.derivations, d'.room = d.room ∧ d'.dh_public_key = d.dh_public_key := by
  obtain ⟨m, hm⟩ := List.mem_iff_getElem?.mp h
  rw [ProfileManager.markSaved, List.getElem?_modify] at hm
  obtain ⟨d, hd, rfl⟩ := Option.map_eq_some_iff.mp hm
  refine ⟨d, List.mem_of_getElem? hd, ?_⟩
  split <;> exact ⟨rfl, rfl⟩

variable [DecidableEq ι] {fresh : ι → τ → IKeyPair τ → τ → τ → Prop}

/-- A change of one session only. -/
theorem Grows.update {a : ι} {s : Session τ} (h : (w.sessions a).Grows s) :
    Grows w (w.update a s) := by
  refine ⟨fun b => ?_, fun _ => id, id⟩
  by_cases hb : b = a
  · rw [hb, World.sessions_update_self]
    exact h
  · rw [World.sessions_update_of_ne hb]
    exact .refl _

/-- The derivation that is started is the one for this bundle. -/
theorem Handling.started {a : ι} {rooms : List (IDirectRoom τ × ℕ)}
    {userPublicKey userPrivateKey : τ} {b : Bundle τ} {bs : List (Bundle τ)}
    {bundlesToDelete : List (IKeyBundleMetadata τ)}
    (h : Handling crypto a rooms userPublicKey userPrivateKey (b :: bs) bundlesToDelete w)
    {i : ℕ} {dh_public_key contentHash : τ} {r : IDirectRoom τ}
    (hr : (w.sessions a).direct[i]? = some r)
    (hopen : KeyExchangeManager.openBundle crypto (w.sessions a).user_private_key b
      = some ((dh_public_key, r.recipient_public_key), contentHash)) :
    Handling crypto a rooms userPublicKey userPrivateKey bs
      (bundlesToDelete ++ [⟨contentHash, userPublicKey, (w.sessions a).derivations.length⟩])
      (w.update a { w.sessions a with
        derivations := (w.sessions a).derivations ++ [⟨i, dh_public_key, .started⟩] }) := by
  have hgrow : Grows w (w.update a { w.sessions a with
      derivations := (w.sessions a).derivations ++ [⟨i, dh_public_key, .started⟩] }) := by
    refine .update ?_
    simpa using Session.Grows.append (s := w.sessions a) [] [⟨i, dh_public_key, .started⟩]
  have h' := hgrow.handling h.skip
  refine ⟨h'.lookedUp, h'.fetched, fun m hm => ?_⟩
  rcases List.mem_append.mp hm with hm | hm
  · exact h'.marked m hm
  · obtain rfl := List.mem_singleton.mp hm
    refine ⟨⟨i, dh_public_key, .started⟩, ?_, r, b, ?_, ?_⟩
    · simp
    · simpa using hr
    · simpa using hopen

variable [Inhabited τ]

theorem Effect.grows (h : Effect crypto fresh w w') : Grows w w' := by
  cases h with
  | same => exact ⟨fun a => .refl _, fun _ => id, id⟩
  | joined a room =>
      refine .update ?_
      simpa using Session.Grows.append (s := w.sessions a) [room] []
  | persisted a profile => exact .update ⟨rfl, rfl, fun _ room h => ⟨room, h, .refl room⟩,
      fun _ d h => ⟨d, h, rfl, rfl⟩⟩
  | posted a b =>
      exact ⟨fun a => .refl _, List.subset_append_left _ _,
        fun h => List.append_subset.mpr ⟨List.Subset.trans h (List.subset_append_left _ _),
          List.subset_append_right _ _⟩⟩
  | started a i dh =>
      refine .update ?_
      simpa using Session.Grows.append (s := w.sessions a) [] [⟨i, dh, .started⟩]
  | assigned a n s h =>
      obtain ⟨d, room, key, hd, -, hroom, -, rfl⟩ := assignKey_eq_some h
      exact .update (.set hd hroom)
  | saved a n profile => exact .update (.markSaved _ n profile)
  | requested a bundles => exact ⟨fun a => .refl _, fun _ => id, id⟩
  | removed bundles h => exact ⟨fun a => .refl _, fun _ => id, fun hsub => List.Subset.trans h hsub⟩

/-! ## The calls -/

/-- Each action of the program is an effect while the others let the world grow. -/
abbrev Proceeds {α : Type} (crypto : ICryptography τ)
    (fresh : ι → τ → IKeyPair τ → τ → τ → Prop) (Q : Except Exn α → World ι τ → Prop)
    (P : World ι τ → Prop) (p : Client ι τ α) : Prop :=
  Triple Grows (Effect crypto fresh) Q P p

theorem proceeds_orThrow_bind {α β : Type} {Q : Except Exn β → World ι τ → Prop}
    {P : World ι τ → Prop} {x : Option α} {f : α → Client ι τ β}
    (hf : ∀ a, x = some a → Proceeds crypto fresh Q P (f a)) (he : ∀ e w, Q (.error e) w) :
    Proceeds crypto fresh Q P (Client.orThrow x >>= f) := by
  cases x with
  | some a => exact hf a rfl
  | none => exact .raise fun w _ => he _ w

theorem proceeds_deriveRoomSecretKey (a : ι) (n : ℕ) :
    Proceeds crypto fresh (fun _ _ => True) (fun _ => True)
      (ProfileManager.deriveRoomSecretKey crypto a n) := by
  unfold ProfileManager.deriveRoomSecretKey
  refine .bind (Q := fun r w => ∀ profile, r = .ok profile →
      ∃ d, (w.sessions a).derivations[n]? = some d ∧ HasKey crypto d profile)
    (.await (fun _ _ _ _ => trivial) (fun w _ => ?_) (fun w _ => ?_)) (fun profile => ?_)
    (fun _ _ _ => trivial)
  · cases hassign : ProfileManager.assignKey crypto n (w.sessions a) with
    | none => exact .same w
    | some s => exact .assigned a n s hassign
  · cases hassign : ProfileManager.assignKey crypto n (w.sessions a) with
    | none =>
        intro profile h
        cases h
    | some s =>
        intro profile h
        obtain ⟨d, room, key, hd, -, hroom, hkey, rfl⟩ := assignKey_eq_some hassign
        cases h
        refine ⟨{ d with progress := .derived }, ?_, _,
          List.getElem?_set_self (List.getElem?_eq_some_iff.mp hroom).1, hkey⟩
        rw [World.sessions_update_self]
        exact List.getElem?_set_self (List.getElem?_eq_some_iff.mp hd).1
  · refine .modify (fun w w' h hgrow profile hp => hgrow.hasKey (h profile hp)) (fun w h => ?_)
      (fun _ _ => trivial)
    exact .saved a n profile (h profile rfl)

section

variable [DecidableEq τ]

theorem proceeds_joinDirectRoom {a : ι} {room : IDirectRoom τ}
    (hkey : room.symmetric_key = default)
    (hfresh : ∃ symmetricKey coins, fresh a room.recipient_public_key
      ⟨room.dh_public_key, room.dh_private_key⟩ symmetricKey coins) :
    Proceeds crypto fresh (fun r w => r = .ok () → OwnRoom a room w) (fun _ => True)
      (ProfileManager.joinDirectRoom a room) := by
  unfold ProfileManager.joinDirectRoom
  refine .bind (Q := fun r w => (∃ profile, r = .ok profile) → OwnRoom a room w)
    (.await (fun _ _ _ _ => trivial) (fun w _ => ?_) (fun w _ => ?_)) (fun profile => ?_) ?_
  · cases hadd : ProfileManager.addDirectRoom (w.sessions a).direct room with
    | error e => exact .same w
    | ok direct =>
        obtain ⟨hnew, rfl⟩ := ProfileManager.addUnless_eq_ok.mp hadd
        exact .joined a room (fun r hr => by simpa using hnew r hr) hkey hfresh
  · cases hadd : ProfileManager.addDirectRoom (w.sessions a).direct room with
    | error e =>
        rintro ⟨profile, h⟩
        cases h
    | ok direct =>
        obtain ⟨-, rfl⟩ := ProfileManager.addUnless_eq_ok.mp hadd
        exact fun _ => ⟨room, by simp, .refl room⟩
  · refine .modify (fun w w' h hgrow hex => hgrow.ownRoom (h hex)) (fun w _ => .persisted a profile)
      fun w h _ => ?_
    have hpersisted : Effect crypto fresh w _ := .persisted a profile
    exact hpersisted.grows.ownRoom (h ⟨profile, rfl⟩)
  · intro e w _ h
    cases h

theorem proceeds_saveKeyExchangeBundle {a : ι} (room : IDirectRoom τ) {symmetricKey coins : τ}
    (hfresh : fresh a room.recipient_public_key ⟨room.dh_public_key, room.dh_private_key⟩
      symmetricKey coins) :
    Proceeds crypto fresh (fun _ _ => True) (OwnRoom a room)
      (KeyExchangeManager.saveKeyExchangeBundle crypto a room.dh_public_key
        room.recipient_public_key symmetricKey coins) := by
  unfold KeyExchangeManager.saveKeyExchangeBundle
  refine .bind (Q := fun r w => ∀ key, r = .ok key →
      OwnRoom a room w ∧ key = (w.sessions a).user_public_key)
    (.query (fun w w' h hgrow => hgrow.ownRoom h) (fun w => .same w) ?_) (fun userPublicKey => ?_)
    (fun _ _ _ => trivial)
  · intro w h key hkey
    exact ⟨h, (Except.ok.inj hkey).symm⟩
  refine proceeds_orThrow_bind (fun content hcontent => ?_) (fun _ _ => trivial)
  refine proceeds_orThrow_bind (fun key hkey => ?_) (fun _ _ => trivial)
  refine .pre (P := fun w => OwnRoom a room w ∧ userPublicKey = (w.sessions a).user_public_key)
    ?_ (fun w h => h _ rfl)
  refine .modify (fun w w' h hgrow => ⟨hgrow.ownRoom h.1, h.2.trans
    (hgrow.sessions a).publicKey.symm⟩) (fun w h => ?_) (fun _ _ => trivial)
  split
  · exact .same w
  · obtain ⟨⟨r, hr, hsame⟩, rfl⟩ := h
    refine .posted a _ ⟨r, hr, symmetricKey, coins, ?_, ?_, ?_, hsame.recipient.symm⟩
    · rwa [hsame.recipient, hsame.dhPublic, hsame.dhPrivate]
    · rwa [hsame.dhPublic]
    · rwa [hsame.recipient]

theorem proceeds_create_direct_room {a : ι} {name room_id : String} {receiver_public_key : τ}
    {dh_keypair : IKeyPair τ} {symmetricKey coins : τ}
    (hfresh : fresh a receiver_public_key dh_keypair symmetricKey coins) :
    Proceeds crypto fresh (fun _ _ => True) (fun _ => True)
      (create_direct_room crypto a name receiver_public_key room_id dh_keypair symmetricKey
        coins) := by
  refine .ofExcept_bind (fun _ _ => ?_) (fun _ _ _ _ => trivial)
  refine .bind (proceeds_joinDirectRoom rfl ⟨symmetricKey, coins, hfresh⟩) (fun _ => ?_)
    (fun _ _ _ => trivial)
  exact (proceeds_saveKeyExchangeBundle ⟨_, _, _, _, _, _, _⟩ hfresh).pre
    fun w h => h rfl

/-! ## The protocol run -/

theorem proceeds_removeBundles (bundles : List (IKeyBundleMetadata τ)) :
    Proceeds crypto fresh (fun _ _ => True) (fun _ => True)
      (ServerCommunication.removeBundles (ι := ι) bundles) := by
  induction bundles with
  | nil => exact .ret fun _ _ => trivial
  | cons m ms ih =>
      refine .bind (Q := fun _ _ => True)
        (.modify (fun _ _ _ _ => trivial) (fun w _ => ?_) fun _ _ => trivial) (fun _ => ih)
        (fun _ _ _ => trivial)
      exact .removed _ List.filter_sublist.subset

theorem proceeds_deleteKeyExchangeBundles (a : ι) (bundles : List (IKeyBundleMetadata τ)) :
    Proceeds crypto fresh (fun _ _ => True) (fun w => ∀ m ∈ bundles, ∃ d, StartedFor crypto w a m d)
      (ServerCommunication.deleteKeyExchangeBundles a bundles) := by
  refine .bind (Q := fun _ _ => True)
    (.modify (fun w w' h hgrow m hm => hgrow.startedFor (h m hm)) (fun w h => ?_)
      fun _ _ => trivial) (fun _ => proceeds_removeBundles bundles) (fun _ _ _ => trivial)
  exact .requested a bundles h

theorem proceeds_handleBundles (a : ι) (rooms : List (IDirectRoom τ × ℕ))
    (userPublicKey userPrivateKey : τ) (bundles : List (Bundle τ))
    (bundlesToDelete : List (IKeyBundleMetadata τ)) :
    Proceeds crypto fresh
      (fun r w => ∀ marked, r = .ok marked → ∀ m ∈ marked, ∃ d, StartedFor crypto w a m d)
      (Handling crypto a rooms userPublicKey userPrivateKey bundles bundlesToDelete)
      (KeyExchangeManager.handleBundles crypto a rooms userPublicKey userPrivateKey bundles
        bundlesToDelete) := by
  induction bundles generalizing bundlesToDelete with
  | nil =>
      refine .ret fun w h marked hm => ?_
      cases hm
      exact h.marked
  | cons b bs ih =>
      have skip := (ih bundlesToDelete).pre fun w => Handling.skip (b := b)
      unfold KeyExchangeManager.handleBundles
      cases hopen : KeyExchangeManager.openBundle crypto userPrivateKey b with
      | none => exact skip
      | some opened =>
          obtain ⟨⟨dh_public_key, sender_public_key⟩, contentHash⟩ := opened
          dsimp only
          cases hfind : rooms.find? fun r => r.1.recipient_public_key = sender_public_key with
          | none => exact skip
          | some room =>
              have hsender : room.1.recipient_public_key = sender_public_key := by
                simpa using List.find?_some hfind
              have hroom : room ∈ rooms := List.mem_of_find?_eq_some hfind
              refine .step (fun _ => id) (fun w w' h hgrow => hgrow.handling h) (fun w h => ?_)
                (fun w h => ?_)
              · obtain ⟨r, hr, hopen'⟩ := h.opens hopen hroom hsender
                obtain ⟨hposted, hreceiver⟩ := h.fetched b List.mem_cons_self
                exact .started a room.2 dh_public_key ⟨r, b, contentHash, hr, hposted,
                  hreceiver.trans h.lookedUp.publicKey, hopen'⟩
              · refine (ih _).pre fun w' hw' => ?_
                subst hw'
                obtain ⟨r, hr, hopen'⟩ := h.opens hopen hroom hsender
                exact h.started hr hopen'

theorem proceeds_scheduledRun (a : ι) :
    Proceeds crypto fresh (fun _ _ => True) (fun w => w.bundles ⊆ w.posted)
      (KeyExchangeManager.scheduledRun crypto a) := by
  refine .bind (Q := fun r w => ∀ rooms, r = .ok rooms → w.bundles ⊆ w.posted ∧
      ∀ room ∈ rooms, ∃ r, (w.sessions a).direct[room.2]? = some r ∧ SameExchange room.1 r)
    (.query (fun w w' h hgrow => hgrow.bundles h) (fun w => .same w) fun w h rooms hrooms => ?_)
    (fun rooms => ?_) (fun _ _ _ => trivial)
  · refine ⟨h, fun room hroom => ⟨room.1, ?_, .refl _⟩⟩
    cases hrooms
    have hmem := (List.mem_filter.mp hroom).1
    exact List.mem_zipIdx_iff_getElem?.mp hmem
  refine .bind (Q := fun r w => ∀ keys, r = .ok keys → w.bundles ⊆ w.posted ∧
      LookedUp a rooms keys.1 keys.2 w)
    (.query (fun w w' h hgrow rooms' hrooms' => ?_) (fun w => .same w) fun w h keys hkeys => ?_)
    (fun keys => ?_) (fun _ _ _ => trivial)
  · obtain ⟨hsub, hlook⟩ := h rooms' hrooms'
    refine ⟨hgrow.bundles hsub, fun room hroom => ?_⟩
    obtain ⟨r, hr, hsame⟩ := hlook room hroom
    obtain ⟨r', hr', hsame'⟩ := (hgrow.sessions a).rooms _ r hr
    exact ⟨r', hr', hsame.trans hsame'⟩
  · obtain ⟨hsub, hlook⟩ := h rooms rfl
    cases hkeys
    exact ⟨hsub, rfl, rfl, hlook⟩
  obtain ⟨userPublicKey, userPrivateKey⟩ := keys
  refine .bind (Q := fun r w => ∀ bundles, r = .ok bundles →
      Handling crypto a rooms userPublicKey userPrivateKey bundles [] w)
    (.query (fun w w' h hgrow keys hkeys => ?_) (fun w => .same w) fun w h bundles hbundles => ?_)
    (fun bundles => ?_) (fun _ _ _ => trivial)
  · exact ⟨hgrow.bundles (h keys hkeys).1, hgrow.lookedUp (h keys hkeys).2⟩
  · obtain ⟨hsub, hup⟩ := h (userPublicKey, userPrivateKey) rfl
    refine ⟨hup, fun b hb => ?_, by simp⟩
    cases hbundles
    obtain ⟨hb, hreceiver⟩ := List.mem_filter.mp hb
    exact ⟨hsub hb, of_decide_eq_true hreceiver⟩
  refine .bind ((proceeds_handleBundles a rooms userPublicKey userPrivateKey bundles []).pre
    fun w h => h bundles rfl) (fun marked => ?_) (fun _ _ _ => trivial)
  split
  · exact .ret fun _ _ => trivial
  · exact (proceeds_deleteKeyExchangeBundles a marked).pre fun w h => h marked rfl

/-- What the environment provides to a call is fresh. -/
def KeyExchangeCall.Fresh (fresh : ι → τ → IKeyPair τ → τ → τ → Prop) : KeyExchangeCall ι τ → Prop
  | createDirectRoom a _ receiver_public_key _ dh_keypair symmetricKey coins =>
      fresh a receiver_public_key dh_keypair symmetricKey coins
  | scheduledRun _ => True
  | deriveRoomSecretKey _ _ => True

/-- Every action of every call is an effect. -/
theorem KeyExchangeCall.safe {call : KeyExchangeCall ι τ} (hfresh : call.Fresh fresh)
    (h : w.bundles ⊆ w.posted) : Safe Grows (Effect crypto fresh) (call.body crypto) w := by
  cases call with
  | createDirectRoom a name receiver_public_key room_id dh_keypair symmetricKey coins =>
      exact .of_triple (proceeds_create_direct_room hfresh) trivial
  | scheduledRun a => exact .of_triple (proceeds_scheduledRun a) h
  | deriveRoomSecretKey a n => exact .of_triple (proceeds_deriveRoomSecretKey a n) trivial

end

/-! ## What a bundle says -/

/-- What the clients rely on: with what the generators return, a key that was encrypted for a client
    decrypts to what it was, and so does the content of a bundle. -/
structure DecryptsBack (crypto : ICryptography τ) (publicKey privateKey : ι → τ)
    (fresh : ι → τ → IKeyPair τ → τ → τ → Prop) : Prop where
  asymmetric : ∀ (a c : ι) (pair : IKeyPair τ) (k coins e : τ), fresh a (publicKey c) pair k coins →
    crypto.encryptMessageAsymmetric k (publicKey c) coins = some e →
      crypto.decryptMessageAsymmetric e (privateKey c) = some k
  symmetric : ∀ (a : ι) (receiver : τ) (pair : IKeyPair τ) (k coins e : τ),
    fresh a receiver pair k coins →
      crypto.encryptMessageSymmetric (crypto.stringify pair.publicKey (publicKey a)) k = some e →
        crypto.decryptMessageSymmetric e k = some (crypto.stringify pair.publicKey (publicKey a))
  parse : ∀ dh sender : τ, crypto.parse (crypto.stringify dh sender) = some (dh, sender)

/-- The client `p` has generated this key for a direct room with the owner of `recipient`. -/
def AnnouncedBy (w : World ι τ) (p : ι) (recipient dh_public_key : τ) : Prop :=
  ∃ room ∈ (w.sessions p).direct,
    room.recipient_public_key = recipient ∧ room.dh_public_key = dh_public_key

omit [DecidableEq ι] [Inhabited τ] in
theorem Grows.announcedBy {p : ι} {recipient dh_public_key : τ} (h : Grows w w')
    (hannounced : AnnouncedBy w p recipient dh_public_key) :
    AnnouncedBy w' p recipient dh_public_key := by
  obtain ⟨room, hroom, hrecipient, hdh⟩ := hannounced
  obtain ⟨room', hroom', hsame⟩ := h.mem_direct hroom
  exact ⟨room', hroom', hsame.recipient.trans hrecipient, hsame.dhPublic.trans hdh⟩

omit [DecidableEq ι] [Inhabited τ] in
theorem Grows.ownBundle {p : ι} {b : Bundle τ} (h : Grows w w')
    (hown : OwnBundle crypto fresh w p b) : OwnBundle crypto fresh w' p b := by
  obtain ⟨room, hroom, symmetricKey, coins, hfresh, hcontent, hkey, hreceiver⟩ := hown
  obtain ⟨room', hroom', hsame⟩ := h.mem_direct hroom
  refine ⟨room', hroom', symmetricKey, coins, ?_, ?_, ?_, hreceiver.trans hsame.recipient.symm⟩
  · rwa [hsame.recipient, hsame.dhPublic, hsame.dhPrivate]
  · rwa [hsame.dhPublic, (h.sessions p).publicKey]
  · rwa [hsame.recipient]

omit [DecidableEq ι] [Inhabited τ] in
/-- Its receiver opens the bundle of a client and finds the key that this client generated. -/
theorem OwnBundle.opens {publicKey privateKey : ι → τ} {p c : ι} {b : Bundle τ}
    {dh_public_key sender contentHash : τ}
    (hback : DecryptsBack crypto publicKey privateKey fresh)
    (hown : OwnBundle crypto fresh w p b) (hp : (w.sessions p).user_public_key = publicKey p)
    (hreceiver : b.receiver_public_key = publicKey c)
    (hopen : KeyExchangeManager.openBundle crypto (privateKey c) b
      = some ((dh_public_key, sender), contentHash)) :
    AnnouncedBy w p (publicKey c) dh_public_key ∧ sender = publicKey p := by
  obtain ⟨room, hroom, symmetricKey, coins, hfresh, hcontent, hkey, hrecipient⟩ := hown
  rw [hreceiver] at hrecipient
  rw [← hrecipient] at hkey hfresh
  rw [hp] at hcontent
  simp only [KeyExchangeManager.openBundle, hback.asymmetric p c _ _ _ _ hfresh hkey,
    hback.symmetric p _ _ _ _ _ hfresh hcontent, hback.parse, Option.bind_eq_bind,
    Option.bind_some, Option.some.injEq, Prod.mk.injEq] at hopen
  obtain ⟨⟨rfl, rfl⟩, -⟩ := hopen
  exact ⟨⟨room, hroom, hrecipient.symm, rfl⟩, rfl⟩

end ZkChat
