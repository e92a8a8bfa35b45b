import ZkChat.Client.IdealCryptography

set_option autoImplicit false

/-! # Whose key a direct room gets

Honest clients `ι` and other members `μ`, who see every bundle and post what they can derive. A
bundle is encrypted for its receiver but nothing in it is signed, so a member who makes one may name
anyone as the sender. What honest clients post is authentic: nobody else learns the symmetric key
of such a bundle, so nothing but its own content goes with it. -/

namespace ZkChat

open Prog Term

/-- A symmetric key is generated for one bundle, from one member to another. -/
structure KeyName (ι μ : Type) where
  owner : ι ⊕ μ
  receiver : ι ⊕ μ
  index : ℕ
deriving DecidableEq

/-- Members have one key pair each and as many Diffie-Hellman pairs as they like. -/
abbrev Message (ι μ : Type) := Term (ι ⊕ μ) (KeyName ι μ) ((ι ⊕ μ) × ℕ)

section

variable {ι μ : Type}

def userPublicKey (a : ι) : Message ι μ := .publicKey (.inl a)

def userPrivateKey (a : ι) : Message ι μ := .privateKey (.inl a)

/-- The generators of a client return keys that no one else has. -/
def FreshKeys (a : ι) (receiver : Message ι μ) (pair : IKeyPair (Message ι μ))
    (symmetricKey _coins : Message ι μ) : Prop :=
  (∃ n, pair = dhKeyPair (.inl a, n)) ∧
    ∀ u, receiver = .publicKey u → ∃ n, symmetricKey = .symmetricKey ⟨.inl a, u, n⟩

/-! ## The other members -/

/-- What they know from the start: all public keys and their own private ones. -/
inductive InitiallyKnown : Message ι μ → Prop
  | empty : InitiallyKnown .empty
  | publicKey (u : ι ⊕ μ) : InitiallyKnown (.publicKey u)
  | privateKey (m : μ) : InitiallyKnown (.privateKey (.inr m))
  | dhPublic (x : (ι ⊕ μ) × ℕ) : InitiallyKnown (.dhPublic x)
  | dhPrivate (m : μ) (n : ℕ) : InitiallyKnown (.dhPrivate (.inr m, n))
  | symmetricKey (m : μ) (receiver : ι ⊕ μ) (n : ℕ) :
      InitiallyKnown (.symmetricKey ⟨.inr m, receiver, n⟩)

/-- The fields of a bundle that the server hands out. -/
def Bundle.Shows (b : Bundle (Message ι μ)) (t : Message ι μ) : Prop :=
  t = b.encrypted_content ∨ t = b.encrypted_key ∨ t = b.receiver_public_key

def knowledge (w : World ι (Message ι μ)) : Set (Message ι μ) :=
  { t | InitiallyKnown t ∨ ∃ b ∈ w.posted, b.Shows t }

/-- What the other members do at the server. -/
inductive Intruder (allowed : World ι (Message ι μ) → Bundle (Message ι μ) → Prop) :
    World ι (Message ι μ) → World ι (Message ι μ) → Prop
  | posts {w : World ι (Message ι μ)} (b : Bundle (Message ι μ))
      (hmade : ∀ t, b.Shows t → Derives (knowledge w) t) (hallowed : allowed w b) :
      Intruder allowed w { w with bundles := w.bundles ++ [b], posted := w.posted ++ [b] }
  | deletes {w : World ι (Message ι μ)} (bundles : List (Bundle (Message ι μ)))
      (h : bundles ⊆ w.bundles) : Intruder allowed w { w with bundles }

variable [DecidableEq ι] [DecidableEq μ]

/-- The bundle is not one for a client that a member has encrypted itself and that names another
    client as the sender. -/
def Unforged (w : World ι (Message ι μ)) (b : Bundle (Message ι μ)) : Prop :=
  ∀ (c p : ι) (k dh : Message ι μ), b.receiver_public_key = userPublicKey c →
    cryptography.decryptMessageAsymmetric b.encrypted_key (userPrivateKey c) = some k →
      cryptography.decryptMessageSymmetric b.encrypted_content k
        = some (.pair dh (userPublicKey p)) → ¬ Derives (knowledge w) k

/-- Wherever a client has set the key of a direct room with a client `p`, the key it used is one
    that `p` generated for a direct room with it. -/
def KeysAuthentic (w : World ι (Message ι μ)) : Prop :=
  ∀ (c : ι), ∀ d ∈ (w.sessions c).derivations, d.progress ≠ .started →
    ∀ room, (w.sessions c).direct[d.room]? = some room →
      ∀ p, room.recipient_public_key = userPublicKey p →
        AnnouncedBy w p (userPublicKey c) d.dh_public_key

/-- The runs in which the other members post what is `allowed`. -/
abbrev AttackedRuns (allowed : World ι (Message ι μ) → Bundle (Message ι μ) → Prop) :
    Pool (KeyExchangeCall ι (Message ι μ)) (World ι (Message ι μ)) Exn Unit →
      Pool (KeyExchangeCall ι (Message ι μ)) (World ι (Message ι μ)) Exn Unit → Prop :=
  Pool.Runs (KeyExchangeCall.body cryptography) (KeyExchangeCall.Fresh FreshKeys) (fun _ _ => True)
    (Intruder allowed)

end

/-! ## What stays secret -/

section

variable {ι μ : Type} {w w' : World ι (Message ι μ)}

/-- The key of a bundle between clients is meant for its content. -/
def policy (w : World ι (Message ι μ)) : Policy (ι ⊕ μ) (KeyName ι μ) ((ι ⊕ μ) × ℕ) where
  honest u := ∃ a, u = .inl a
  secret n := (∃ a, n.owner = .inl a) ∧ ∃ a, n.receiver = .inl a
  receiver := KeyName.receiver
  meant n m := ∃ p dh, n.owner = .inl p ∧ m = .pair dh (userPublicKey p) ∧
    AnnouncedBy w p (.publicKey n.receiver) dh

/-- What every run keeps. -/
structure Authentic [DecidableEq ι] [DecidableEq μ] (w : World ι (Message ι μ)) : Prop where
  userKeys : ∀ a, (w.sessions a).user_public_key = userPublicKey a ∧
    (w.sessions a).user_private_key = userPrivateKey a
  bundles : w.bundles ⊆ w.posted
  guarded : ∀ b ∈ w.posted, ∀ t, b.Shows t → Guarded (policy w) (knowledge w) t
  opens : ∀ b ∈ w.posted, ∀ c p dh contentHash, b.receiver_public_key = userPublicKey c →
    KeyExchangeManager.openBundle cryptography (userPrivateKey c) b
      = some ((dh, userPublicKey p), contentHash) → AnnouncedBy w p (userPublicKey c) dh
  derivations : ∀ (c : ι), ∀ d ∈ (w.sessions c).derivations,
    ∃ room, (w.sessions c).direct[d.room]? = some room ∧
      ∀ p, room.recipient_public_key = userPublicKey p →
        AnnouncedBy w p (userPublicKey c) d.dh_public_key

theorem knowledge_mono (h : w.posted ⊆ w'.posted) : knowledge w ⊆ knowledge w' := by
  rintro t (ht | ⟨b, hb, ht⟩)
  · exact .inl ht
  · exact .inr ⟨b, h hb, ht⟩

theorem Grows.guarded (h : Grows w w') {t : Message ι μ}
    (ht : Guarded (policy w) (knowledge w) t) : Guarded (policy w') (knowledge w') t := by
  refine Guarded.mono (knowledge_mono h.posted) (fun n m => ?_) ht
  rintro ⟨p, dh, howner, hm, hannounced⟩
  exact ⟨p, dh, howner, hm, h.announcedBy hannounced⟩

theorem InitiallyKnown.guarded {t : Message ι μ} (h : InitiallyKnown t) :
    Guarded (policy w) (knowledge w) t := by
  cases h with
  | empty | publicKey _ | dhPublic _ | dhPrivate _ _ => trivial
  | privateKey m =>
      rintro ⟨a, ha⟩
      cases ha
  | symmetricKey m receiver n =>
      rintro ⟨⟨a, ha⟩, -⟩
      cases ha

variable [DecidableEq ι] [DecidableEq μ]

/-- Nobody but the clients can make anything that is not guarded. -/
theorem Authentic.guarded_of_derives (h : Authentic w) {t : Message ι μ}
    (ht : Derives (knowledge w) t) : Guarded (policy w) (knowledge w) t := by
  refine ht.guarded ?_
  rintro s (hs | ⟨b, hb, hs⟩)
  · exact hs.guarded
  · exact h.guarded b hb s hs

theorem decryptMessageAsymmetric_eq_some {e k : Message ι μ} {c : ι}
    (h : cryptography.decryptMessageAsymmetric e (userPrivateKey c) = some k) :
    ∃ coins, e = .wrapped k coins (.inl c) := by
  simp only [cryptography, userPrivateKey] at h
  split at h
  · next m coins u u' heq =>
      cases heq
      split at h
      · next hu =>
          cases h
          exact ⟨coins, hu ▸ rfl⟩
      · cases h
  · cases h

theorem decryptMessageSymmetric_eq_some {e k m : Message ι μ}
    (h : cryptography.decryptMessageSymmetric e k = some m) : e = .encrypted m k := by
  simp only [cryptography] at h
  split at h
  · split at h
    · next hk =>
        cases h
        rw [hk]
    · cases h
  · cases h

/-- Only the two right ciphertexts are opened. -/
theorem openBundle_eq_some {b : Bundle (Message ι μ)} {c : ι} {dh sender contentHash : Message ι μ}
    (h : KeyExchangeManager.openBundle cryptography (userPrivateKey c) b
      = some ((dh, sender), contentHash)) :
    ∃ k, cryptography.decryptMessageAsymmetric b.encrypted_key (userPrivateKey c) = some k ∧
      cryptography.decryptMessageSymmetric b.encrypted_content k = some (.pair dh sender) := by
  unfold KeyExchangeManager.openBundle at h
  obtain ⟨k, hk, h⟩ := Option.bind_eq_some_iff.mp h
  obtain ⟨m, hm, h⟩ := Option.bind_eq_some_iff.mp h
  obtain ⟨content, hcontent, h⟩ := Option.bind_eq_some_iff.mp h
  refine ⟨k, hk, ?_⟩
  cases h
  simp only [cryptography] at hcontent
  split at hcontent
  · cases hcontent
    exact hm
  · cases hcontent

theorem userKeys_decryptBack :
    DecryptsBack (cryptography (υ := ι ⊕ μ)) userPublicKey userPrivateKey FreshKeys :=
  decryptsBack .inl FreshKeys

/-! ## The moves -/

/-- A change of one session that sets no key another member chose. -/
theorem Authentic.update (h : Authentic w) {a : ι} {s : Session (Message ι μ)}
    (hgrow : (w.sessions a).Grows s)
    (hderivations : ∀ d ∈ s.derivations, ∃ room, s.direct[d.room]? = some room ∧
      ∀ p, room.recipient_public_key = userPublicKey p →
        AnnouncedBy (w.update a s) p (userPublicKey a) d.dh_public_key) :
    Authentic (w.update a s) := by
  have hgrow' : Grows w (w.update a s) := .update hgrow
  refine ⟨fun b => ⟨?_, ?_⟩, h.bundles, fun b hb t ht => hgrow'.guarded (h.guarded b hb t ht),
    fun b hb c p dh contentHash hreceiver hopen => ?_, fun c => ?_⟩
  · exact (hgrow'.sessions b).publicKey.trans (h.userKeys b).1
  · exact (hgrow'.sessions b).privateKey.trans (h.userKeys b).2
  · exact hgrow'.announcedBy (h.opens b hb c p dh contentHash hreceiver hopen)
  · by_cases hc : c = a
    · subst hc
      rw [World.sessions_update_self]
      exact hderivations
    · rw [World.sessions_update_of_ne hc]
      intro d hd
      obtain ⟨room, hroom, hannounced⟩ := h.derivations c d hd
      exact ⟨room, hroom, fun p hp => hgrow'.announcedBy (hannounced p hp)⟩

/-- A derivation that goes on. -/
theorem Authentic.derivation (h : Authentic w) (hgrow : Grows w w') {a : ι}
    {s : Session (Message ι μ)} (hs : (w.sessions a).Grows s) {d' : Derivation (Message ι μ)}
    (hold : ∃ d ∈ (w.sessions a).derivations, d'.room = d.room ∧
      d'.dh_public_key = d.dh_public_key) :
    ∃ room, s.direct[d'.room]? = some room ∧ ∀ p, room.recipient_public_key = userPublicKey p →
      AnnouncedBy w' p (userPublicKey a) d'.dh_public_key := by
  obtain ⟨d, hd, hposition, hdh⟩ := hold
  obtain ⟨room, hroom, hannounced⟩ := h.derivations a d hd
  obtain ⟨room', hroom', hsame⟩ := hs.rooms d.room room hroom
  refine ⟨room', hposition ▸ hroom', fun p hp => ?_⟩
  rw [hdh]
  exact hgrow.announcedBy (hannounced p (hsame.recipient ▸ hp))

/-- A bundle that a client posts is guarded. -/
theorem guarded_ownBundle {a : ι} {b : Bundle (Message ι μ)} (h : Authentic w)
    (hown : OwnBundle cryptography FreshKeys w a b) (hb : b ∈ w'.posted) (hgrow : Grows w w')
    {t : Message ι μ} (ht : b.Shows t) : Guarded (policy w') (knowledge w') t := by
  obtain ⟨room, hroom, symmetricKey, coins, ⟨⟨n, hpair⟩, hname⟩, hcontent, hkey, hreceiver⟩ := hown
  obtain ⟨u, hu, hsealed⟩ : ∃ u, room.recipient_public_key = .publicKey u ∧
      b.encrypted_key = .wrapped symmetricKey coins u := by
    simp only [cryptography] at hkey
    split at hkey
    · next u hu => exact ⟨u, hu, (Option.some.inj hkey).symm⟩
    · cases hkey
  obtain ⟨k, rfl⟩ := hname u hu
  have hdh : room.dh_public_key = .dhPublic (.inl a, n) := congrArg IKeyPair.publicKey hpair
  have henc : b.encrypted_content = .encrypted (.pair (.dhPublic (.inl a, n)) (userPublicKey a))
      (.symmetricKey ⟨.inl a, u, k⟩) := by
    rw [← hdh, ← (h.userKeys a).1]
    exact (Option.some.inj hcontent).symm
  rcases ht with rfl | rfl | rfl
  · rw [henc]
    refine ⟨?_, fun _ => ⟨trivial, trivial⟩⟩
    rintro m hm ⟨-, c, hc⟩
    cases hm
    exact ⟨a, _, rfl, rfl, hgrow.announcedBy ⟨room, hroom, hu, hdh⟩⟩
  · rw [hsealed]
    -- a key that is sealed for another member is known to the members
    cases u with
    | inl c => exact .inl ⟨_, rfl, ⟨⟨a, rfl⟩, c, rfl⟩, rfl, c, rfl⟩
    | inr m =>
        have hposted : b.encrypted_key ∈ knowledge w' := .inr ⟨b, hb, .inr (.inl rfl)⟩
        rw [hsealed] at hposted
        refine .inr ⟨.unwrap (.known hposted) (.known (.inl (.privateKey m))), ?_⟩
        rintro ⟨-, c, hc⟩
        cases hc
  · rw [hreceiver, hu]
    trivial

theorem Authentic.effect (h : Authentic w) (heffect : Effect cryptography FreshKeys w w') :
    Authentic w' := by
  have hgrow := heffect.grows
  cases heffect with
  | same => exact h
  | joined a room =>
      have hs := hgrow.sessions a
      rw [World.sessions_update_self] at hs
      exact h.update hs fun d hd => h.derivation hgrow hs ⟨d, hd, rfl, rfl⟩
  | persisted a profile =>
      have hs := hgrow.sessions a
      rw [World.sessions_update_self] at hs
      exact h.update hs fun d hd => h.derivation hgrow hs ⟨d, hd, rfl, rfl⟩
  | posted a b hown =>
      refine ⟨h.userKeys, hgrow.bundles h.bundles, fun b' hb' t ht => ?_,
        fun b' hb' c p dh contentHash hreceiver hopen => ?_, fun c d hd => ?_⟩
      · rcases List.mem_append.mp hb' with hold | hnew
        · exact hgrow.guarded (h.guarded b' hold t ht)
        · obtain rfl := List.mem_singleton.mp hnew
          exact guarded_ownBundle h hown hb' hgrow ht
      · rcases List.mem_append.mp hb' with hold | hnew
        · exact hgrow.announcedBy (h.opens b' hold c p dh contentHash hreceiver hopen)
        · obtain rfl := List.mem_singleton.mp hnew
          obtain ⟨hby, hsender⟩ := hown.opens userKeys_decryptBack (h.userKeys a).1 hreceiver hopen
          obtain rfl := Sum.inl.inj (Term.publicKey.inj hsender)
          exact hgrow.announcedBy hby
      · obtain ⟨room, hroom, hannounced⟩ := h.derivations c d hd
        exact ⟨room, hroom, fun p hp => hgrow.announcedBy (hannounced p hp)⟩
  | started a i dh hoffered =>
      have hs := hgrow.sessions a
      rw [World.sessions_update_self] at hs
      refine h.update hs fun d hd => ?_
      rcases List.mem_append.mp hd with hd | hd
      · exact h.derivation hgrow hs ⟨d, hd, rfl, rfl⟩
      · obtain rfl := List.mem_singleton.mp hd
        obtain ⟨room, b, contentHash, hroom, hb, hreceiver, hopen⟩ := hoffered
        rw [(h.userKeys a).1] at hreceiver
        rw [(h.userKeys a).2] at hopen
        refine ⟨room, hroom, fun p hp => ?_⟩
        -- the room is matched by the sender that the content names
        rw [hp] at hopen
        exact hgrow.announcedBy (h.opens b hb a p dh contentHash hreceiver hopen)
  | assigned a n s hassign =>
      obtain ⟨d, room, key, hd, -, hroom, -, rfl⟩ := assignKey_eq_some hassign
      refine h.update (.set hd hroom) fun d' hd' => h.derivation hgrow (.set hd hroom) ?_
      rcases List.mem_or_eq_of_mem_set hd' with hd' | rfl
      · exact ⟨d', hd', rfl, rfl⟩
      · exact ⟨d, List.mem_of_getElem? hd, rfl, rfl⟩
  | saved a n profile =>
      exact h.update (.markSaved _ n profile) fun d' hd' =>
        h.derivation hgrow (.markSaved _ n profile) (mem_markSaved hd')
  | requested a bundles => exact ⟨h.userKeys, h.bundles, h.guarded, h.opens, h.derivations⟩
  | removed bundles hsub =>
      exact ⟨h.userKeys, List.Subset.trans hsub h.bundles, h.guarded, h.opens, h.derivations⟩

theorem Authentic.intruder (h : Authentic w) (hmove : Intruder Unforged w w') :
    Authentic w' ∧ Grows w w' := by
  cases hmove with
  | deletes bundles hsub =>
      exact ⟨⟨h.userKeys, List.Subset.trans hsub h.bundles, h.guarded, h.opens, h.derivations⟩,
        fun a => .refl _, fun _ => id, fun hold => List.Subset.trans hsub hold⟩
  | posts b hmade hunforged =>
      have hgrow : Grows w { w with bundles := w.bundles ++ [b], posted := w.posted ++ [b] } :=
        ⟨fun a => .refl _, List.subset_append_left _ _, fun hold =>
          List.append_subset.mpr ⟨List.Subset.trans hold (List.subset_append_left _ _),
            List.subset_append_right _ _⟩⟩
      refine ⟨⟨h.userKeys, hgrow.bundles h.bundles, fun b' hb' t ht => ?_,
        fun b' hb' c p dh contentHash hreceiver hopen => ?_, fun c d hd => ?_⟩, hgrow⟩
      · rcases List.mem_append.mp hb' with hold | hnew
        · exact hgrow.guarded (h.guarded b' hold t ht)
        · obtain rfl := List.mem_singleton.mp hnew
          exact hgrow.guarded (h.guarded_of_derives (hmade t ht))
      · rcases List.mem_append.mp hb' with hold | hnew
        · exact hgrow.announcedBy (h.opens b' hold c p dh contentHash hreceiver hopen)
        · obtain rfl := List.mem_singleton.mp hnew
          -- the members do not know its key, so its content is one that a client wrote
          obtain ⟨k, hkey, hcontent⟩ := openBundle_eq_some hopen
          have hunknown := hunforged c p k dh hreceiver hkey hcontent
          obtain ⟨coins, hsealed⟩ := decryptMessageAsymmetric_eq_some hkey
          have henc := decryptMessageSymmetric_eq_some hcontent
          obtain ⟨n, (hn : n.receiver = .inl c), p', dh', -, hm, hannounced⟩ := meant_of_guarded
            (henc ▸ h.guarded_of_derives (hmade _ (.inl rfl)))
            (hsealed ▸ h.guarded_of_derives (hmade _ (.inr (.inl rfl)))) hunknown
          obtain ⟨rfl, hp⟩ := Term.pair.inj hm
          obtain rfl := Sum.inl.inj (Term.publicKey.inj hp)
          rw [hn] at hannounced
          exact hgrow.announcedBy hannounced
      · obtain ⟨room, hroom, hannounced⟩ := h.derivations c d hd
        exact ⟨room, hroom, fun p hp => hgrow.announcedBy (hannounced p hp)⟩

/-- The keys of direct rooms are authentic in the runs in which no other member encrypts a bundle in
    the name of a client. -/
theorem keysAuthentic_of_unforged
    {pool : Pool (KeyExchangeCall ι (Message ι μ)) (World ι (Message ι μ)) Exn Unit}
    (hruns : AttackedRuns Unforged ⟨[], .start userPublicKey userPrivateKey⟩ pool) :
    KeysAuthentic pool.state := by
  have hg : Pool.Guarantee (KeyExchangeCall.body cryptography) (KeyExchangeCall.Fresh FreshKeys)
      (fun _ _ => True) (Intruder Unforged) Authentic
      (Effect (ι := ι) (τ := Message ι μ) cryptography FreshKeys) Grows :=
    { refl := .same
      safe := fun _ hfresh _ h => KeyExchangeCall.safe hfresh h.bundles
      step := fun _ _ h heffect _ => ⟨h.effect heffect, heffect.grows⟩
      env := fun _ _ h hmove => h.intruder hmove }
  have hinv := hg.inv (s := .start userPublicKey userPrivateKey) ⟨fun _ => ⟨rfl, rfl⟩, fun _ => id,
    by simp [World.start], by simp [World.start], by simp [World.start]⟩ hruns
  intro c d hd _ room hroom p hp
  obtain ⟨room', hroom', hannounced⟩ := hinv.derivations c d hd
  obtain rfl := Option.some.inj (hroom.symm.trans hroom')
  exact hannounced p hp

end

/-! ## A bundle in another's name -/

namespace Demo

/-- Two clients and one other member. -/
abbrev Letter := Message Bool Unit

/-- A bundle of the other member for the first client, from whomever it names. -/
def bundleFrom (sender : Letter) : Bundle Letter where
  encrypted_content :=
    .encrypted (.pair (.dhPublic (.inr (), 0)) sender) (.symmetricKey ⟨.inr (), .inl false, 0⟩)
  content_hash := .hash (.pair (.dhPublic (.inr (), 0)) sender)
  encrypted_key := .wrapped (.symmetricKey ⟨.inr (), .inl false, 0⟩) .empty (.inl false)
  receiver_public_key := .publicKey (.inl false)

/-- The calls of the first client, which creates a room with the second, runs the protocol and
    finishes what it starts, and of the second, which creates a room with the first. -/
def calls : List (KeyExchangeCall Bool Letter) :=
  [.createDirectRoom false "" (userPublicKey true) "" (dhKeyPair (.inl false, 0))
      (.symmetricKey ⟨.inl false, .inl true, 0⟩) .empty,
    .scheduledRun false, .deriveRoomSecretKey false 0,
    .createDirectRoom true "" (userPublicKey false) "" (dhKeyPair (.inl true, 0))
      (.symmetricKey ⟨.inl true, .inl false, 0⟩) .empty]

/-- The first client has its room when the bundle arrives. -/
def received (sender : Letter) : Pool (KeyExchangeCall Bool Letter) (World Bool Letter) Exn Unit :=
  let pool := (Pool.startAll (KeyExchangeCall.body cryptography) calls
    (.start userPublicKey userPrivateKey)).steps [0, 0, 0, 0]
  { pool with state := { pool.state with
      bundles := pool.state.bundles ++ [bundleFrom sender]
      posted := pool.state.posted ++ [bundleFrom sender] } }

theorem fresh_calls : ∀ call ∈ calls, call.Fresh FreshKeys := by
  unfold calls
  simp only [List.mem_cons, List.not_mem_nil, or_false]
  rintro call (rfl | rfl | rfl | rfl)
  · refine ⟨⟨0, rfl⟩, fun u hu => ⟨0, ?_⟩⟩
    cases hu
    rfl
  · trivial
  · trivial
  · refine ⟨⟨0, rfl⟩, fun u hu => ⟨0, ?_⟩⟩
    cases hu
    rfl

/-- The other member can make the bundle. -/
theorem runs_received {allowed : World Bool Letter → Bundle Letter → Prop} (u : Bool ⊕ Unit)
    (hallowed : ∀ w, allowed w (bundleFrom (.publicKey u))) (schedule : List ℕ) :
    AttackedRuns allowed ⟨[], .start userPublicKey userPrivateKey⟩
      ((received (.publicKey u)).steps schedule) := by
  have hbefore : AttackedRuns allowed ⟨[], .start userPublicKey userPrivateKey⟩ _ :=
    Pool.Runs.steps (.startAll fresh_calls _) (fun _ _ => trivial) [0, 0, 0, 0]
  refine Pool.Runs.steps (hbefore.tail (.env (.posts (bundleFrom (.publicKey u)) ?_ (hallowed _))))
    (fun _ _ => trivial) _
  have hkey : ∀ w : World Bool Letter,
      Derives (knowledge w) (.symmetricKey ⟨.inr (), .inl false, 0⟩) :=
    fun w => .known (.inl (.symmetricKey () _ 0))
  rintro t (rfl | rfl | rfl)
  · exact .encrypt (.pair (.known (.inl (.dhPublic _))) (.known (.inl (.publicKey u)))) (hkey _)
  · exact .wrap (hkey _) (.known (.inl .empty))
  · exact .known (.inl (.publicKey _))

/-- The client runs the protocol at once and finishes the derivation. -/
def forged : Pool (KeyExchangeCall Bool Letter) (World Bool Letter) Exn Unit :=
  (received (userPublicKey true)).steps [1, 1, 1, 1, 2]

/-- Before it does, the second client creates its room. -/
def unforged : Pool (KeyExchangeCall Bool Letter) (World Bool Letter) Exn Unit :=
  (received (.publicKey (.inr ()))).steps [3, 3, 3, 3, 1, 1, 1, 1, 2]

end Demo

/-- The other member names the second client, and the first one takes its key for that client's. -/
theorem forged_key :
    ¬ ∀ pool : Pool (KeyExchangeCall Bool Demo.Letter) (World Bool Demo.Letter) Exn Unit,
      AttackedRuns (fun _ _ => True) ⟨[], .start userPublicKey userPrivateKey⟩ pool →
        KeysAuthentic pool.state := by
  intro h
  have hauth := h Demo.forged (Demo.runs_received (.inl true) (fun _ => trivial) _)
  have hderived : ∃ d ∈ (Demo.forged.state.sessions false).derivations,
      d.progress ≠ .started ∧ d.room = 0 := by
    decide +kernel
  have hroom : (Demo.forged.state.sessions false).direct[0]? = some
      ⟨"", "", "DIRECT", .shared s((.inl false, 0), (.inr (), 0)), userPublicKey true,
        .dhPublic (.inl false, 0), .dhPrivate (.inl false, 0)⟩ := by
    decide +kernel
  obtain ⟨d, hd, hprogress, hzero⟩ := hderived
  obtain ⟨r, hr, -⟩ := hauth false d hd hprogress _ (hzero ▸ hroom) true rfl
  have hnone : (Demo.forged.state.sessions true).direct = [] := by decide +kernel
  rw [hnone] at hr
  cases hr

/-- The key that the second client generated arrives beside a bundle that the other member posts in
    its own name. -/
theorem unforged_key :
    ((Demo.unforged.state.sessions false).derivations.map (·.dh_public_key)
        = [.dhPublic (.inl true, 0)]) ∧ KeysAuthentic Demo.unforged.state := by
  refine ⟨by decide +kernel, keysAuthentic_of_unforged
    (Demo.runs_received (.inr ()) (fun w c p k dh _ _ hcontent => ?_) _)⟩
  have := decryptMessageSymmetric_eq_some hcontent
  cases this

end ZkChat
