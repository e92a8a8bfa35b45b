import ZkChat.Client.IdealCryptography
import Mathlib.Data.List.Nodup

set_option autoImplicit false

/-! # The two sides of a direct room agree

Honest clients, whatever the order in which they create rooms, run the protocol and finish the
derivations they started. A client has one room for each recipient, so for each other client there
is one key that this client generated for it, and every derivation of a room uses that one
(`Exchange.keys`): a key that is derived again is the same key, and the keys of the two sides are
the two ends of one Diffie-Hellman exchange. -/

namespace ZkChat

open Prog

variable {ι τ : Type}

section

variable (crypto : ICryptography τ) (publicKey privateKey : ι → τ)
  (fresh : ι → τ → IKeyPair τ → τ → τ → Prop)

/-- The generator of Diffie-Hellman pairs may return this one. -/
def Generated (pair : IKeyPair τ) : Prop :=
  ∃ a receiver symmetricKey coins, fresh a receiver pair symmetricKey coins

/-- The sender is a client that has generated this key for a direct room with `c`. -/
def Announced (w : World ι τ) (c : ι) (dh_public_key sender : τ) : Prop :=
  ∃ p, sender = publicKey p ∧ AnnouncedBy w p (publicKey c) dh_public_key

variable [Inhabited τ]

/-- A client whose rooms have keys of their recipients only. -/
structure Exchanging (w : World ι τ) (c : ι) (s : Session τ) : Prop where
  oneRoom : (s.direct.map (·.recipient_public_key)).Nodup
  pairs : ∀ room ∈ s.direct, Generated fresh ⟨room.dh_public_key, room.dh_private_key⟩
  derivations : ∀ d ∈ s.derivations, ∃ room, s.direct[d.room]? = some room ∧
    Announced publicKey w c d.dh_public_key room.recipient_public_key
  keys : ∀ room ∈ s.direct, room.symmetric_key = default ∨
    ∃ dh, Announced publicKey w c dh room.recipient_public_key ∧
      crypto.deriveSharedSecretKey room.dh_private_key dh = some room.symmetric_key

/-- What every run keeps. -/
structure Exchange (w : World ι τ) : Prop where
  userKeys : ∀ a, (w.sessions a).user_public_key = publicKey a ∧
    (w.sessions a).user_private_key = privateKey a
  bundles : w.bundles ⊆ w.posted
  posted : ∀ b ∈ w.posted, ∃ p, OwnBundle crypto fresh w p b
  sessions : ∀ c, Exchanging crypto publicKey fresh w c (w.sessions c)

/-- A room that has a key keeps it. -/
def Session.KeepsKeys (s s' : Session τ) : Prop :=
  ∀ (i : ℕ) (room : IDirectRoom τ), s.direct[i]? = some room → room.symmetric_key ≠ default →
    ∃ room', s'.direct[i]? = some room' ∧ room'.symmetric_key = room.symmetric_key

def World.KeepsKeys (w w' : World ι τ) : Prop := ∀ a, (w.sessions a).KeepsKeys (w'.sessions a)

end

variable {crypto : ICryptography τ} {publicKey privateKey : ι → τ}
  {fresh : ι → τ → IKeyPair τ → τ → τ → Prop}
  {w w' : World ι τ}

theorem Grows.announced (h : Grows w w') {c : ι} {dh sender : τ}
    (hannounced : Announced publicKey w c dh sender) : Announced publicKey w' c dh sender := by
  obtain ⟨p, hp, hby⟩ := hannounced
  exact ⟨p, hp, h.announcedBy hby⟩

variable [Inhabited τ]

theorem Exchanging.grows {c : ι} {s : Session τ}
    (h : Exchanging crypto publicKey fresh w c s) (hgrow : Grows w w') :
    Exchanging crypto publicKey fresh w' c s := by
  refine ⟨h.oneRoom, h.pairs, fun d hd => ?_, fun room hroom => (h.keys room hroom).imp_right ?_⟩
  · obtain ⟨room, hroom, hannounced⟩ := h.derivations d hd
    exact ⟨room, hroom, hgrow.announced hannounced⟩
  · rintro ⟨dh, hannounced, hderive⟩
    exact ⟨dh, hgrow.announced hannounced, hderive⟩

/-- A derivation that goes on is still one for a room with the key of its recipient. -/
theorem Exchanging.derivation {c : ι} {s s' : Session τ} {d' : Derivation τ}
    (h : Exchanging crypto publicKey fresh w c s) (hgrow : Grows w w') (hs : s.Grows s')
    (hold : ∃ d ∈ s.derivations, d'.room = d.room ∧ d'.dh_public_key = d.dh_public_key) :
    ∃ room, s'.direct[d'.room]? = some room ∧
      Announced publicKey w' c d'.dh_public_key room.recipient_public_key := by
  obtain ⟨d, hd, hposition, hdh⟩ := hold
  obtain ⟨room, hroom, hannounced⟩ := h.derivations d hd
  obtain ⟨room', hroom', hsame⟩ := hs.rooms d.room room hroom
  refine ⟨room', hposition ▸ hroom', ?_⟩
  rw [hdh, hsame.recipient]
  exact hgrow.announced hannounced

theorem Session.KeepsKeys.of_eq {s s' : Session τ} (h : s'.direct = s.direct) : s.KeepsKeys s' :=
  fun _ room hroom _ => ⟨room, h ▸ hroom, rfl⟩

variable [DecidableEq ι]

/-- A change of one session. -/
theorem Exchange.update (h : Exchange crypto publicKey privateKey fresh w) {a : ι}
    {s : Session τ} (hgrow : (w.sessions a).Grows s)
    (hs : Exchanging crypto publicKey fresh (w.update a s) a s) :
    Exchange crypto publicKey privateKey fresh (w.update a s) := by
  have hgrow' : Grows w (w.update a s) := .update hgrow
  refine ⟨fun b => ⟨?_, ?_⟩, h.bundles, fun b hb => ?_, fun c => ?_⟩
  · exact (hgrow'.sessions b).publicKey.trans (h.userKeys b).1
  · exact (hgrow'.sessions b).privateKey.trans (h.userKeys b).2
  · obtain ⟨p, hown⟩ := h.posted b hb
    exact ⟨p, hgrow'.ownBundle hown⟩
  · by_cases hc : c = a
    · rw [hc, World.sessions_update_self]
      exact hs
    · rw [World.sessions_update_of_ne hc]
      exact (h.sessions c).grows hgrow'

theorem World.KeepsKeys.update {a : ι} {s : Session τ} (h : (w.sessions a).KeepsKeys s) :
    w.KeepsKeys (w.update a s) := by
  intro b
  by_cases hb : b = a
  · rw [hb, World.sessions_update_self]
    exact h
  · rw [World.sessions_update_of_ne hb]
    exact .of_eq rfl

omit [DecidableEq ι] in
/-- For each sender there is one key that it has announced to `c`. -/
theorem Exchange.announced_unique (h : Exchange crypto publicKey privateKey fresh w)
    (hinj : Function.Injective publicKey) {c : ι} {dh dh' sender : τ}
    (hannounced : Announced publicKey w c dh sender)
    (hannounced' : Announced publicKey w c dh' sender) : dh = dh' := by
  obtain ⟨p, rfl, room, hroom, hrecipient, rfl⟩ := hannounced
  obtain ⟨p', hp, room', hroom', hrecipient', rfl⟩ := hannounced'
  obtain rfl := hinj hp
  rw [List.inj_on_of_nodup_map (h.sessions p).oneRoom hroom hroom'
    (hrecipient.trans hrecipient'.symm)]

/-! ## One action -/

omit [DecidableEq ι] [Inhabited τ] in
theorem map_set_of_getElem? {α β : Type} {f : α → β} {l : List α} {i : ℕ} {a b : α}
    (h : l[i]? = some a) (hab : f b = f a) : (l.set i b).map f = l.map f := by
  obtain ⟨hlt, rfl⟩ := List.getElem?_eq_some_iff.mp h
  rw [List.map_set, hab]
  exact List.ext_getElem (by simp) fun j _ _ => by
    by_cases hj : i = j
    · subst hj
      simp
    · simp [List.getElem_set_ne hj]

section

variable (hback : DecryptsBack crypto publicKey privateKey fresh)
  (hinj : Function.Injective publicKey)

omit [DecidableEq ι] in
include hback in
/-- What is offered to a client was announced to it. -/
theorem Exchange.announced_of_offered (h : Exchange crypto publicKey privateKey fresh w)
    {c : ι} {i : ℕ} {dh : τ} (hoffered : Offered crypto w c i dh) :
    ∃ room, (w.sessions c).direct[i]? = some room ∧
      Announced publicKey w c dh room.recipient_public_key := by
  obtain ⟨room, b, contentHash, hroom, hb, hreceiver, hopen⟩ := hoffered
  obtain ⟨p, hown⟩ := h.posted b hb
  rw [(h.userKeys c).1] at hreceiver
  rw [(h.userKeys c).2] at hopen
  obtain ⟨hby, hsender⟩ := hown.opens hback (h.userKeys p).1 hreceiver hopen
  exact ⟨room, hroom, p, hsender, hby⟩

/-- A new room has no key yet, and its key pair has just been generated. -/
theorem Exchange.joined (h : Exchange crypto publicKey privateKey fresh w) {a : ι}
    {room : IDirectRoom τ}
    (hnew : ∀ r ∈ (w.sessions a).direct, r.recipient_public_key ≠ room.recipient_public_key)
    (hkey : room.symmetric_key = default)
    (hfresh : ∃ symmetricKey coins, fresh a room.recipient_public_key
      ⟨room.dh_public_key, room.dh_private_key⟩ symmetricKey coins) :
    Exchange crypto publicKey privateKey fresh
        (w.update a { w.sessions a with direct := (w.sessions a).direct ++ [room] }) ∧
      w.KeepsKeys
        (w.update a { w.sessions a with direct := (w.sessions a).direct ++ [room] }) := by
  have hsession := h.sessions a
  have hsame : (w.sessions a).Grows
      { w.sessions a with direct := (w.sessions a).direct ++ [room] } := by
    simpa using Session.Grows.append (s := w.sessions a) [room] []
  have hgrow : Grows w _ := .update hsame
  refine ⟨h.update hsame ⟨?_, fun r hr => ?_, fun d hd => ?_, fun r hr => ?_⟩,
    .update fun i r hr _ => ⟨r, ?_, rfl⟩⟩
  · rw [List.map_append, List.nodup_append]
    refine ⟨hsession.oneRoom, List.nodup_singleton _, fun key hkey key' hkey' => ?_⟩
    obtain ⟨r, hr, rfl⟩ := List.mem_map.mp hkey
    obtain rfl : key' = room.recipient_public_key := by simpa using hkey'
    exact hnew r hr
  · rcases List.mem_append.mp hr with hr | hr
    · exact hsession.pairs r hr
    · obtain rfl := List.mem_singleton.mp hr
      obtain ⟨symmetricKey, coins, hfresh⟩ := hfresh
      exact ⟨a, _, symmetricKey, coins, hfresh⟩
  · exact hsession.derivation hgrow hsame ⟨d, hd, rfl, rfl⟩
  · rcases List.mem_append.mp hr with hr | hr
    · exact (hsession.grows hgrow).keys r hr
    · obtain rfl := List.mem_singleton.mp hr
      exact .inl hkey
  · exact List.getElem?_append_left (List.getElem?_eq_some_iff.mp hr).1 ▸ hr

include hback in
/-- What the opened bundle says is what its sender announced. -/
theorem Exchange.started (h : Exchange crypto publicKey privateKey fresh w) {a : ι} {i : ℕ}
    {dh : τ} (hoffered : Offered crypto w a i dh) :
    Exchange crypto publicKey privateKey fresh (w.update a { w.sessions a with
        derivations := (w.sessions a).derivations ++ [⟨i, dh, .started⟩] }) ∧
      w.KeepsKeys (w.update a { w.sessions a with
        derivations := (w.sessions a).derivations ++ [⟨i, dh, .started⟩] }) := by
  have hsame : (w.sessions a).Grows { w.sessions a with
      derivations := (w.sessions a).derivations ++ [⟨i, dh, .started⟩] } := by
    simpa using Session.Grows.append (s := w.sessions a) [] [⟨i, dh, .started⟩]
  have hgrow : Grows w _ := .update hsame
  have hsession := (h.sessions a).grows hgrow
  refine ⟨h.update hsame ⟨hsession.oneRoom, hsession.pairs, fun d hd => ?_, hsession.keys⟩,
    .update (.of_eq rfl)⟩
  rcases List.mem_append.mp hd with hd | hd
  · exact hsession.derivations d hd
  · obtain rfl := List.mem_singleton.mp hd
    obtain ⟨room, hroom, hannounced⟩ := h.announced_of_offered hback hoffered
    exact ⟨room, hroom, hgrow.announced hannounced⟩

include hinj in
/-- A key that is derived again is the key that was there. -/
theorem Exchange.assigned (h : Exchange crypto publicKey privateKey fresh w) {a : ι} {n : ℕ}
    {s : Session τ} (hassign : ProfileManager.assignKey crypto n (w.sessions a) = some s) :
    Exchange crypto publicKey privateKey fresh (w.update a s) ∧
      w.KeepsKeys (w.update a s) := by
  obtain ⟨d, room, key, hd, -, hroom, hkey, rfl⟩ := assignKey_eq_some hassign
  have hsession := h.sessions a
  obtain ⟨room', hroom', hannounced⟩ := hsession.derivations d (List.mem_of_getElem? hd)
  obtain rfl := Option.some.inj (hroom.symm.trans hroom')
  have hset : (w.sessions a).Grows { w.sessions a with
      direct := (w.sessions a).direct.set d.room { room with symmetric_key := key }
      derivations := (w.sessions a).derivations.set n { d with progress := .derived } } :=
    .set hd hroom
  have hgrow : Grows w _ := .update hset
  refine ⟨h.update (.set hd hroom) ?_, .update fun i r hr hne => ?_⟩
  · refine ⟨?_, fun r hr => ?_, fun d' hd' => ?_, fun r hr => ?_⟩
    · have hsame : ((w.sessions a).direct.set d.room { room with symmetric_key := key }).map
          (·.recipient_public_key) = (w.sessions a).direct.map (·.recipient_public_key) :=
        map_set_of_getElem? hroom rfl
      exact hsame.symm ▸ hsession.oneRoom
    · rcases List.mem_or_eq_of_mem_set hr with hr | rfl
      · exact hsession.pairs r hr
      · exact hsession.pairs room (List.mem_of_getElem? hroom)
    · refine hsession.derivation hgrow (.set hd hroom) ?_
      rcases List.mem_or_eq_of_mem_set hd' with hd' | rfl
      · exact ⟨d', hd', rfl, rfl⟩
      · exact ⟨d, List.mem_of_getElem? hd, rfl, rfl⟩
    · rcases List.mem_or_eq_of_mem_set hr with hr | rfl
      · exact (hsession.grows hgrow).keys r hr
      · exact .inr ⟨d.dh_public_key, hgrow.announced hannounced, hkey⟩
  · by_cases hi : i = d.room
    · -- the room itself: both keys come from the one key that was announced for it
      subst hi
      obtain rfl := Option.some.inj (hroom.symm.trans hr)
      refine ⟨_, List.getElem?_set_self (List.getElem?_eq_some_iff.mp hroom).1, ?_⟩
      obtain hempty | ⟨dh, hannounced', hderive⟩ :=
        hsession.keys room (List.mem_of_getElem? hroom)
      · exact absurd hempty hne
      · rw [h.announced_unique hinj hannounced hannounced', hderive] at hkey
        exact (Option.some.inj hkey).symm
    · exact ⟨r, by rw [List.getElem?_set_ne (Ne.symm hi), hr], rfl⟩

include hback hinj in
theorem Exchange.effect [DecidableEq τ] (h : Exchange crypto publicKey privateKey fresh w)
    (heffect : Effect crypto fresh w w') :
    Exchange crypto publicKey privateKey fresh w' ∧ w.KeepsKeys w' := by
  have hgrow := heffect.grows
  cases heffect with
  | same => exact ⟨h, fun a => .of_eq rfl⟩
  | joined a room hnew hkey hfresh => exact h.joined hnew hkey hfresh
  | persisted a profile =>
      have hsession := (h.sessions a).grows hgrow
      exact ⟨h.update ⟨rfl, rfl, fun _ room h => ⟨room, h, .refl room⟩,
        fun _ d h => ⟨d, h, rfl, rfl⟩⟩ ⟨hsession.oneRoom, hsession.pairs, hsession.derivations,
          hsession.keys⟩, .update (.of_eq rfl)⟩
  | posted a b hown =>
      refine ⟨⟨h.userKeys, hgrow.bundles h.bundles, fun b' hb' => ?_,
        fun c => (h.sessions c).grows hgrow⟩, fun _ => .of_eq rfl⟩
      rcases List.mem_append.mp hb' with hb' | hb'
      · obtain ⟨p, hp⟩ := h.posted b' hb'
        exact ⟨p, hgrow.ownBundle hp⟩
      · obtain rfl := List.mem_singleton.mp hb'
        exact ⟨a, hgrow.ownBundle hown⟩
  | started a i dh hoffered => exact h.started hback hoffered
  | assigned a n s hassign => exact h.assigned hinj hassign
  | saved a n profile =>
      have hsession := (h.sessions a).grows hgrow
      refine ⟨h.update (.markSaved _ n profile) ⟨hsession.oneRoom, hsession.pairs, fun d hd => ?_,
        hsession.keys⟩, .update (.of_eq rfl)⟩
      exact (h.sessions a).derivation hgrow (.markSaved _ n profile) (mem_markSaved hd)
  | requested a bundles =>
      exact ⟨⟨h.userKeys, h.bundles, fun b hb => (h.posted b hb).imp fun p => hgrow.ownBundle,
        fun c => (h.sessions c).grows hgrow⟩, fun _ => .of_eq rfl⟩
  | removed bundles hsub =>
      exact ⟨⟨h.userKeys, List.Subset.trans hsub h.bundles,
        fun b hb => (h.posted b hb).imp fun p => hgrow.ownBundle,
        fun c => (h.sessions c).grows hgrow⟩, fun _ => .of_eq rfl⟩

/-! ## Runs -/

/-- The calls of the clients, with key pairs as the generator returns them. -/
abbrev ExchangeRuns [DecidableEq τ] (crypto : ICryptography τ)
    (fresh : ι → τ → IKeyPair τ → τ → τ → Prop) :
    Pool (KeyExchangeCall ι τ) (World ι τ) Exn Unit →
      Pool (KeyExchangeCall ι τ) (World ι τ) Exn Unit
      → Prop :=
  Pool.Runs (KeyExchangeCall.body crypto) (KeyExchangeCall.Fresh fresh) (fun _ _ => True)
    (fun _ _ => False)

include hback hinj in
theorem exchange_guarantee [DecidableEq τ] :
    Pool.Guarantee (KeyExchangeCall.body crypto)
      (KeyExchangeCall.Fresh fresh) (fun _ _ => True) (fun _ _ => False)
      (Exchange crypto publicKey privateKey fresh) (Effect crypto fresh)
      fun w w' => Grows w w' ∧ w.KeepsKeys w' where
  refl := .same
  safe _ hfresh _ h := (KeyExchangeCall.safe hfresh h.bundles).rely fun _ _ => And.left
  step _ _ h heffect _ :=
    ⟨(h.effect hback hinj heffect).1, heffect.grows, (h.effect hback hinj heffect).2⟩
  env _ _ _ hfalse := hfalse.elim

omit [DecidableEq ι] in
theorem Exchange.start : Exchange crypto publicKey privateKey fresh (.start publicKey privateKey) :=
  ⟨fun _ => ⟨rfl, rfl⟩, fun _ => id, by simp [World.start],
    fun _ => ⟨by simp [World.start], by simp [World.start], by simp [World.start],
      by simp [World.start]⟩⟩

omit [DecidableEq ι] in
theorem World.KeepsKeys.trans {w'' : World ι τ} (h : w.KeepsKeys w') (h' : w'.KeepsKeys w'') :
    w.KeepsKeys w'' := by
  intro a i room hroom hne
  obtain ⟨room', hroom', hkey⟩ := h a i room hroom hne
  obtain ⟨room'', hroom'', hkey'⟩ := h' a i room' hroom' (hkey ▸ hne)
  exact ⟨room'', hroom'', hkey'.trans hkey⟩

omit [DecidableEq ι] in
/-- The keys of the two sides are the two ends of one exchange. -/
theorem Exchange.agree (h : Exchange crypto publicKey privateKey fresh w)
    (hinj : Function.Injective publicKey)
    (hcomm : ∀ p q, Generated fresh p → Generated fresh q →
      crypto.deriveSharedSecretKey p.privateKey q.publicKey
        = crypto.deriveSharedSecretKey q.privateKey p.publicKey)
    {a b : ι} {roomA roomB : IDirectRoom τ} (hA : roomA ∈ (w.sessions a).direct)
    (hB : roomB ∈ (w.sessions b).direct) (hAB : roomA.recipient_public_key = publicKey b)
    (hBA : roomB.recipient_public_key = publicKey a) (hkeyA : roomA.symmetric_key ≠ default)
    (hkeyB : roomB.symmetric_key ≠ default) : roomA.symmetric_key = roomB.symmetric_key := by
  obtain ⟨x, hx, hderiveA⟩ := ((h.sessions a).keys roomA hA).resolve_left hkeyA
  obtain ⟨y, hy, hderiveB⟩ := ((h.sessions b).keys roomB hB).resolve_left hkeyB
  obtain rfl := h.announced_unique hinj hx ⟨b, hAB, roomB, hB, hBA, rfl⟩
  obtain rfl := h.announced_unique hinj hy ⟨a, hBA, roomA, hA, hAB, rfl⟩
  have := hcomm ⟨_, _⟩ ⟨_, _⟩ ((h.sessions a).pairs roomA hA) ((h.sessions b).pairs roomB hB)
  exact Option.some.inj (hderiveA.symm.trans (this.trans hderiveB))

include hback hinj in
/-- In every run the two sides of a direct room never have different keys, and a key that a room has
    stays. -/
theorem keys_agree_and_stay [DecidableEq τ]
    (hcomm : ∀ p q, Generated fresh p → Generated fresh q →
      crypto.deriveSharedSecretKey p.privateKey q.publicKey
        = crypto.deriveSharedSecretKey q.privateKey p.publicKey)
    {pool : Pool (KeyExchangeCall ι τ) (World ι τ) Exn Unit}
    (hruns : ExchangeRuns crypto fresh ⟨[], .start publicKey privateKey⟩ pool) :
    (∀ a b, ∀ roomA ∈ (pool.state.sessions a).direct, ∀ roomB ∈ (pool.state.sessions b).direct,
      roomA.recipient_public_key = publicKey b → roomB.recipient_public_key = publicKey a →
      roomA.symmetric_key ≠ default → roomB.symmetric_key ≠ default →
        roomA.symmetric_key = roomB.symmetric_key) ∧
      ∀ pool', ExchangeRuns crypto fresh pool pool' → pool.state.KeepsKeys pool'.state := by
  have hkept := ((Pool.Kept.of_nil Exchange.start).runs (exchange_guarantee hback hinj) hruns).1
  refine ⟨fun a b roomA hA roomB hB => hkept.inv.agree hinj hcomm hA hB, fun pool' hruns' => ?_⟩
  have keeps : ∀ w', Relation.ReflTransGen (fun w w' => Grows w w' ∧ w.KeepsKeys w') pool.state w' →
      pool.state.KeepsKeys w' := by
    intro w' hmoves
    induction hmoves with
    | refl => exact fun a => .of_eq rfl
    | tail _ hR ih => exact ih.trans hR.2
  exact keeps _ (hkept.runs (exchange_guarantee hback hinj) hruns').2

end

/-! ## Two clients -/

namespace Demo

/-- Terms over two clients, each with one Diffie-Hellman pair and one symmetric key. -/
abbrev Payload := Term Bool Bool Bool

/-- The generators return to each client what is named after it. -/
def ownNames (a : Bool) (_receiver : Payload) (pair : IKeyPair Payload)
    (_symmetricKey _coins : Payload) : Prop :=
  pair = Term.dhKeyPair a

def roomWithOther (a : Bool) : KeyExchangeCall Bool Payload :=
  .createDirectRoom a "" (.publicKey !a) "" (Term.dhKeyPair a) (.symmetricKey a) .empty

/-- Both clients create their room, run the protocol and finish the derivation. -/
def bothSides : Pool (KeyExchangeCall Bool Payload) (World Bool Payload) Exn Unit :=
  (Pool.startAll (KeyExchangeCall.body Term.cryptography)
    [roomWithOther false, roomWithOther true, .scheduledRun false, .scheduledRun true,
      .deriveRoomSecretKey false 0, .deriveRoomSecretKey true 0]
    (.start Term.publicKey Term.privateKey)).steps
      [0, 0, 1, 0, 1, 1, 0, 1, 2, 3, 2, 3, 2, 2, 3, 3, 4, 5, 2, 3, 4, 5, 2, 3]

theorem runs_bothSides : ExchangeRuns Term.cryptography ownNames
    ⟨[], .start Term.publicKey Term.privateKey⟩ bothSides := by
  refine Pool.Runs.steps (Pool.Runs.startAll ?_ _) (fun _ _ => trivial) _
  simp [KeyExchangeCall.Fresh, roomWithOther, ownNames]

end Demo

/-- The two rooms of the run end with one key. -/
theorem bothSides_agree :
    ∃ roomA roomB, (Demo.bothSides.state.sessions false).direct = [roomA] ∧
      (Demo.bothSides.state.sessions true).direct = [roomB] ∧
      roomA.symmetric_key = roomB.symmetric_key ∧ roomA.symmetric_key ≠ default := by
  have hrooms : ∀ a : Bool, (Demo.bothSides.state.sessions a).direct
      = [⟨"", "", "DIRECT", .shared s(a, !a), .publicKey !a, .dhPublic a, .dhPrivate a⟩] := by
    decide +kernel
  have hagree := (keys_agree_and_stay (Term.decryptsBack id Demo.ownNames) ?_ ?_
    Demo.runs_bothSides).1 false true
  · refine ⟨_, _, hrooms false, hrooms true, ?_, by simp [default]⟩
    refine hagree _ ?_ _ ?_ rfl rfl (by simp [default]) (by simp [default])
    · rw [hrooms]
      exact List.mem_cons_self
    · rw [hrooms]
      exact List.mem_cons_self
  · intro a b h
    exact Term.publicKey.inj h
  · rintro p q ⟨a, -, -, -, rfl⟩ ⟨b, -, -, -, rfl⟩
    exact Term.derive_comm a b

end ZkChat
