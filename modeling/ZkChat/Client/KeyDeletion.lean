import ZkChat.Client.IdealCryptography

set_option autoImplicit false

/-! # Which bundles a client has deleted

A run of the protocol asks the server to delete the bundles for which it has started a derivation;
it does not wait for these, nor does it see them fail. Nothing is lost in the runs in which they are
done by then and in which no save takes a stored key back. -/

namespace ZkChat

open Prog

variable {ι τ : Type}

/-- Every bundle that the client asked to delete is one whose key the stored profile had, in the
    room it was derived for. -/
def NoneLost (crypto : ICryptography τ) (w : World ι τ) : Prop :=
  ∀ r ∈ w.requests, ∀ m ∈ r.bundles,
    ∃ d, StartedFor crypto w r.client m d ∧ HasKey crypto d r.storage

/-! ## The runs without losses -/

section

variable [Inhabited τ]

/-- The keys that are stored stay so. -/
def KeepsStored (storage storage' : List (IDirectRoom τ)) : Prop :=
  ∀ (i : ℕ) (room : IDirectRoom τ), storage[i]? = some room → room.symmetric_key ≠ default →
    ∃ room', storage'[i]? = some room' ∧ SameExchange room room' ∧
      room'.symmetric_key = room.symmetric_key

/-- A save does not take a key back, and a delete request is about derivations that are done, their
    saves included. -/
structure Careful (w w' : World ι τ) : Prop where
  saves : ∀ a, KeepsStored (w.sessions a).storage (w'.sessions a).storage
  deletes : ∀ r, w'.requests = w.requests ++ [r] → ∀ m ∈ r.bundles,
    ∃ d, (w.sessions r.client).derivations[m.derivation]? = some d ∧ d.progress = .saved

variable [DecidableEq ι]

/-- The server may have any bundles, and other calls of a client save its profile, too. -/
inductive Surroundings (allowed : World ι τ → World ι τ → Prop) : World ι τ → World ι τ → Prop
  | serves {w : World ι τ} (bundles : List (Bundle τ)) :
      Surroundings allowed w { w with bundles, posted := w.posted ++ bundles }
  | persists {w : World ι τ} (a : ι) (profile : List (IDirectRoom τ))
      (h : allowed w (w.update a { w.sessions a with storage := profile })) :
      Surroundings allowed w (w.update a { w.sessions a with storage := profile })

/-- The runs whose actions and saves are all `allowed`. -/
abbrev DeletionRuns [DecidableEq τ] (crypto : ICryptography τ)
    (allowed : World ι τ → World ι τ → Prop) :
    Pool (KeyExchangeCall ι τ) (World ι τ) Exn Unit →
      Pool (KeyExchangeCall ι τ) (World ι τ) Exn Unit
      → Prop :=
  Pool.Runs (KeyExchangeCall.body crypto) (fun _ => True) allowed (Surroundings allowed)

end

/-- No derivation has been started and no request sent. -/
structure World.Idle (w : World ι τ) : Prop where
  derivations : ∀ a, (w.sessions a).derivations = []
  requests : w.requests = []
  bundles : w.bundles ⊆ w.posted

/-- What these runs keep. -/
structure Stored (crypto : ICryptography τ) (w : World ι τ) : Prop where
  bundles : w.bundles ⊆ w.posted
  saved : ∀ (a : ι), ∀ d ∈ (w.sessions a).derivations, d.progress = .saved →
    HasKey crypto d (w.sessions a).storage
  noneLost : NoneLost crypto w

variable {crypto : ICryptography τ} {w w' : World ι τ}

theorem HasKey.congr {d d' : Derivation τ} {rooms : List (IDirectRoom τ)}
    (h : HasKey crypto d rooms) (hroom : d'.room = d.room)
    (hdh : d'.dh_public_key = d.dh_public_key) : HasKey crypto d' rooms := by
  obtain ⟨room, hget, hderive⟩ := h
  exact ⟨room, hroom ▸ hget, hdh ▸ hderive⟩

theorem NoneLost.grows (h : NoneLost crypto w) (hgrow : Grows w w')
    (hrequests : w'.requests = w.requests) : NoneLost crypto w' := by
  rw [NoneLost, hrequests]
  intro r hr m hm
  obtain ⟨d, ⟨hd, room, b, hroom, hopen⟩, hkey⟩ := h r hr m hm
  obtain ⟨d', hd', hposition, hdh⟩ := (hgrow.sessions r.client).derivations _ d hd
  obtain ⟨room', hroom', hsame⟩ := (hgrow.sessions r.client).rooms _ room hroom
  refine ⟨d', ⟨hd', room', b, hposition ▸ hroom', ?_⟩, hkey.congr hposition hdh⟩
  rw [(hgrow.sessions r.client).privateKey, hdh, hsame.recipient]
  exact hopen

variable [Inhabited τ]

theorem HasKey.keepsStored (hkeys : ∀ x y, crypto.deriveSharedSecretKey x y ≠ some default)
    {d : Derivation τ} {storage storage' : List (IDirectRoom τ)} (h : HasKey crypto d storage)
    (hkeep : KeepsStored storage storage') : HasKey crypto d storage' := by
  obtain ⟨room, hget, hderive⟩ := h
  have hne : room.symmetric_key ≠ default := fun heq => hkeys _ _ (heq ▸ hderive)
  obtain ⟨room', hget', hsame, hkey⟩ := hkeep d.room room hget hne
  refine ⟨room', hget', ?_⟩
  rw [hsame.dhPrivate, hkey]
  exact hderive

variable [DecidableEq ι]

/-- A change of the derivations and the storage of one client that adds no saved derivation but
    ones whose key is stored. -/
theorem Stored.update (hkeys : ∀ x y, crypto.deriveSharedSecretKey x y ≠ some default)
    (h : Stored crypto w) {a : ι} {s : Session τ} (hgrow : (w.sessions a).Grows s)
    (hkeep : KeepsStored (w.sessions a).storage s.storage)
    (hnew : ∀ d ∈ s.derivations, d.progress = .saved →
      d ∈ (w.sessions a).derivations ∨ HasKey crypto d s.storage) :
    Stored crypto (w.update a s) := by
  refine ⟨h.bundles, fun b d hd hsaved => ?_, h.noneLost.grows (.update hgrow) rfl⟩
  by_cases hb : b = a
  · subst hb
    rw [World.sessions_update_self] at hd ⊢
    rcases hnew d hd hsaved with hold | hkey
    · exact (h.saved b d hold hsaved).keepsStored hkeys hkeep
    · exact hkey
  · rw [World.sessions_update_of_ne hb] at hd ⊢
    exact h.saved b d hd hsaved

theorem Stored.effect [DecidableEq τ]
    (hkeys : ∀ x y, crypto.deriveSharedSecretKey x y ≠ some default)
    {fresh : ι → τ → IKeyPair τ → τ → τ → Prop} (h : Stored crypto w)
    (heffect : Effect crypto fresh w w') (hcareful : Careful w w') : Stored crypto w' := by
  have hgrow := heffect.grows
  have keeps : ∀ {a : ι} {s : Session τ}, Careful w (w.update a s) →
      KeepsStored (w.sessions a).storage s.storage := by
    intro a s hc
    have := hc.saves a
    rwa [World.sessions_update_self] at this
  cases heffect with
  | same => exact h
  | joined a room =>
      exact h.update hkeys (by simpa using hgrow.sessions a) (keeps hcareful)
        fun d hd _ => .inl hd
  | persisted a profile =>
      exact h.update hkeys (by simpa using hgrow.sessions a) (keeps hcareful)
        fun d hd _ => .inl hd
  | posted a b hown => exact ⟨hgrow.bundles h.bundles, h.saved, h.noneLost.grows hgrow rfl⟩
  | started a i dh hoffered =>
      -- what has just been started is not saved yet
      refine h.update hkeys (by simpa using hgrow.sessions a) (keeps hcareful)
        fun d hd hsaved => ?_
      rcases List.mem_append.mp hd with hd | hd
      · exact .inl hd
      · obtain rfl := List.mem_singleton.mp hd
        cases hsaved
  | assigned a n s hassign =>
      obtain ⟨d, room, key, hd, -, hroom, -, rfl⟩ := assignKey_eq_some hassign
      refine h.update hkeys (.set hd hroom) (keeps hcareful) fun d' hd' hsaved => ?_
      rcases List.mem_or_eq_of_mem_set hd' with hd' | rfl
      · exact .inl hd'
      · cases hsaved
  | saved a n profile hkey =>
      refine h.update hkeys (.markSaved _ n profile) (keeps hcareful) fun d' hd' _ => ?_
      obtain ⟨m, hm⟩ := List.mem_iff_getElem?.mp hd'
      rw [ProfileManager.markSaved, List.getElem?_modify] at hm
      obtain ⟨d, hd, rfl⟩ := Option.map_eq_some_iff.mp hm
      by_cases hn : n = m
      · -- the derivation itself: the profile has its key
        subst hn
        obtain ⟨e, he, hkey⟩ := hkey
        obtain rfl := Option.some.inj (hd.symm.trans he)
        exact .inr (hkey.congr (by simp) (by simp))
      · rw [if_neg hn]
        exact .inl (List.mem_of_getElem? hd)
  | requested a bundles hstarted =>
      refine ⟨h.bundles, h.saved, fun r hr m hm => ?_⟩
      rcases List.mem_append.mp hr with hr | hr
      · exact h.noneLost r hr m hm
      · -- the request that goes out: its derivations are done
        obtain rfl := List.mem_singleton.mp hr
        obtain ⟨d, hd, hfor⟩ := hstarted m hm
        obtain ⟨e, he, hsaved⟩ := hcareful.deletes _ rfl m hm
        obtain rfl := Option.some.inj (hd.symm.trans he)
        exact ⟨d, ⟨hd, hfor⟩, h.saved a d (List.mem_of_getElem? hd) hsaved⟩
  | removed bundles hsub =>
      exact ⟨List.Subset.trans hsub h.bundles, h.saved, h.noneLost.grows hgrow rfl⟩

theorem Stored.surroundings (hkeys : ∀ x y, crypto.deriveSharedSecretKey x y ≠ some default)
    (h : Stored crypto w) (hmove : Surroundings Careful w w') : Stored crypto w' ∧ Grows w w' := by
  cases hmove with
  | serves bundles =>
      have hgrow : Grows w { w with bundles, posted := w.posted ++ bundles } :=
        ⟨fun a => .refl _, List.subset_append_left _ _, fun _ => List.subset_append_right _ _⟩
      exact ⟨⟨hgrow.bundles h.bundles, h.saved, h.noneLost.grows hgrow rfl⟩, hgrow⟩
  | persists a profile hcareful =>
      have hgrow : (w.sessions a).Grows { w.sessions a with storage := profile } :=
        ⟨rfl, rfl, fun _ room h => ⟨room, h, .refl room⟩, fun _ d h => ⟨d, h, rfl, rfl⟩⟩
      refine ⟨h.update hkeys hgrow ?_ fun d hd _ => .inl hd, .update hgrow⟩
      have := hcareful.saves a
      rwa [World.sessions_update_self] at this

/-- No bundle is lost in the runs in which a delete request waits for its derivations and no save
    takes a key back. -/
theorem noneLost_of_careful [DecidableEq τ]
    (hkeys : ∀ x y, crypto.deriveSharedSecretKey x y ≠ some default) (hidle : w.Idle)
    {pool : Pool (KeyExchangeCall ι τ) (World ι τ) Exn Unit}
    (hruns : DeletionRuns crypto Careful ⟨[], w⟩ pool) : NoneLost crypto pool.state := by
  have hg : Pool.Guarantee (KeyExchangeCall.body crypto) (fun _ => True) Careful
      (Surroundings Careful) (Stored crypto) (Effect (ι := ι) crypto fun _ _ _ _ _ => True) Grows :=
    { refl := .same
      safe := fun call _ _ h => KeyExchangeCall.safe (by cases call <;> trivial) h.bundles
      step := fun _ _ h heffect hcareful => ⟨h.effect hkeys heffect hcareful, heffect.grows⟩
      env := fun _ _ h hmove => h.surroundings hkeys hmove }
  refine (hg.inv ⟨hidle.bundles, fun a d hd => ?_, ?_⟩ hruns).noneLost
  · simp [hidle.derivations a] at hd
  · simp [NoneLost, hidle.requests]

/-! ## One bundle -/

namespace Demo

/-- Terms with one name of each kind. -/
abbrev Text := Term Unit Unit Unit

/-- A client with a room for itself, and its bundle at the server. -/
def waiting : World Unit Text where
  sessions _ :=
    { user_public_key := .publicKey (), user_private_key := .privateKey (), storage := []
      derivations := []
      direct := [⟨"", "", "DIRECT", .empty, .publicKey (), .dhPublic (), .dhPrivate ()⟩] }
  bundles := [⟨.encrypted (.pair (.dhPublic ()) (.publicKey ())) (.symmetricKey ()), .empty,
    .wrapped (.symmetricKey ()) .empty (), .publicKey ()⟩]
  posted := [⟨.encrypted (.pair (.dhPublic ()) (.publicKey ())) (.symmetricKey ()), .empty,
    .wrapped (.symmetricKey ()) .empty (), .publicKey ()⟩]
  requests := []

theorem waiting_idle : waiting.Idle := ⟨fun _ => rfl, rfl, fun _ => id⟩

/-- A run of the protocol and the derivation it starts, in the order of the schedule. -/
def oneBundle (schedule : List ℕ) : Pool (KeyExchangeCall Unit Text) (World Unit Text) Exn Unit :=
  (Pool.startAll (KeyExchangeCall.body Term.cryptography)
    [.scheduledRun (), .deriveRoomSecretKey () 0] waiting).steps schedule

theorem derive_ne_empty (x y : Text) :
    Term.cryptography.deriveSharedSecretKey x y ≠ some default := by
  simp only [Term.cryptography]
  split <;> simp [default]

theorem careful_of_storage {w w' : World Unit Text}
    (hsaves : (w.sessions ()).storage = [] ∨ (w'.sessions ()).storage = (w.sessions ()).storage)
    (hdeletes : ∀ r ∈ w'.requests, ∀ m ∈ r.bundles,
      ((w.sessions ()).derivations[m.derivation]?.map (·.progress)) = some .saved) :
    Careful w w' := by
  refine ⟨fun a i room hroom _ => ?_, fun r hr m hm => ?_⟩
  · rcases hsaves with hempty | hsame
    · rw [hempty] at hroom
      cases hroom
    · exact ⟨room, hsame ▸ hroom, .refl room, rfl⟩
  · have := hdeletes r (by rw [hr]; simp) m hm
    obtain ⟨d, hd, hprogress⟩ := Option.map_eq_some_iff.mp this
    exact ⟨d, hd, hprogress⟩

end Demo

/-- The request goes out while the key is being derived: the stored profile does not have it. -/
theorem deleted_before_derived :
    ¬ ∀ (crypto : ICryptography Demo.Text) (w : World Unit Demo.Text),
      (∀ x y, crypto.deriveSharedSecretKey x y ≠ some default) → w.Idle →
      ∀ pool, DeletionRuns crypto (fun _ _ => True) ⟨[], w⟩ pool → NoneLost crypto pool.state := by
  intro h
  have hlost := h _ _ Demo.derive_ne_empty Demo.waiting_idle (Demo.oneBundle [0, 0, 0, 0, 0])
    (Pool.Runs.steps (Pool.Runs.startAll (fun _ _ => trivial) _) (fun _ _ => trivial) _)
  have hrequest : ∃ r ∈ (Demo.oneBundle [0, 0, 0, 0, 0]).state.requests,
      r.storage = [] ∧ 0 < r.bundles.length := by
    decide +kernel
  obtain ⟨r, hr, hstorage, hlength⟩ := hrequest
  obtain ⟨m, hm⟩ := List.exists_mem_of_length_pos hlength
  obtain ⟨d, -, room, hroom, -⟩ := hlost r hr m hm
  rw [hstorage] at hroom
  cases hroom

/-- When the request waits for the derivation and its save, the bundle is not lost. -/
theorem deleted_after_saved :
    (Demo.oneBundle [0, 0, 0, 0, 1, 1, 0, 0]).state.requests.length = 1 ∧
      NoneLost Term.cryptography (Demo.oneBundle [0, 0, 0, 0, 1, 1, 0, 0]).state := by
  refine ⟨by decide +kernel, noneLost_of_careful Demo.derive_ne_empty Demo.waiting_idle ?_⟩
  refine Pool.Runs.steps_take (Pool.Runs.startAll (fun _ _ => trivial) _) fun n hn => ?_
  refine Demo.careful_of_storage ?_ ?_
  · revert n
    decide +kernel
  · revert n
    decide +kernel

end ZkChat
