import ZkChat.Client.LiveProfile
import ZkChat.Client.UntypedProfile

set_option autoImplicit false

/-! # Exporting a profile and recovering it

`exportProfile` clears root and leaves on a copy, and writes the profile instead of the copy.
`validateFormat` wants all nine fields, and a profile that was stored by an earlier version gets its
contacts when it is loaded, a name and an id only with the first `updateUsername`. So the round trip
is what it is meant to be for the profiles that have a name and an id, and nothing to clear
(`exportRecovers_iff`). -/

namespace ZkChat

/-! ## The profile as an object -/

/-- The fields of the object. -/
def IProfile.fields (p : IProfile) : List (String × Json) :=
  ("rln_identity_commitment", .str p.rln_identity_commitment)
    :: ("root_hash", (p.root_hash.map Json.str).getD .null)
    :: ("leaves", .arr (p.leaves.map .str))
    :: ("user_private_key", .str p.user_private_key)
    :: ("user_public_key", .str p.user_public_key)
    :: ("rooms", p.rooms.toJson)
    :: p.laterFields

theorem IProfile.toJson_eq (p : IProfile) : p.toJson = .obj p.fields := rfl

namespace UntypedProfile

def ofProfile (p : IProfile) : UntypedProfile := ofFields p.fields

end UntypedProfile

/-- The current `ProfileManager` of the page. -/
def LivePage.store (page : LivePage) : ProfileStore :=
  ⟨(page.profile page.current).map .ofProfile, page.storage⟩

/-- `recover_profile`. -/
def ProfileStore.recover_profile_data (profile_data : String) (root : Option String)
    (leaves : List String) (s : ProfileStore) : Except Exn Unit × ProfileStore :=
  match Js.jsonParse profile_data with
  | none => (.error .syntaxError, s)
  | some parsed_profile_data => s.recover_profile parsed_profile_data root leaves

/-- The export has neither root nor leaves, and wherever it is recovered, the profile is the one that
    was exported but for these two. -/
def ExportRecovers (page : LivePage) : Prop :=
  ∃ p text v, page.store.inMemoryProfile = some p ∧ page.store.export_profile = .ok text ∧
    Js.jsonParse text = some v ∧ Js.prop (some v) "root_hash" = .ok (some (.str "")) ∧
    Js.prop (some v) "leaves" = .ok (some (.arr [])) ∧
    ∀ (s : ProfileStore) (root : Option String) (leaves : List String),
      (s.recover_profile_data text root leaves).1 = .ok () ∧
      ∃ q, (s.recover_profile_data text root leaves).2.inMemoryProfile = some q ∧
        ∀ key ∉ ["root_hash", "leaves"],
          Js.prop (some q.toJson) key = Js.prop (some p.toJson) key

section

variable {p : IProfile}

/-- What `JSON.stringify` writes of it is the text of the profile. -/
theorem UntypedProfile.toJson_ofProfile (p : IProfile) : (ofProfile p).toJson = p.toJson := by
  obtain ⟨_, _, _, _, _, _, contacts, username, user_id⟩ := p
  cases contacts <;> cases username <;> cases user_id <;>
    simp [toJson, ofProfile, ofFields, IProfile.fields, IProfile.toJson, IProfile.laterFields,
      Js.optionalField, Js.modifyAt, ContactsValue.ofJson, ContactsValue.toJson,
      ITrustedContactsMap.toJson, List.lookup_cons]

/-- On a profile, the validation looks for the three fields that may be missing. -/
theorem validateFormat_toJson (p : IProfile) :
    ProfileManager.Untyped.validateFormat p.toJson = .ok (ProfileManager.validateFormat p) := by
  obtain ⟨_, _, _, _, _, _, contacts, username, user_id⟩ := p
  cases contacts <;> cases username <;> cases user_id <;> rfl

theorem UntypedProfile.stringify_ofProfile (p : IProfile) : (ofProfile p).stringify = p.stringify := by
  rw [stringify, toJson_ofProfile, IProfile.stringify]

/-- The fields of a profile that is recovered, but for root and leaves. -/
theorem prop_recovered (p : IProfile) (hvalid : ProfileManager.validateFormat p = true)
    (root : Option String) (leaves : List String) (s : ProfileStore) :
    (s.recover_profile p.toJson root leaves).1 = .ok () ∧
      ∃ q, (s.recover_profile p.toJson root leaves).2.inMemoryProfile = some q ∧
        ∀ key ∉ ["root_hash", "leaves"], Js.prop (some q.toJson) key = Js.prop (some p.toJson) key := by
  have hrecover : s.recoverProfile p.toJson = .save (.ofProfile p) := by
    rw [ProfileStore.recoverProfile, p.readable_toJson.deepClone_eq, IProfile.toJson_eq]
    rfl
  have hrun : s.recover_profile p.toJson root leaves
      = (.ok (), (ProfileStore.save (.ofProfile p)).refresh root leaves) := by
    rw [ProfileStore.recover_profile, validateFormat_toJson, hvalid, hrecover]
  rw [hrun]
  refine ⟨rfl, _, rfl, fun key hkey => ?_⟩
  have hroot : key ≠ "root_hash" := fun h => hkey (by simp [h])
  have hleaves : key ≠ "leaves" := fun h => hkey (by simp [h])
  rw [← UntypedProfile.toJson_ofProfile]
  unfold UntypedProfile.toJson Js.modifyAt Js.prop
  simp only [Js.modifyAt, Js.lookup_map_modify _ "contacts" key
    fun v => (UntypedProfile.ofProfile p).contacts.toJson.getD v]
  rw [Js.lookup_setProperty_of_ne hleaves, Js.lookup_setProperty_of_ne hroot]

/-- What is exported is the profile. -/
theorem exportRecovers_of_profile {page : LivePage} (hp : page.profile page.current = some p) :
    ExportRecovers page ↔ p.root_hash = some "" ∧ p.leaves = [] ∧
      ProfileManager.validateFormat p = true := by
  have hstore : page.store.inMemoryProfile = some (.ofProfile p) := by
    rw [LivePage.store, hp]
    rfl
  have hexport : page.store.export_profile = .ok p.stringify := by
    rw [ProfileStore.export_profile, hstore]
    exact congrArg Except.ok (UntypedProfile.stringify_ofProfile p)
  have hparse : Js.jsonParse p.stringify = some p.toJson := Js.jsonParse_of_readable p.readable_toJson
  have hrecover : ∀ (s : ProfileStore) root leaves, s.recover_profile_data p.stringify root leaves
      = s.recover_profile p.toJson root leaves := by
    intro s root leaves
    rw [ProfileStore.recover_profile_data, hparse]
  have hroot : Js.prop (some p.toJson) "root_hash" = .ok (some (.str "")) ↔ p.root_hash = some "" := by
    show Except.ok (some ((p.root_hash.map Json.str).getD .null)) = _ ↔ _
    cases p.root_hash <;> simp
  have hleaves : Js.prop (some p.toJson) "leaves" = .ok (some (.arr [])) ↔ p.leaves = [] := by
    show Except.ok (some (Json.arr (p.leaves.map .str))) = _ ↔ _
    simp
  constructor
  · rintro ⟨q, text, v, -, htext, hv, hr, hl, hs⟩
    obtain rfl := Except.ok.inj (hexport.symm.trans htext)
    obtain rfl := Option.some.inj (hparse.symm.trans hv)
    refine ⟨hroot.mp hr, hleaves.mp hl, ?_⟩
    -- a page without a profile will do: the recovery looks at the text alone
    have hok := (hs {} none []).1
    rw [hrecover, ProfileStore.recover_profile, validateFormat_toJson] at hok
    cases hvalid : ProfileManager.validateFormat p with
    | true => rfl
    | false =>
        rw [hvalid] at hok
        cases hok
  · rintro ⟨hr, hl, hvalid⟩
    refine ⟨_, _, _, hstore, hexport, hparse, hroot.mpr hr, hleaves.mpr hl, fun s root leaves => ?_⟩
    rw [hrecover, UntypedProfile.toJson_ofProfile]
    exact prop_recovered p hvalid root leaves s

end

/-! ## Every profile on a page has contacts -/

namespace LivePage

variable {page : LivePage} {i : ℕ} {p : IProfile}

/-- The profile of every manager has contacts. -/
def HasContacts (page : LivePage) : Prop :=
  ∀ i p, page.profile i = some p → p.contacts.isSome = true

theorem HasContacts.change (h : page.HasContacts) {f : ProfileManagerState → ProfileManagerState}
    (hf : ∀ m, (f m).inMemoryProfile = m.inMemoryProfile) (i : ℕ) : (page.change i f).HasContacts := by
  intro j p hp
  rw [profile_change hf] at hp
  exact h j p hp

/-- A manager is given a profile. -/
theorem HasContacts.assign (h : page.HasContacts) (hp : p.contacts.isSome = true) (i : ℕ) :
    (page.change i fun m => { m with inMemoryProfile := some p }).HasContacts := by
  intro j q hq
  unfold LivePage.profile LivePage.change at hq
  simp only [List.getElem?_modify] at hq
  cases hm : page.profile_managers[j]? with
  | none =>
      rw [hm] at hq
      cases hq
  | some m =>
      rw [hm] at hq
      by_cases hij : i = j
      · have hassigned : some p = some q := by simpa [hij] using hq
        exact Option.some.inj hassigned ▸ hp
      · refine h j q ?_
        rw [profile, hm]
        simpa [hij] using hq

theorem HasContacts.saveProfile (h : page.HasContacts) (hp : p.contacts.isSome = true) (i : ℕ) :
    (page.saveProfile i p).HasContacts :=
  h.assign hp i

theorem HasContacts.edit (h : page.HasContacts) {f : IProfile → Except Exn IProfile}
    (hf : ∀ p p', p.contacts.isSome = true → f p = .ok p' → p'.contacts.isSome = true) (i : ℕ) :
    (page.edit i f).HasContacts := by
  unfold LivePage.edit
  cases hprofile : page.profile i with
  | none => exact h
  | some p =>
      dsimp only
      cases hp' : f p with
      | error e => exact h
      | ok p' => exact h.saveProfile (hf p p' (h i p hprofile) hp') i

theorem HasContacts.refresh (h : page.HasContacts) (i : ℕ) (root : Option String)
    (leaves : List String) : ((page.edit i (ProfileManager.updateRootHash root)).edit i
      (ProfileManager.updateLeaves leaves)).HasContacts := by
  refine (h.edit (fun p p' hp hok => ?_) i).edit (fun p p' hp hok => ?_) i
  · obtain rfl := Except.ok.inj hok
    exact hp
  · obtain rfl := Except.ok.inj hok
    exact hp

theorem HasContacts.checkRootUpToDate (h : page.HasContacts) (i : ℕ) (root : Option String)
    (leaves : List String) : (page.checkRootUpToDate i root leaves).HasContacts := by
  unfold LivePage.checkRootUpToDate
  split
  · exact h
  · split
    · exact h
    · exact (h.refresh i root leaves).change (f := fun m => { m with root_up_to_date := true })
        (fun _ => rfl) i

theorem HasContacts.recover_profile (h : page.HasContacts) (p : IProfile) (root : Option String)
    (leaves : List String) : (page.recover_profile p root leaves).HasContacts := by
  unfold LivePage.recover_profile
  split
  · exact h
  · next hcall =>
      have hvalid : ProfileManager.validateFormat p = true := by simpa using (not_or.mp hcall).2
      have hcontacts : p.contacts.isSome = true := by
        simp only [ProfileManager.validateFormat, Bool.and_eq_true] at hvalid
        exact hvalid.1.1
      have hreplaced := h.change (f := fun m => { m with recovered := m.recovered + 1 })
        (fun _ => rfl) page.current
      have hobsolete := (hreplaced.saveProfile hcontacts page.current).change
        (f := fun m => { m with root_up_to_date := false }) (fun _ => rfl) page.current
      exact hobsolete.checkRootUpToDate page.current root leaves

theorem HasContacts.addManager (h : page.HasContacts) : page.addManager.HasContacts := by
  intro j p hp
  unfold LivePage.profile LivePage.addManager at hp
  by_cases hj : j < page.profile_managers.length
  · rw [List.getElem?_append_left hj] at hp
    exact h j p hp
  · rw [List.getElem?_append_right (by omega)] at hp
    generalize j - page.profile_managers.length = k at hp
    cases k with
    | zero => cases hp
    | succ k => cases hp

theorem HasContacts.init (h : page.HasContacts) (identity_commitment : Option String)
    (userKeyPair : IKeyPair String) (randomID : Js.ExactNat) (root : Option String)
    (leaves : List String) :
    (page.init identity_commitment userKeyPair randomID root leaves).2.HasContacts := by
  by_cases hidentity : identity_commitment.getD "" = ""
  · cases hload : page.addManager.loadProfile page.profile_managers.length with
    | none =>
        rw [init_of_not_load hidentity hload]
        exact h.addManager
    | some loaded =>
        rw [init_of_load hidentity hload]
        refine HasContacts.refresh ?_ _ root leaves
        obtain ⟨text, -, hload⟩ := Option.bind_eq_some_iff.mp hload
        split at hload
        · cases hload
        · obtain ⟨p, -, hload⟩ := Option.bind_eq_some_iff.mp hload
          obtain rfl := Option.some.inj hload
          exact h.addManager.assign rfl _
  · rw [LivePage.init, if_pos hidentity]
    exact h.addManager.saveProfile rfl _

theorem HasContacts.call (h : page.HasContacts) (c : ProfileCall) : (c.exec page).HasContacts := by
  cases c with
  | room call =>
      refine h.edit (fun p p' hp hok => ?_) _
      unfold ProfileManager.changeRooms at hok
      cases hrooms : call.run p.rooms with
      | error e =>
          rw [hrooms] at hok
          cases hok
      | ok rooms =>
          rw [hrooms] at hok
          obtain rfl := Except.ok.inj hok
          exact hp
  | update_username newName randomID =>
      refine h.edit (fun p p' hp hok => ?_) _
      obtain rfl := Except.ok.inj hok
      exact hp
  | insert_contact name public_key =>
      refine h.edit (fun p p' hp hok => ?_) _
      obtain ⟨contacts, -, hok⟩ := Except.bind_ok_iff.mp hok
      obtain ⟨-, -, hok⟩ := Except.bind_ok_iff.mp hok
      obtain ⟨-, -, hok⟩ := Except.bind_ok_iff.mp hok
      obtain rfl := Except.ok.inj hok
      rfl
  | update_contact old_name new_name public_key =>
      refine h.edit (fun p p' hp hok => ?_) _
      obtain ⟨contacts, -, hok⟩ := Except.bind_ok_iff.mp hok
      obtain ⟨-, -, hok⟩ := Except.bind_ok_iff.mp hok
      obtain ⟨-, -, hok⟩ := Except.bind_ok_iff.mp hok
      obtain ⟨-, -, hok⟩ := Except.bind_ok_iff.mp hok
      obtain rfl := Except.ok.inj hok
      rfl
  | delete_contact name =>
      refine h.edit (fun p p' hp hok => ?_) _
      obtain ⟨contacts, -, hok⟩ := Except.bind_ok_iff.mp hok
      obtain ⟨-, -, hok⟩ := Except.bind_ok_iff.mp hok
      obtain rfl := Except.ok.inj hok
      rfl
  | send_message root leaves => exact h.checkRootUpToDate _ root leaves
  | recover_profile p root leaves => exact h.recover_profile p root leaves

theorem HasContacts.deriveRoomSecretKey (h : page.HasContacts) (crypto : ICryptography String)
    (n : ℕ) : (page.deriveRoomSecretKey crypto n).HasContacts := by
  unfold LivePage.deriveRoomSecretKey
  cases page.derivations[n]? with
  | none => exact h
  | some d =>
      have hwaiting : HasContacts { page with derivations := page.derivations.eraseIdx n } := h
      dsimp only
      cases crypto.deriveSharedSecretKey d.dh_private_key d.dh_public_key with
      | none => exact hwaiting
      | some derived_secret_key =>
          refine hwaiting.edit (fun p p' hp hok => ?_) _
          obtain rfl := Except.ok.inj hok
          split
          · exact hp
          · exact hp

theorem HasContacts.exec (h : page.HasContacts) (crypto : ICryptography String) (e : LiveEvent) :
    (e.exec crypto page).HasContacts := by
  cases e with
  | init identity_commitment userKeyPair randomID root leaves => exact h.init _ _ _ _ _
  | call c => exact h.call c
  | syncRlnData =>
      exact h.change (f := fun m => { m with root_up_to_date := false }) (fun _ => rfl) _
  | scheduledRun bundles =>
      obtain ⟨derivations, heq⟩ := scheduledRun_eq crypto page bundles
      rw [LiveEvent.exec, heq]
      exact h
  | deriveRoomSecretKey n => exact h.deriveRoomSecretKey crypto n

theorem hasContacts_of_run {crypto : ICryptography String} {ok : LivePage → LiveEvent → Prop}
    (h : LiveRun crypto ok page) : page.HasContacts := by
  induction h with
  | start stored => exact fun i p hp => by cases hp
  | step _ _ ih => exact ih.exec crypto _

end LivePage

/-- In every run, at every profile that it leads to, the export is recovered exactly when the profile
    has a name and an id, no leaves, and the empty root. -/
theorem exportRecovers_iff {crypto : ICryptography String} {page : LivePage} {p : IProfile}
    (hrun : LiveRun crypto (fun _ _ => True) page) (hp : page.profile page.current = some p) :
    ExportRecovers page ↔ p.root_hash = some "" ∧ p.leaves = [] ∧
      p.username.isSome = true ∧ p.user_id.isSome = true := by
  have hcontacts := LivePage.hasContacts_of_run hrun page.current p hp
  rw [exportRecovers_of_profile hp, ProfileManager.validateFormat, hcontacts, Bool.true_and,
    Bool.and_eq_true]

namespace Demo

theorem seven_exact : 7 ≤ 2 ^ 53 := by decide

/-- A user registers; the server answers with the root and the leaves. -/
def register (root : Option String) (leaves : List String) : LiveEvent :=
  .init (some "commitment") ⟨"public", "private"⟩ ⟨7, seven_exact⟩ root leaves

/-- The page after that. -/
def registered (root : Option String) (leaves : List String) : LivePage :=
  (register root leaves).exec openCryptography {}

theorem run_registered (root : Option String) (leaves : List String) :
    LiveRun openCryptography (fun _ _ => True) (registered root leaves) :=
  (LiveRun.start none).step (e := register root leaves) trivial

end Demo

/-- With nothing to clear, the export is recovered. -/
theorem cleared_profile_recovers : ExportRecovers (Demo.registered (some "") []) :=
  (exportRecovers_iff (Demo.run_registered (some "") []) rfl).mpr ⟨rfl, rfl, rfl, rfl⟩

/-- Root and leaves of the server are in the export. -/
theorem export_keeps_root : ¬ ∀ (crypto : ICryptography String) (page : LivePage) (p : IProfile),
    LiveRun crypto (fun _ _ => True) page → page.profile page.current = some p →
    ExportRecovers page := by
  intro h
  have hexport := h _ _ _ (Demo.run_registered (some "root") ["1"]) rfl
  have hroot := ((exportRecovers_of_profile rfl).mp hexport).1
  exact absurd (Option.some.inj hroot) (by decide)

end ZkChat
