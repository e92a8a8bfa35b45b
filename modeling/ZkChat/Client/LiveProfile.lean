import ZkChat.Client.KeyExchange
import ZkChat.Client.StoredProfile

set_option autoImplicit false

/-! # The live profile

`init` makes a new `ProfileManager` on every call, but the `KeyExchangeManager` is made once and
stays with the manager that it was made with. Its task starts derivations that nobody waits for, and
when one of them has its key, that manager saves its profile. While it is the current manager this
is as it should be: after every step the storage has the profile of the current manager
(`oneLive_of_careful`). Once `init` has been called again, every derivation puts an old profile into
the storage. -/

namespace ZkChat

/-! ## Methods on the profile -/

namespace ProfileManager

/-- What `initProfile` makes. The key pair and the id are what the generators return. -/
def newProfile (identityCommitment : String) (root_hash : Option String) (leaves : List String)
    (userKeyPair : IKeyPair String) (user_id : Js.ExactNat) : IProfile where
  rln_identity_commitment := identityCommitment
  root_hash
  leaves
  user_private_key := userKeyPair.privateKey
  user_public_key := userKeyPair.publicKey
  rooms := initialRooms
  contacts := some .empty
  username := some ""
  user_id := some user_id

def updateRootHash (hash : Option String) (p : IProfile) : Except Exn IProfile :=
  .ok { p with root_hash := hash }

def updateLeaves (leaves : List String) (p : IProfile) : Except Exn IProfile :=
  .ok { p with leaves }

def updateUsername (newName : String) (randomID : Js.ExactNat) (p : IProfile) :
    Except Exn IProfile :=
  .ok { p with username := some newName, user_id := some (p.user_id.getD randomID) }

/-- A room is created or joined. -/
def changeRooms (call : RoomCall) (p : IProfile) : Except Exn IProfile :=
  (call.run p.rooms).map fun rooms => { p with rooms }

/-- `inMemoryProfile.contacts`, where a property of it is read. -/
def contactsOf (p : IProfile) : Except Exn ITrustedContactsMap :=
  match p.contacts with
  | some contacts => .ok contacts
  | none => .error .typeError

def validateContactExists (contacts : ITrustedContactsMap) (name : String) : Except Exn Unit :=
  if name ∈ contacts.keys then .ok ()
  else .error (.text "The specified contact doesn't exist")

def validateContactWithSameNameDoesntExist (contacts : ITrustedContactsMap) (name : String) :
    Except Exn Unit :=
  if name ∈ contacts.keys then .error (.text "A contact with the same name already exists")
  else .ok ()

def validateContactWithSamePublicKeyDoesntExist (contacts : ITrustedContactsMap)
    (publicKey : String) (ignoredKeys : List String) : Except Exn Unit :=
  if contacts.entries.any fun c => c.1 ∉ ignoredKeys ∧ c.2.publicKey = publicKey then
    .error (.text "A contact with the same public key already exists")
  else .ok ()

def insertTrustedContact (name publicKey : String) (p : IProfile) : Except Exn IProfile := do
  let contacts ← contactsOf p
  validateContactWithSameNameDoesntExist contacts name
  validateContactWithSamePublicKeyDoesntExist contacts publicKey []
  pure { p with contacts := some (contacts.set name { name, publicKey }) }

def updateTrustedContact (old_name new_name publicKey : String) (p : IProfile) :
    Except Exn IProfile := do
  let contacts ← contactsOf p
  validateContactExists contacts old_name
  validateContactWithSameNameDoesntExist contacts new_name
  validateContactWithSamePublicKeyDoesntExist contacts publicKey [old_name]
  let contacts := (contacts.delete old_name).set new_name { name := new_name, publicKey }
  pure { p with contacts := some contacts }

def deleteTrustedContact (name : String) (p : IProfile) : Except Exn IProfile := do
  let contacts ← contactsOf p
  validateContactExists contacts name
  pure { p with contacts := some (contacts.delete name) }

/-- Whether all nine fields are there. -/
def validateFormat (p : IProfile) : Bool :=
  p.contacts.isSome && p.username.isSome && p.user_id.isSome

/-- The key of a direct room is assigned. -/
def assignSymmetricKey (room : ℕ) (derived_secret_key : String) (p : IProfile) : IProfile :=
  { p with rooms := { p.rooms with directRooms := p.rooms.directRooms.modify room fun r =>
      { r with symmetric_key := derived_secret_key } } }

end ProfileManager

/-! ## The page -/

/-- A `ProfileManager`, with the flag of the `ChatManager` that was made with it. -/
structure ProfileManagerState where
  inMemoryProfile : Option IProfile := none
  /-- How many profiles `recoverProfile` has replaced; the rooms of those are no longer looked at. -/
  recovered : ℕ := 0
  root_up_to_date : Bool := true

/-- What the constructors make. -/
def ProfileManagerState.fresh : ProfileManagerState := {}

/-- A call of `deriveRoomSecretKey` that waits for its key. The room is an object of the profile
    that its manager had then. -/
structure PendingDerivation where
  profile_manager : ℕ
  recovered : ℕ
  room : ℕ
  dh_private_key : String
  dh_public_key : String

/-- That a manager saved its profile, and which one was the current manager then. -/
structure ProfileSave where
  profile_manager : ℕ
  current : ℕ
deriving DecidableEq

/-- One page. The last manager is `profile_manager`; `key_exchange_manager` is given by the manager
    that it was made with. -/
structure LivePage where
  profile_managers : List ProfileManagerState := []
  key_exchange_manager : Option ℕ := none
  storage : Option String := none
  derivations : List PendingDerivation := []
  saves : List ProfileSave := []

namespace LivePage

/-- The place of `profile_manager`. -/
def current (page : LivePage) : ℕ := page.profile_managers.length - 1

/-- `inMemoryProfile` of the manager `i`. -/
def profile (page : LivePage) (i : ℕ) : Option IProfile :=
  page.profile_managers[i]?.bind (·.inMemoryProfile)

/-- The manager `i` has changed. -/
def change (i : ℕ) (f : ProfileManagerState → ProfileManagerState) (page : LivePage) : LivePage :=
  { page with profile_managers := page.profile_managers.modify i f }

def persistProfile (i : ℕ) (p : IProfile) (page : LivePage) : LivePage :=
  { page with storage := some p.stringify, saves := page.saves ++ [⟨i, page.current⟩] }

/-- The profile is assigned and persisted. -/
def saveProfile (i : ℕ) (p : IProfile) (page : LivePage) : LivePage :=
  (page.change i fun m => { m with inMemoryProfile := some p }).persistProfile i p

/-- A method of the manager `i` that changes the profile and persists it. Without a profile it does
    nothing or throws; what it throws is left out. -/
def edit (i : ℕ) (f : IProfile → Except Exn IProfile) (page : LivePage) : LivePage :=
  match page.profile i with
  | none => page
  | some p =>
      match f p with
      | .ok p' => page.saveProfile i p'
      | .error _ => page

/-- `none` stands for `false`. -/
def loadProfile (i : ℕ) (page : LivePage) : Option LivePage := do
  let loadedProfile ← page.storage
  if loadedProfile = "" then none
  else do
    let p ← IProfile.parse loadedProfile
    some (page.change i fun m =>
      { m with inMemoryProfile := some { p with contacts := some (p.contacts.getD .empty) } })

/-- A new `ProfileManager` and a new `ChatManager` take the place of the old ones. -/
def addManager (page : LivePage) : LivePage :=
  { page with profile_managers := page.profile_managers ++ [ProfileManagerState.fresh] }

/-- The `KeyExchangeManager` is made unless there is one. -/
def startKeyExchange (i : ℕ) (page : LivePage) : LivePage :=
  { page with key_exchange_manager := some (page.key_exchange_manager.getD i) }

/-- `root` and `leaves` are what the server answers, `userKeyPair` and `randomID` what the generators
    return. -/
def init (identity_commitment : Option String) (userKeyPair : IKeyPair String)
    (randomID : Js.ExactNat) (root : Option String) (leaves : List String) (page : LivePage) :
    Except Exn Unit × LivePage :=
  let i := page.profile_managers.length
  if identity_commitment.getD "" ≠ "" then
    let profile := ProfileManager.newProfile (identity_commitment.getD "") root leaves userKeyPair
      randomID
    (.ok (), (page.addManager.saveProfile i profile).startKeyExchange i)
  else
    match page.addManager.loadProfile i with
    | none => (.error (.text "No profile exists"), page.addManager)
    | some page => (.ok (), ((page.edit i (ProfileManager.updateRootHash root)).edit i
        (ProfileManager.updateLeaves leaves)).startKeyExchange i)

def setRootObsolete (i : ℕ) (page : LivePage) : LivePage :=
  page.change i fun m => { m with root_up_to_date := false }

/-- The manager `i` is asked by its `ChatManager`. -/
def checkRootUpToDate (i : ℕ) (root : Option String) (leaves : List String) (page : LivePage) :
    LivePage :=
  match page.profile_managers[i]? with
  | none => page
  | some m =>
      if m.root_up_to_date then page
      else ((page.edit i (ProfileManager.updateRootHash root)).edit i
        (ProfileManager.updateLeaves leaves)).change i fun m => { m with root_up_to_date := true }

/-- `recoverProfile`: the old profile is no longer looked at. -/
def recoverProfile (i : ℕ) (p : IProfile) (page : LivePage) : LivePage :=
  (page.change i fun m => { m with recovered := m.recovered + 1 }).saveProfile i p

/-- The text is that of a profile; of any other it throws before it does anything. -/
def recover_profile (parsed_profile_data : IProfile) (root : Option String) (leaves : List String)
    (page : LivePage) : LivePage :=
  if page.profile_managers = [] ∨ ProfileManager.validateFormat parsed_profile_data = false then page
  else ((page.recoverProfile page.current parsed_profile_data).setRootObsolete
    page.current).checkRootUpToDate page.current root leaves

end LivePage

/-- The calls that change the profile. -/
inductive ProfileCall where
  | room (call : RoomCall)
  | update_username (newName : String) (randomID : Js.ExactNat)
  | insert_contact (name public_key : String)
  | update_contact (old_name new_name public_key : String)
  | delete_contact (name : String)
  | send_message (root : Option String) (leaves : List String)
  | recover_profile (parsed_profile_data : IProfile) (root : Option String) (leaves : List String)

/-- The page after the call. -/
def ProfileCall.exec (page : LivePage) : ProfileCall → LivePage
  | room call => page.edit page.current (ProfileManager.changeRooms call)
  | update_username newName randomID =>
      page.edit page.current (ProfileManager.updateUsername newName randomID)
  | insert_contact name public_key =>
      page.edit page.current (ProfileManager.insertTrustedContact name public_key)
  | update_contact old_name new_name public_key =>
      page.edit page.current (ProfileManager.updateTrustedContact old_name new_name public_key)
  | delete_contact name => page.edit page.current (ProfileManager.deleteTrustedContact name)
  | send_message root leaves => page.checkRootUpToDate page.current root leaves
  | recover_profile parsed_profile_data root leaves =>
      page.recover_profile parsed_profile_data root leaves

/-! ## The scheduled task -/

namespace LivePage

variable (crypto : ICryptography String)

/-- The derivations that a run of the task starts, with the bundles that the server returns. -/
def derivationsFor (i recovered : ℕ) (p : IProfile) (bundles : List (Bundle String)) :
    List PendingDerivation :=
  let rooms := ProfileManager.getAllRoomsAvailableForKeyExchange p.rooms.directRooms
  bundles.filterMap fun b =>
    (KeyExchangeManager.openBundle crypto p.user_private_key b).bind fun content =>
      (rooms.find? fun r => r.1.recipient_public_key = content.1.2).map fun r =>
        { profile_manager := i, recovered, room := r.2, dh_private_key := r.1.dh_private_key
          dh_public_key := content.1.1 }

/-- The task acts on the manager that the `KeyExchangeManager` was made with. -/
def scheduledRun (bundles : List (Bundle String)) (page : LivePage) : LivePage :=
  match page.key_exchange_manager with
  | none => page
  | some i =>
      match page.profile_managers[i]? with
      | none => page
      | some m =>
          match m.inMemoryProfile with
          | none => page
          | some p => { page with derivations :=
              page.derivations ++ derivationsFor crypto i m.recovered p bundles }

/-- What is left of `deriveRoomSecretKey`, for the `n`-th derivation that waits. -/
def deriveRoomSecretKey (n : ℕ) (page : LivePage) : LivePage :=
  match page.derivations[n]? with
  | none => page
  | some d =>
      let page := { page with derivations := page.derivations.eraseIdx n }
      match crypto.deriveSharedSecretKey d.dh_private_key d.dh_public_key with
      | none => page
      | some derived_secret_key =>
          let isCurrent := page.profile_managers[d.profile_manager]?.any (·.recovered = d.recovered)
          page.edit d.profile_manager fun p =>
            .ok (if isCurrent then ProfileManager.assignSymmetricKey d.room derived_secret_key p
              else p)

end LivePage

/-- What happens on a page. -/
inductive LiveEvent where
  | init (identity_commitment : Option String) (userKeyPair : IKeyPair String)
      (randomID : Js.ExactNat) (root : Option String) (leaves : List String)
  | call (c : ProfileCall)
  /-- The server announces a change of its tree. -/
  | syncRlnData
  | scheduledRun (bundles : List (Bundle String))
  | deriveRoomSecretKey (n : ℕ)

/-- The page after the event. -/
def LiveEvent.exec (crypto : ICryptography String) (page : LivePage) : LiveEvent → LivePage
  | init identity_commitment userKeyPair randomID root leaves =>
      (page.init identity_commitment userKeyPair randomID root leaves).2
  | call c => c.exec page
  | syncRlnData => page.setRootObsolete page.current
  | scheduledRun bundles => page.scheduledRun crypto bundles
  | deriveRoomSecretKey n => page.deriveRoomSecretKey crypto n

/-- The pages that runs lead to, on a storage that is empty or has a profile, with the events that
    may happen. -/
inductive LiveRun (crypto : ICryptography String) (ok : LivePage → LiveEvent → Prop) :
    LivePage → Prop
  | start (stored : Option IProfile) :
      LiveRun crypto ok { storage := stored.map IProfile.stringify }
  | step {page : LivePage} {e : LiveEvent} (h : LiveRun crypto ok page) (hok : ok page e) :
      LiveRun crypto ok (e.exec crypto page)

namespace LivePage

/-- The storage has the profile of the current manager, and no other manager has saved its own. -/
structure OneLive (page : LivePage) : Prop where
  synced : page.profile_managers ≠ [] →
    page.storage = (page.profile page.current).map IProfile.stringify
  saves : ∀ s ∈ page.saves, s.profile_manager = s.current

/-- A derivation that gets its key was started for the current manager. -/
def Careful (crypto : ICryptography String) (page : LivePage) : LiveEvent → Prop
  | .deriveRoomSecretKey n => ∀ d, page.derivations[n]? = some d →
      (crypto.deriveSharedSecretKey d.dh_private_key d.dh_public_key).isSome →
        d.profile_manager = page.current
  | _ => True

/-- In every run, moreover, what the storage has is a profile. -/
structure Inv (page : LivePage) : Prop extends OneLive page where
  stored : ∃ p : Option IProfile, page.storage = p.map IProfile.stringify

variable {crypto : ICryptography String} {page : LivePage} {i : ℕ}

/-! ## What the parts of a step do -/

theorem length_change (i : ℕ) (f : ProfileManagerState → ProfileManagerState) (page : LivePage) :
    (page.change i f).profile_managers.length = page.profile_managers.length :=
  List.length_modify ..

theorem current_change (i : ℕ) (f : ProfileManagerState → ProfileManagerState) (page : LivePage) :
    (page.change i f).current = page.current := by
  rw [current, length_change, current]

/-- Only an assignment to `inMemoryProfile` changes the profile. -/
theorem profile_change {f : ProfileManagerState → ProfileManagerState}
    (hf : ∀ m, (f m).inMemoryProfile = m.inMemoryProfile) (j : ℕ) :
    (page.change i f).profile j = page.profile j := by
  unfold profile change
  simp only [List.getElem?_modify]
  cases page.profile_managers[j]? with
  | none => rfl
  | some m => by_cases h : i = j <;> simp [h, hf]

theorem profile_saveProfile (hi : i < page.profile_managers.length) (p : IProfile) :
    (page.saveProfile i p).profile i = some p := by
  unfold profile saveProfile persistProfile change
  simp [List.getElem?_eq_getElem hi]

theorem edit_of_ok {f : IProfile → Except Exn IProfile} {p p' : IProfile}
    (hprofile : page.profile i = some p) (hf : f p = .ok p') :
    page.edit i f = page.saveProfile i p' := by
  rw [edit, hprofile]
  dsimp only
  rw [hf]

theorem length_edit (i : ℕ) (f : IProfile → Except Exn IProfile) (page : LivePage) :
    (page.edit i f).profile_managers.length = page.profile_managers.length := by
  unfold edit
  split
  · rfl
  · split
    · exact length_change ..
    · rfl

theorem current_edit (i : ℕ) (f : IProfile → Except Exn IProfile) (page : LivePage) :
    (page.edit i f).current = page.current := by
  rw [current, length_edit, current]

/-! ## What the parts of a step preserve -/

/-- Whatever was in the storage, a save of the last manager brings it into line. -/
theorem inv_saveProfile (hsaves : ∀ s ∈ page.saves, s.profile_manager = s.current)
    (hi : page.profile_managers.length = i + 1) (p : IProfile) : (page.saveProfile i p).Inv := by
  have hcurrent : page.current = i := by rw [current, hi, Nat.add_sub_cancel]
  have hcurrent' : (page.saveProfile i p).current = i := (current_change ..).trans hcurrent
  refine ⟨⟨fun _ => ?_, fun s hs => ?_⟩, some p, rfl⟩
  · rw [hcurrent', profile_saveProfile (by omega)]
    rfl
  · rcases List.mem_append.mp hs with hs | hs
    · exact hsaves s hs
    · rw [List.mem_singleton.mp hs]
      exact ((current_change ..).trans hcurrent).symm

theorem Inv.saveProfile (h : page.Inv) (hmanagers : page.profile_managers ≠ []) (p : IProfile) :
    (page.saveProfile page.current p).Inv := by
  have := List.length_pos_iff.mpr hmanagers
  exact inv_saveProfile h.saves (by rw [current]; omega) p

theorem Inv.edit (h : page.Inv) (hi : i = page.current) (f : IProfile → Except Exn IProfile) :
    (page.edit i f).Inv := by
  subst hi
  unfold LivePage.edit
  cases hprofile : page.profile page.current with
  | none => exact h
  | some p =>
      dsimp only
      cases f p with
      | error e => exact h
      | ok p' =>
          refine h.saveProfile (fun hnil => ?_) p'
          rw [profile, hnil] at hprofile
          cases hprofile

theorem Inv.change (h : page.Inv) {f : ProfileManagerState → ProfileManagerState}
    (hf : ∀ m, (f m).inMemoryProfile = m.inMemoryProfile) (i : ℕ) : (page.change i f).Inv := by
  refine ⟨⟨fun hmanagers => ?_, h.saves⟩, h.stored⟩
  rw [current_change, profile_change hf]
  refine h.synced fun hnil => hmanagers ?_
  rw [LivePage.change, hnil, List.modify_nil]

theorem Inv.setRootObsolete (h : page.Inv) (i : ℕ) : (page.setRootObsolete i).Inv :=
  h.change (f := fun m => { m with root_up_to_date := false }) (fun _ => rfl) i

theorem Inv.checkRootUpToDate (h : page.Inv) (hi : i = page.current) (root : Option String)
    (leaves : List String) : (page.checkRootUpToDate i root leaves).Inv := by
  unfold LivePage.checkRootUpToDate
  split
  · exact h
  · split
    · exact h
    · have hroot := h.edit hi (ProfileManager.updateRootHash root)
      exact (hroot.edit (hi.trans (current_edit ..).symm) _).change
        (f := fun m => { m with root_up_to_date := true }) (fun _ => rfl) _

theorem Inv.recoverProfile (h : page.Inv) (hmanagers : page.profile_managers ≠ []) (p : IProfile) :
    (page.recoverProfile page.current p).Inv := by
  have hchange := h.change (f := fun m => { m with recovered := m.recovered + 1 })
    (fun _ => rfl) page.current
  have := hchange.saveProfile (by simpa [LivePage.change] using hmanagers) p
  rwa [current_change] at this

theorem Inv.recover_profile (h : page.Inv) (p : IProfile) (root : Option String)
    (leaves : List String) : (page.recover_profile p root leaves).Inv := by
  unfold LivePage.recover_profile
  split
  · exact h
  · next hcall =>
      have hcurrent : ((page.recoverProfile page.current p).setRootObsolete page.current).current
          = page.current :=
        (current_change ..).trans ((current_change ..).trans (current_change ..))
      exact ((h.recoverProfile (not_or.mp hcall).1 p).setRootObsolete _).checkRootUpToDate
        hcurrent.symm root leaves

theorem Inv.call (h : page.Inv) (c : ProfileCall) : (c.exec page).Inv := by
  cases c with
  | room call => exact h.edit rfl _
  | update_username newName randomID => exact h.edit rfl (ProfileManager.updateUsername newName randomID)
  | insert_contact name public_key => exact h.edit rfl _
  | update_contact old_name new_name public_key => exact h.edit rfl _
  | delete_contact name => exact h.edit rfl _
  | send_message root leaves => exact h.checkRootUpToDate rfl root leaves
  | recover_profile p root leaves => exact h.recover_profile p root leaves

theorem Inv.startKeyExchange (h : page.Inv) (i : ℕ) : (page.startKeyExchange i).Inv :=
  ⟨⟨h.synced, h.saves⟩, h.stored⟩

/-- A profile that was saved is loaded. -/
theorem loadProfile_stringify {p : IProfile} (hstorage : page.storage = some p.stringify) (i : ℕ) :
    page.loadProfile i = some (page.change i fun m =>
      { m with inMemoryProfile := some { p with contacts := some (p.contacts.getD .empty) } }) := by
  simp [loadProfile, hstorage, p.stringify_ne_empty, IProfile.parse_stringify]

theorem init_of_load {identity_commitment : Option String} {userKeyPair : IKeyPair String}
    {randomID : Js.ExactNat} {root : Option String} {leaves : List String} {loaded : LivePage}
    (hidentity : identity_commitment.getD "" = "")
    (hload : page.addManager.loadProfile page.profile_managers.length = some loaded) :
    (page.init identity_commitment userKeyPair randomID root leaves).2
      = ((loaded.edit page.profile_managers.length (ProfileManager.updateRootHash root)).edit
          page.profile_managers.length (ProfileManager.updateLeaves leaves)).startKeyExchange
            page.profile_managers.length := by
  rw [LivePage.init, if_neg (not_not.mpr hidentity)]
  simp only [hload]

theorem init_of_not_load {identity_commitment : Option String} {userKeyPair : IKeyPair String}
    {randomID : Js.ExactNat} {root : Option String} {leaves : List String}
    (hidentity : identity_commitment.getD "" = "")
    (hload : page.addManager.loadProfile page.profile_managers.length = none) :
    (page.init identity_commitment userKeyPair randomID root leaves).2 = page.addManager := by
  rw [LivePage.init, if_neg (not_not.mpr hidentity)]
  simp only [hload]

theorem length_addManager (page : LivePage) :
    page.addManager.profile_managers.length = page.profile_managers.length + 1 := by
  simp [addManager]

theorem current_addManager (page : LivePage) :
    page.addManager.current = page.profile_managers.length := by
  rw [current, length_addManager, Nat.add_sub_cancel]

/-- There is no profile to load, and a new manager has none. -/
theorem Inv.addManager (h : page.Inv) (hstorage : page.storage = none) : page.addManager.Inv := by
  have hnone : page.addManager.storage = none := hstorage
  refine ⟨⟨fun _ => ?_, h.saves⟩, none, hnone⟩
  rw [current_addManager, hnone, profile, LivePage.addManager, List.getElem?_concat_length]
  rfl

/-- A new manager has a profile that the storage may not have; its first change saves it. -/
theorem Inv.edit_loaded (h : page.Inv) {f : IProfile → Except Exn IProfile} {p p' : IProfile}
    (hf : f p = .ok p') :
    ((page.addManager.change page.profile_managers.length fun m =>
      { m with inMemoryProfile := some p }).edit page.profile_managers.length f).Inv := by
  set loaded := page.addManager.change page.profile_managers.length fun m =>
    { m with inMemoryProfile := some p }
  have hlength : loaded.profile_managers.length = page.profile_managers.length + 1 :=
    (length_change ..).trans (length_addManager page)
  have hprofile : loaded.profile page.profile_managers.length = some p :=
    profile_saveProfile (by rw [length_addManager]; omega) p
  have hsaves : ∀ s ∈ loaded.saves, s.profile_manager = s.current := h.saves
  rw [edit_of_ok hprofile hf]
  exact inv_saveProfile hsaves hlength p'

theorem Inv.init (h : page.Inv) (identity_commitment : Option String)
    (userKeyPair : IKeyPair String) (randomID : Js.ExactNat) (root : Option String)
    (leaves : List String) :
    (page.init identity_commitment userKeyPair randomID root leaves).2.Inv := by
  by_cases hidentity : identity_commitment.getD "" = ""
  · obtain ⟨p, hstorage⟩ := h.stored
    cases p with
    | none =>
        have hload : page.addManager.loadProfile page.profile_managers.length = none := by
          rw [loadProfile, show page.addManager.storage = none from hstorage]
          rfl
        rw [init_of_not_load hidentity hload]
        exact h.addManager hstorage
    | some p =>
        have hadded : page.addManager.storage = some p.stringify := hstorage
        rw [init_of_load hidentity (loadProfile_stringify hadded _)]
        have hroot := h.edit_loaded (f := ProfileManager.updateRootHash root)
          (p := { p with contacts := some (p.contacts.getD .empty) }) rfl
        refine (hroot.edit ?_ _).startKeyExchange _
        rw [current_edit, current_change, current_addManager]
  · rw [LivePage.init, if_pos hidentity]
    have hsaves : ∀ s ∈ page.addManager.saves, s.profile_manager = s.current := h.saves
    exact (inv_saveProfile hsaves (length_addManager page) _).startKeyExchange _

/-- The task only starts derivations. -/
theorem scheduledRun_eq (crypto : ICryptography String) (page : LivePage)
    (bundles : List (Bundle String)) :
    ∃ derivations, page.scheduledRun crypto bundles = { page with derivations } := by
  unfold LivePage.scheduledRun
  split
  · exact ⟨page.derivations, rfl⟩
  · split
    · exact ⟨page.derivations, rfl⟩
    · split
      · exact ⟨page.derivations, rfl⟩
      · exact ⟨_, rfl⟩

theorem Inv.scheduledRun (h : page.Inv) (bundles : List (Bundle String)) :
    (page.scheduledRun crypto bundles).Inv := by
  obtain ⟨derivations, heq⟩ := scheduledRun_eq crypto page bundles
  rw [heq]
  exact ⟨⟨h.synced, h.saves⟩, h.stored⟩

theorem Inv.deriveRoomSecretKey (h : page.Inv) {n : ℕ}
    (hcareful : page.Careful crypto (.deriveRoomSecretKey n)) :
    (page.deriveRoomSecretKey crypto n).Inv := by
  unfold LivePage.deriveRoomSecretKey
  cases hd : page.derivations[n]? with
  | none => exact h
  | some d =>
      have hwaiting : ({ page with derivations := page.derivations.eraseIdx n } : LivePage).Inv :=
        ⟨⟨h.synced, h.saves⟩, h.stored⟩
      dsimp only
      cases hkey : crypto.deriveSharedSecretKey d.dh_private_key d.dh_public_key with
      | none => exact hwaiting
      | some derived_secret_key => exact hwaiting.edit (hcareful d hd (by rw [hkey]; rfl)) _

theorem Inv.exec (h : page.Inv) {e : LiveEvent} (hcareful : page.Careful crypto e) :
    (e.exec crypto page).Inv := by
  cases e with
  | init identity_commitment userKeyPair randomID root leaves => exact h.init ..
  | call c => exact h.call c
  | syncRlnData => exact h.setRootObsolete _
  | scheduledRun bundles => exact h.scheduledRun bundles
  | deriveRoomSecretKey n => exact h.deriveRoomSecretKey hcareful

/-- As long as every derivation that gets its key was started for the manager that is current then,
    there is one live profile. -/
theorem oneLive_of_careful (h : LiveRun crypto (Careful crypto) page) : page.OneLive := by
  have hinv : page.Inv := by
    induction h with
    | start stored => exact ⟨⟨fun hnil => absurd rfl hnil, fun s hs => nomatch hs⟩, stored, rfl⟩
    | step _ hcareful ih => exact ih.exec hcareful
  exact hinv.toOneLive

end LivePage

/-! ## A page with a direct room -/

namespace Demo

/-- Every text opens everything, and all keys that are derived are the same. -/
def openCryptography : ICryptography String where
  encryptMessageSymmetric message _ := some message
  decryptMessageSymmetric cyphertext _ := some cyphertext
  encryptMessageAsymmetric message _ _ := some message
  decryptMessageAsymmetric cyphertext _ := some cyphertext
  deriveSharedSecretKey _ _ := some "secret"
  hash text := text
  stringify dh_public_key _ := dh_public_key
  parse text := some (text, "bob")

/-- `init` with or without an identity commitment. -/
def initWith (identity_commitment : Option String) : LiveEvent :=
  .init identity_commitment ⟨"public", "private"⟩ ⟨7, by decide⟩ (some "root") []

def createRoom : LiveEvent :=
  .call (.room (.createDirectRoom "chat" "bob" "id" ⟨"dhPublic", "dhPrivate"⟩))

/-- The task finds a bundle from the other side. -/
def task : LiveEvent := .scheduledRun [⟨"dh", "hash", "key", "public"⟩]

/-- The user's profile, with the key of the direct room. -/
def directRoomProfile (symmetric_key : String) : IProfile :=
  let profile := ProfileManager.newProfile "commitment" (some "root") [] ⟨"public", "private"⟩
    ⟨7, by decide⟩
  { profile with rooms := { ProfileManager.initialRooms with
      directRooms := [⟨"id", "chat", "DIRECT", symmetric_key, "bob", "dhPublic", "dhPrivate"⟩] } }

def roomCreated : LivePage where
  profile_managers := [{ inMemoryProfile := some (directRoomProfile "") }]
  key_exchange_manager := some 0
  storage := some (directRoomProfile "").stringify
  saves := [⟨0, 0⟩, ⟨0, 0⟩]

/-- The same page after another `init`, which loads the profile. -/
def reloaded : LivePage where
  profile_managers := [{ inMemoryProfile := some (directRoomProfile "") },
    { inMemoryProfile := some (directRoomProfile "") }]
  key_exchange_manager := some 0
  storage := some (directRoomProfile "").stringify
  saves := [⟨0, 0⟩, ⟨0, 0⟩, ⟨1, 1⟩, ⟨1, 1⟩]

theorem exec_reloaded : (initWith none).exec openCryptography roomCreated = reloaded := by
  have hload := @LivePage.loadProfile_stringify roomCreated.addManager (directRoomProfile "") rfl 1
  have hroot : ProfileManager.updateRootHash (some "root") (directRoomProfile "")
      = .ok (directRoomProfile "") := rfl
  have hleaves : ProfileManager.updateLeaves [] (directRoomProfile "")
      = .ok (directRoomProfile "") := rfl
  rw [initWith, LiveEvent.exec, LivePage.init_of_load rfl hload, LivePage.edit_of_ok rfl hroot,
    LivePage.edit_of_ok rfl hleaves]
  rfl

/-- The same page after a run of the task and its derivation. -/
def keyDerived : LivePage where
  profile_managers := [{ inMemoryProfile := some (directRoomProfile "secret") },
    { inMemoryProfile := some (directRoomProfile "") }]
  key_exchange_manager := some 0
  storage := some (directRoomProfile "secret").stringify
  saves := [⟨0, 0⟩, ⟨0, 0⟩, ⟨1, 1⟩, ⟨1, 1⟩, ⟨0, 1⟩]

end Demo

/-- The task derives a key for the page's only manager. -/
theorem only_manager_is_live : ((LiveEvent.deriveRoomSecretKey 0).exec Demo.openCryptography
    (Demo.task.exec Demo.openCryptography Demo.roomCreated)).OneLive := by
  refine LivePage.oneLive_of_careful (.step (.step (.step (.step (.start none)
    (e := Demo.initWith (some "commitment")) trivial) (e := Demo.createRoom) trivial)
    (e := Demo.task) trivial) ?_)
  intro d hd _
  obtain rfl : (⟨0, 0, 0, "dhPrivate", "dh"⟩ : PendingDerivation) = d := Option.some.inj hd
  rfl

/-- After another `init` the derivation puts the profile of the old manager into the storage, and
    the current manager does not have the key. -/
theorem old_manager_saves : ¬ ∀ (crypto : ICryptography String) (page : LivePage),
    LiveRun crypto (fun _ _ => True) page → page.OneLive := by
  intro h
  have hroom : LiveRun Demo.openCryptography (fun _ _ => True) Demo.roomCreated :=
    .step (.step (.start none) (e := Demo.initWith (some "commitment")) trivial)
      (e := Demo.createRoom) trivial
  have hreloaded : LiveRun Demo.openCryptography (fun _ _ => True) Demo.reloaded :=
    Demo.exec_reloaded ▸ hroom.step (e := Demo.initWith none) trivial
  have hderived : LiveRun Demo.openCryptography (fun _ _ => True) Demo.keyDerived :=
    .step (.step hreloaded (e := Demo.task) trivial) (e := .deriveRoomSecretKey 0) trivial
  have hlive := h _ _ hderived
  -- the texts of the two profiles differ
  have htexts := Option.some.inj (hlive.synced (List.cons_ne_nil _ _))
  have hrooms := congrArg (fun p : IProfile => p.rooms.directRooms.map (·.symmetric_key))
    (IProfile.stringify_injective htexts)
  exact absurd hrooms (by decide)

end ZkChat
