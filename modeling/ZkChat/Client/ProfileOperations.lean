import ZkChat.Client.UntypedProfile

set_option autoImplicit false

/-! # Operations on a profile of any shape

What `ProfileManager` does with the profile it has recovered, and what the profile has to be for
that: the three lists are lists, no room and no contact is `null`, and what is compared with a text
can be compared (`Operable`). It stays so in every run (`Operable.runAll`). -/

namespace ZkChat

/-! ## The operations -/

/-- The operations on rooms and contacts, the export, and the refresh of root and leaves that
    `recover_profile` ends with. -/
inductive ProfileOp where
  | addPublicRoom (room : IRoom)
  | addPrivateRoom (room : IRoom)
  | addDirectRoom (room : IDirectRoom String)
  | getRooms
  | getRoomIds
  | getRoomById (id : String)
  | encryptMessageForRoom (id message : String)
  | getUserRoomsForChatType (type : String)
  | getAllRoomsAvailableForKeyExchange
  | getTrustedContacts
  | getTrustedContact (name : String)
  | insertTrustedContact (name publicKey : String)
  | updateTrustedContact (old_name new_name publicKey : String)
  | deleteTrustedContact (name : String)
  | exportProfile
  | refresh (root : Option String) (leaves : List String)

namespace ProfileOp

variable (encryptMessageSymmetric : String → Option Json → Except Exn String)

/-- Without a profile. -/
def withoutProfile : ProfileOp → Except Exn Unit
  | addPublicRoom _ | addPrivateRoom _ | addDirectRoom _ | getRooms | getRoomIds | refresh .. => .ok ()
  | exportProfile => .error (.text "No profile exists locally")
  | _ => .error (.text "Profile doesn't exist")

/-- What an operation comes to that returns something. -/
def reads {α : Type} (x : Except Exn α) (s : ProfileStore) : Except Exn Unit × ProfileStore :=
  (x.map fun _ => (), s)

/-- What an operation comes to that changes the profile and persists it. -/
def writes (x : Except Exn UntypedProfile) (s : ProfileStore) : Except Exn Unit × ProfileStore :=
  match x with
  | .ok p => (.ok (), .save p)
  | .error e => (.error e, s)

def run (op : ProfileOp) (s : ProfileStore) : Except Exn Unit × ProfileStore :=
  match s.inMemoryProfile with
  | none => (op.withoutProfile, s)
  | some p =>
      match op with
      | addPublicRoom room => writes (p.addPublicRoom room) s
      | addPrivateRoom room => writes (p.addPrivateRoom room) s
      | addDirectRoom room => writes (p.addDirectRoom room) s
      | getRooms => reads p.getRooms s
      | getRoomIds => reads p.getRoomIds s
      | getRoomById id => reads (p.getRoomById id) s
      | encryptMessageForRoom id message =>
          reads (p.encryptMessageForRoom encryptMessageSymmetric id message) s
      | getUserRoomsForChatType type => reads (p.getUserRoomsForChatType type) s
      | getAllRoomsAvailableForKeyExchange => reads p.getAllRoomsAvailableForKeyExchange s
      | getTrustedContacts => (.ok (), s)
      | getTrustedContact name => reads (p.getTrustedContact name) s
      | insertTrustedContact name publicKey => writes (p.insertTrustedContact name publicKey) s
      | updateTrustedContact old_name new_name publicKey =>
          match p.updateTrustedContact old_name new_name publicKey with
          | (.ok (), p) => (.ok (), .save p)
          | (.error e, p) => (.error e, { s with inMemoryProfile := some p })
      | deleteTrustedContact name => writes (p.deleteTrustedContact name) s
      | exportProfile => reads p.exportProfile s
      | refresh root leaves => (.ok (), s.refresh root leaves)

/-- The store after operations, whatever they throw. -/
def runAll (ops : List ProfileOp) (s : ProfileStore) : ProfileStore :=
  ops.foldl (fun s op => (op.run encryptMessageSymmetric s).2) s

/-- The texts that an operation throws. -/
def documented : ProfileOp → List String
  | addPublicRoom _ | addPrivateRoom _ | addDirectRoom _ => ["Room already exists"]
  | getRoomById _ | encryptMessageForRoom .. => ["Profile doesn't exist", "Room doesn't exist"]
  | getUserRoomsForChatType _ | getAllRoomsAvailableForKeyExchange | getTrustedContacts =>
      ["Profile doesn't exist"]
  | getTrustedContact _ => ["Profile doesn't exist", "Contact doesn't exist"]
  | insertTrustedContact .. =>
      ["Profile doesn't exist", "A contact with the same name already exists",
        "A contact with the same public key already exists"]
  | updateTrustedContact .. =>
      ["Profile doesn't exist", "The specified contact doesn't exist",
        "A contact with the same name already exists",
        "A contact with the same public key already exists"]
  | deleteTrustedContact _ => ["Profile doesn't exist", "The specified contact doesn't exist"]
  | exportProfile => ["No profile exists locally"]
  | getRooms | getRoomIds | refresh .. => []

/-- The cryptography refuses the key of the room that is found; with a `TypeError` only a key that
    is a string. -/
def KeyRefused (s : ProfileStore) (id message : String) (e : Exn) : Prop :=
  ∃ p room key, s.inMemoryProfile = some p ∧ p.findById id = .ok (some room) ∧
    Js.prop (some room) "symmetric_key" = .ok key ∧ encryptMessageSymmetric message key = .error e ∧
    (e = .typeError → ∃ k, key = some (.str k))

/-- The operation finishes, or throws what it may throw. -/
def EndsWell (op : ProfileOp) (s : ProfileStore) : Prop :=
  ∀ e, (op.run encryptMessageSymmetric s).1 = .error e →
    (∃ text ∈ op.documented, e = .text text) ∨
    ∃ id message, op = encryptMessageForRoom id message ∧
      KeyRefused encryptMessageSymmetric s id message e

end ProfileOp

/-! ## What the operations need -/

section

variable (encryptMessageSymmetric : String → Option Json → Except Exn String)

/-- The cryptography throws no `TypeError`, or the key of the room is a string. -/
def KeyUsable (message : String) (room : Json) : Prop :=
  ∀ key, Js.prop (some room) "symmetric_key" = .ok key →
    encryptMessageSymmetric message key = .error .typeError → ∃ k, key = some (.str k)

/-- All rooms, and the direct ones among them. -/
structure RoomsUsable (rooms directRooms : List Json) : Prop where
  id : ∀ r ∈ rooms, Comparable r "id"
  symmetric_key : ∀ r ∈ rooms, Comparable r "symmetric_key"
  recipient_public_key : ∀ r ∈ directRooms, Comparable r "recipient_public_key"
  keys : ∀ id message r, rooms.find? (fun r => Js.propEq (some r) "id" id = .ok true) = some r →
    KeyUsable encryptMessageSymmetric message r

/-- The profile has the lists. -/
def UntypedProfile.Lists (p : UntypedProfile) (publicRooms privateRooms directRooms : List Json) :
    Prop :=
  p.rooms "public" = .ok (some (.arr publicRooms)) ∧
    p.rooms "private" = .ok (some (.arr privateRooms)) ∧
    p.rooms "direct" = .ok (some (.arr directRooms))

/-- What the operations need of a profile. -/
structure Operable (p : UntypedProfile) : Prop where
  rooms : ∃ publicRooms privateRooms directRooms,
    p.Lists publicRooms privateRooms directRooms ∧
    RoomsUsable encryptMessageSymmetric (publicRooms ++ privateRooms ++ directRooms) directRooms
  contacts : ∃ fields, p.contacts = .object fields ∧
    ∀ name c, fields.lookup name = some c → Comparable c "publicKey"

end

/-! ## The parts of a profile -/

namespace UntypedProfile

variable {p : UntypedProfile} {type : String} {rs : List Json}

theorem rooms_eq_arr_iff : p.rooms type = .ok (some (.arr rs)) ↔
    ∃ fields, p.fields.lookup "rooms" = some (.obj fields) ∧ fields.lookup type = some (.arr rs) := by
  unfold rooms Js.path Js.path Js.path
  show (Js.prop (p.fields.lookup "rooms") type).bind _ = _ ↔ _
  match p.fields.lookup "rooms" with
  | none => simp [Js.prop, Except.bind]
  | some .null => simp [Js.prop, Except.bind]
  | some (.bool _) => simp [Js.prop, Except.bind]
  | some (.num _) => simp [Js.prop, Except.bind]
  | some (.str _) => simp [Js.prop, Except.bind]
  | some (.arr _) => simp [Js.prop, Except.bind]
  | some (.obj fields) => simp [Js.prop, Except.bind]

theorem roomList_of_rooms (h : p.rooms type = .ok (some (.arr rs))) : p.roomList type = .ok rs := by
  rw [roomList, h]
  rfl

/-- A list is used, or there is a `TypeError`. -/
theorem rooms_or_typeError (p : UntypedProfile) (type : String) :
    (∃ rs, p.rooms type = .ok (some (.arr rs))) ∨ p.roomList type = .error .typeError := by
  unfold roomList
  cases hrooms : p.rooms type with
  | error e =>
      refine Or.inr ?_
      have hprop : Js.prop (p.fields.lookup "rooms") type = .error e := by
        cases hprop : Js.prop (p.fields.lookup "rooms") type with
        | error e' =>
            have hpath : p.rooms type = (Js.prop (p.fields.lookup "rooms") type).bind .ok := rfl
            rw [hprop, hrooms] at hpath
            exact hpath.symm
        | ok v =>
            have hpath : p.rooms type = (Js.prop (p.fields.lookup "rooms") type).bind .ok := rfl
            rw [hprop, hrooms] at hpath
            cases hpath
      exact congrArg Except.error (prop_error hprop)
  | ok v =>
      match v with
      | some (.arr rs) => exact Or.inl ⟨rs, rfl⟩
      | none => exact Or.inr rfl
      | some .null => exact Or.inr rfl
      | some (.bool _) => exact Or.inr rfl
      | some (.num _) => exact Or.inr rfl
      | some (.str _) => exact Or.inr rfl
      | some (.obj _) => exact Or.inr rfl

/-- A room that is pushed is the last of its list, and the other lists are as they were. -/
theorem rooms_pushRoom (h : p.rooms type = .ok (some (.arr rs))) (room : Json) (type' : String) :
    (p.pushRoom type room).rooms type'
      = if type' = type then .ok (some (.arr (rs ++ [room]))) else p.rooms type' := by
  obtain ⟨fields, hrooms, htype⟩ := rooms_eq_arr_iff.mp h
  have hpath : ∀ q : UntypedProfile, q.rooms type'
      = (Js.prop (q.fields.lookup "rooms") type').bind .ok := fun _ => rfl
  rw [hpath, hpath, pushRoom, Js.modifyAt]
  simp only [Js.lookup_map_modify, if_true, hrooms, Option.map_some, Js.modifyAt, Js.prop, Except.bind,
    Js.lookup_map_modify fields type type' (Js.push room)]
  by_cases ht : type' = type
  · rw [if_pos ht, if_pos ht, ht, htype]
    rfl
  · rw [if_neg ht, if_neg ht]

@[simp] theorem contacts_pushRoom (room : Json) : (p.pushRoom type room).contacts = p.contacts := by
  unfold pushRoom
  split <;> rfl

theorem findByProp_append (key text : String) (l₁ l₂ : List Json) :
    Js.findByProp key text (l₁ ++ l₂) = (do
      match ← Js.findByProp key text l₁ with
      | some room => pure (some room)
      | none => Js.findByProp key text l₂) := by
  induction l₁ with
  | nil => rfl
  | cons r l₁ ih =>
      rw [List.cons_append, Js.findByProp, Js.findByProp]
      cases Js.propEq (some r) key text with
      | error e => rfl
      | ok b =>
          cases b with
          | true => rfl
          | false => exact ih

/-- The lists are searched as one. -/
theorem findById_eq {publicRooms privateRooms directRooms : List Json}
    (h : p.Lists publicRooms privateRooms directRooms) (id : String) :
    p.findById id = Js.findByProp "id" id (publicRooms ++ privateRooms ++ directRooms) := by
  unfold findById
  rw [roomList_of_rooms h.1, roomList_of_rooms h.2.1, roomList_of_rooms h.2.2, List.append_assoc,
    findByProp_append, findByProp_append]
  show (Js.findByProp "id" id publicRooms >>= _) = _
  cases Js.findByProp "id" id publicRooms with
  | error e => rfl
  | ok found =>
      cases found with
      | some r => rfl
      | none =>
          show (Js.findByProp "id" id privateRooms >>= _) = (Js.findByProp "id" id privateRooms >>= _)
          cases Js.findByProp "id" id privateRooms with
          | error e => rfl
          | ok found =>
              cases found with
              | some r => rfl
              | none => rfl

/-- A room is refused or pushed. -/
theorem addRoom_of_comparable (h : p.rooms type = .ok (some (.arr rs))) {key : String}
    (hrs : ∀ r ∈ rs, Comparable r key) (text : String) (room : Json) :
    p.addRoom type key text room = .error (.text "Room already exists") ∨
      p.addRoom type key text room = .ok (p.pushRoom type room) := by
  unfold addRoom
  rw [roomList_of_rooms h]
  show (Js.findByProp key text rs >>= _) = _ ∨ (Js.findByProp key text rs >>= _) = _
  rw [findByProp_of_comparable hrs]
  cases rs.find? fun r => Js.propEq (some r) key text = .ok true with
  | none => exact Or.inr rfl
  | some r => exact Or.inl rfl

end UntypedProfile

/-! ## A profile that the operations can work on -/

section

variable {encryptMessageSymmetric : String → Option Json → Except Exn String} {p : UntypedProfile}
  {s : ProfileStore} {op : ProfileOp}

theorem comparable_str {fields : List (String × Json)} {key text : String}
    (h : fields.lookup key = some (.str text)) : Comparable (.obj fields) key := by
  refine ⟨by simp, fun v hv => Or.inr ?_⟩
  obtain rfl := Option.some.inj (h.symm.trans (Except.ok.inj hv))
  rfl

/-- A room joins the others. What an id found before it still finds, or the new room. -/
theorem RoomsUsable.add {l₁ l₂ directRooms directRooms' : List Json}
    (h : RoomsUsable encryptMessageSymmetric (l₁ ++ l₂) directRooms) {room : Json}
    (hid : Comparable room "id") (hkey : Comparable room "symmetric_key")
    (hstring : ∃ k, Js.prop (some room) "symmetric_key" = .ok (some (.str k)))
    (hdirect : ∀ r ∈ directRooms', r ∈ directRooms ∨ Comparable r "recipient_public_key") :
    RoomsUsable encryptMessageSymmetric (l₁ ++ room :: l₂) directRooms' := by
  have hmem : ∀ r ∈ l₁ ++ room :: l₂, r = room ∨ r ∈ l₁ ++ l₂ := by
    intro r hr
    simpa [or_left_comm] using hr
  refine ⟨fun r hr => ?_, fun r hr => ?_, fun r hr => ?_, fun id message r hr => ?_⟩
  · exact (hmem r hr).elim (fun heq => heq ▸ hid) (h.id r)
  · exact (hmem r hr).elim (fun heq => heq ▸ hkey) (h.symmetric_key r)
  · exact (hdirect r hr).elim (h.recipient_public_key r) fun h => h
  · by_cases hroom : r = room
    · intro key hprop _
      obtain ⟨k, hk⟩ := hstring
      subst hroom
      exact ⟨k, Except.ok.inj (hprop.symm.trans hk)⟩
    · -- any other room was found by its id before
      refine h.keys id message r ?_
      rw [List.find?_append, List.find?_cons] at hr
      rw [List.find?_append]
      cases hl : l₁.find? fun r => Js.propEq (some r) "id" id = .ok true with
      | some r' =>
          rw [hl] at hr
          exact hr
      | none =>
          rw [hl, Option.none_or] at hr
          rw [Option.none_or]
          split at hr
          · exact absurd (Option.some.inj hr).symm hroom
          · exact hr

theorem Operable.addPublicRoom (h : Operable encryptMessageSymmetric p) (room : IRoom) :
    p.addPublicRoom room = .error (.text "Room already exists") ∨
      ∃ p', p.addPublicRoom room = .ok p' ∧ Operable encryptMessageSymmetric p' := by
  obtain ⟨⟨publicRooms, privateRooms, directRooms, hlists, husable⟩, hcontacts⟩ := h
  refine (UntypedProfile.addRoom_of_comparable hlists.1 (fun r hr => husable.symmetric_key r ?_) _ _).imp
    id fun hok => ⟨_, hok, ⟨publicRooms ++ [room.toJson], privateRooms, directRooms, ?_, ?_⟩, ?_⟩
  · simp [hr]
  · simp [UntypedProfile.Lists, UntypedProfile.rooms_pushRoom hlists.1, hlists.2]
  · rw [List.append_assoc] at husable
    rw [List.append_assoc, List.append_assoc]
    exact husable.add (comparable_str rfl) (comparable_str rfl) ⟨_, rfl⟩ fun r hr => Or.inl hr
  · rwa [UntypedProfile.contacts_pushRoom]

theorem Operable.addPrivateRoom (h : Operable encryptMessageSymmetric p) (room : IRoom) :
    p.addPrivateRoom room = .error (.text "Room already exists") ∨
      ∃ p', p.addPrivateRoom room = .ok p' ∧ Operable encryptMessageSymmetric p' := by
  obtain ⟨⟨publicRooms, privateRooms, directRooms, hlists, husable⟩, hcontacts⟩ := h
  refine (UntypedProfile.addRoom_of_comparable hlists.2.1
    (fun r hr => husable.symmetric_key r ?_) _ _).imp
    id fun hok => ⟨_, hok, ⟨publicRooms, privateRooms ++ [room.toJson], directRooms, ?_, ?_⟩, ?_⟩
  · simp [hr]
  · simp [UntypedProfile.Lists, UntypedProfile.rooms_pushRoom hlists.2.1, hlists.1, hlists.2.2]
  · rw [← List.append_assoc, List.append_assoc _ [room.toJson]]
    exact husable.add (comparable_str rfl) (comparable_str rfl) ⟨_, rfl⟩ fun r hr => Or.inl hr
  · rwa [UntypedProfile.contacts_pushRoom]

theorem Operable.addDirectRoom (h : Operable encryptMessageSymmetric p) (room : IDirectRoom String) :
    p.addDirectRoom room = .error (.text "Room already exists") ∨
      ∃ p', p.addDirectRoom room = .ok p' ∧ Operable encryptMessageSymmetric p' := by
  obtain ⟨⟨publicRooms, privateRooms, directRooms, hlists, husable⟩, hcontacts⟩ := h
  refine (UntypedProfile.addRoom_of_comparable hlists.2.2 husable.recipient_public_key _ _).imp
    id fun hok => ⟨_, hok, ⟨publicRooms, privateRooms, directRooms ++ [room.toJson], ?_, ?_⟩, ?_⟩
  · simp [UntypedProfile.Lists, UntypedProfile.rooms_pushRoom hlists.2.2, hlists.1, hlists.2.1]
  · rw [← List.append_assoc]
    rw [← List.append_nil (_ ++ directRooms)] at husable
    refine husable.add (comparable_str rfl) (comparable_str rfl) ⟨_, rfl⟩ fun r hr => ?_
    rcases List.mem_append.mp hr with hr | hr
    · exact Or.inl hr
    · rw [List.mem_singleton.mp hr]
      exact Or.inr (comparable_str rfl)
  · rwa [UntypedProfile.contacts_pushRoom]

/-! ### Contacts -/

theorem keys_lookup {fields : List (String × Json)} {c : String} (h : c ∈ fields.map Prod.fst) :
    ∃ v, fields.lookup c = some v := by
  obtain ⟨f, hf, rfl⟩ := List.mem_map.mp h
  exact Option.isSome_iff_exists.mp (List.lookup_isSome_iff.mpr ⟨f, hf, BEq.rfl⟩)

/-- A public key is found or not. -/
theorem checkPublicKeys_of_propEq {contacts : ContactsValue} {publicKey : String} {cs : List String}
    (h : ∀ c ∈ cs, ∃ b, Js.propEq (contacts.get c) "publicKey" publicKey = .ok b)
    (ignoredKeys : List String) :
    UntypedProfile.checkPublicKeys contacts publicKey ignoredKeys cs
        = .error (.text "A contact with the same public key already exists") ∨
      UntypedProfile.checkPublicKeys contacts publicKey ignoredKeys cs = .ok () := by
  induction cs with
  | nil => exact Or.inr rfl
  | cons c cs ih =>
      have ih := ih fun c' hc' => h c' (List.mem_cons_of_mem c hc')
      obtain ⟨b, hb⟩ := h c List.mem_cons_self
      rw [UntypedProfile.checkPublicKeys]
      split
      · exact ih
      · rw [hb]
        cases b with
        | true => exact Or.inl rfl
        | false => exact ih

/-- The contacts that the operations can work on. -/
def ContactsUsable (p : UntypedProfile) (fields : List (String × Json)) : Prop :=
  p.contacts = .object fields ∧ ∀ name c, fields.lookup name = some c → Comparable c "publicKey"

theorem ContactsUsable.checkPublicKeys {fields : List (String × Json)} (h : ContactsUsable p fields)
    (publicKey : String) (ignoredKeys : List String) :
    p.validateContactWithSamePublicKeyDoesntExist publicKey ignoredKeys
        = .error (.text "A contact with the same public key already exists") ∨
      p.validateContactWithSamePublicKeyDoesntExist publicKey ignoredKeys = .ok () := by
  unfold UntypedProfile.validateContactWithSamePublicKeyDoesntExist
  rw [h.1]
  refine checkPublicKeys_of_propEq (fun c hc => ?_) ignoredKeys
  obtain ⟨v, hv⟩ := keys_lookup hc
  rw [ContactsValue.get, hv]
  exact (h.2 c v hv).propEq publicKey

theorem ContactsUsable.set {fields : List (String × Json)} (h : ContactsUsable p fields)
    (name publicKey : String) : ContactsUsable
      { p with contacts := .object (Js.setProperty fields name
        (ITrustedContact.toJson ⟨name, publicKey⟩)) }
      (Js.setProperty fields name (ITrustedContact.toJson ⟨name, publicKey⟩)) := by
  refine ⟨rfl, fun name' c hc => ?_⟩
  rcases Js.lookup_setProperty hc with rfl | hc
  · exact comparable_str rfl
  · exact h.2 name' c hc

theorem ContactsUsable.delete {fields : List (String × Json)} (h : ContactsUsable p fields)
    (name : String) : ContactsUsable { p with contacts := .object (Js.deleteProperty fields name) }
      (Js.deleteProperty fields name) :=
  ⟨rfl, fun name' c hc => h.2 name' c (Js.lookup_deleteProperty hc)⟩

/-- The rooms do not depend on the contacts. -/
theorem Operable.contacts_changed (h : Operable encryptMessageSymmetric p) {contacts : ContactsValue}
    {fields : List (String × Json)} (hcontacts : ContactsUsable { p with contacts } fields) :
    Operable encryptMessageSymmetric { p with contacts } :=
  ⟨h.rooms, fields, hcontacts⟩

theorem validateContactExists_cases {fields : List (String × Json)} (h : p.contacts = .object fields)
    (name : String) :
    p.validateContactExists name = .error (.text "The specified contact doesn't exist") ∨
      p.validateContactExists name = .ok () := by
  unfold UntypedProfile.validateContactExists
  rw [h]
  by_cases hname : name ∈ fields.map Prod.fst
  · exact Or.inr (if_pos hname)
  · exact Or.inl (if_neg hname)

theorem validateContactWithSameName_cases {fields : List (String × Json)}
    (h : p.contacts = .object fields) (name : String) :
    p.validateContactWithSameNameDoesntExist name
        = .error (.text "A contact with the same name already exists") ∨
      p.validateContactWithSameNameDoesntExist name = .ok () := by
  unfold UntypedProfile.validateContactWithSameNameDoesntExist
  rw [h]
  by_cases hname : name ∈ fields.map Prod.fst
  · exact Or.inl (if_pos hname)
  · exact Or.inr (if_neg hname)

/-! ### One operation -/

/-- The operation ends well, and leaves a profile that operations can work on. -/
def StepsWell (encryptMessageSymmetric : String → Option Json → Except Exn String) (op : ProfileOp)
    (s : ProfileStore) : Prop :=
  op.EndsWell encryptMessageSymmetric s ∧ ∃ p, (op.run encryptMessageSymmetric s).2.inMemoryProfile
    = some p ∧ Operable encryptMessageSymmetric p

theorem ProfileOp.error_of_reads {α : Type} {x : Except Exn α} {e : Exn}
    (h : (ProfileOp.reads x s).1 = .error e) : x = .error e := by
  cases x with
  | error e' => exact congrArg Except.error (Except.error.inj h)
  | ok a => cases h

theorem stepsWell_reads (h : Operable encryptMessageSymmetric p) (hs : s.inMemoryProfile = some p)
    {α : Type} {x : Except Exn α} (hrun : op.run encryptMessageSymmetric s = ProfileOp.reads x s)
    (hx : ∀ e, x = .error e → ∃ text ∈ op.documented, e = .text text) :
    StepsWell encryptMessageSymmetric op s := by
  unfold StepsWell ProfileOp.EndsWell
  rw [hrun]
  exact ⟨fun e he => Or.inl (hx e (ProfileOp.error_of_reads he)), p, hs, h⟩

theorem stepsWell_writes (h : Operable encryptMessageSymmetric p) (hs : s.inMemoryProfile = some p)
    {x : Except Exn UntypedProfile} (hrun : op.run encryptMessageSymmetric s = ProfileOp.writes x s)
    (hx : (∃ text ∈ op.documented, x = .error (.text text)) ∨
      ∃ p', x = .ok p' ∧ Operable encryptMessageSymmetric p') :
    StepsWell encryptMessageSymmetric op s := by
  unfold StepsWell ProfileOp.EndsWell
  rw [hrun]
  rcases hx with ⟨text, htext, rfl⟩ | ⟨p', rfl, hp'⟩
  · exact ⟨fun e he => Or.inl ⟨text, htext, (Except.error.inj he).symm⟩, p, hs, h⟩
  · exact ⟨fun e he => (by cases he), p', rfl, hp'⟩

theorem findById_of_usable {publicRooms privateRooms directRooms : List Json}
    (hlists : p.Lists publicRooms privateRooms directRooms)
    (husable : RoomsUsable encryptMessageSymmetric (publicRooms ++ privateRooms ++ directRooms)
      directRooms) (id : String) :
    p.findById id = .ok ((publicRooms ++ privateRooms ++ directRooms).find? fun r =>
      Js.propEq (some r) "id" id = .ok true) := by
  rw [UntypedProfile.findById_eq hlists, findByProp_of_comparable husable.id]

theorem roomIds_of_comparable {type : String} {rs : List Json}
    (h : p.rooms type = .ok (some (.arr rs))) (hrs : ∀ r ∈ rs, Comparable r "id") :
    ∃ ids, p.roomIds type = .ok ids := by
  rw [UntypedProfile.roomIds, UntypedProfile.roomList_of_rooms h]
  show ∃ ids, rs.mapM (fun r => Js.prop (some r) "id") = .ok ids
  clear h
  induction rs with
  | nil => exact ⟨[], rfl⟩
  | cons r rs ih =>
      obtain ⟨v, hv⟩ := prop_of_ne_null (hrs r List.mem_cons_self).1 "id"
      obtain ⟨ids, hids⟩ := ih fun r' hr' => hrs r' (List.mem_cons_of_mem r hr')
      rw [List.mapM_cons, hv, hids]
      exact ⟨_, rfl⟩

theorem Operable.getRoomIds (h : Operable encryptMessageSymmetric p) :
    ∃ ids, p.getRoomIds = .ok ids := by
  obtain ⟨⟨publicRooms, privateRooms, directRooms, hlists, husable⟩, -⟩ := h
  obtain ⟨publicIds, hpublic⟩ := roomIds_of_comparable hlists.1 fun r hr =>
    husable.id r (by simp [hr])
  obtain ⟨privateIds, hprivate⟩ := roomIds_of_comparable hlists.2.1 fun r hr =>
    husable.id r (by simp [hr])
  obtain ⟨directIds, hdirect⟩ := roomIds_of_comparable hlists.2.2 fun r hr =>
    husable.id r (by simp [hr])
  unfold UntypedProfile.getRoomIds
  rw [hpublic, hprivate, hdirect]
  exact ⟨_, rfl⟩

theorem Operable.getAllRoomsAvailableForKeyExchange (h : Operable encryptMessageSymmetric p) :
    ∃ rooms, p.getAllRoomsAvailableForKeyExchange = .ok rooms := by
  obtain ⟨⟨publicRooms, privateRooms, directRooms, hlists, husable⟩, -⟩ := h
  obtain ⟨rooms, hrooms⟩ := filterByProp_of_comparable
    (fun r hr => husable.symmetric_key r (List.mem_append_right _ hr)) ""
  unfold UntypedProfile.getAllRoomsAvailableForKeyExchange
  rw [UntypedProfile.roomList_of_rooms hlists.2.2, hlists.2.2]
  show ∃ rooms, (if decide (Js.Number.finite directRooms.length = .finite 0) = true then pure []
    else Js.filterByProp "symmetric_key" "" directRooms) = .ok rooms
  rw [hrooms]
  cases decide (Js.Number.finite directRooms.length = .finite 0) with
  | true => exact ⟨[], rfl⟩
  | false => exact ⟨rooms, rfl⟩

theorem Operable.insertTrustedContact (h : Operable encryptMessageSymmetric p)
    (name publicKey : String) :
    (∃ text ∈ (ProfileOp.insertTrustedContact name publicKey).documented,
      p.insertTrustedContact name publicKey = .error (.text text)) ∨
    ∃ p', p.insertTrustedContact name publicKey = .ok p' ∧ Operable encryptMessageSymmetric p' := by
  obtain ⟨fields, hcontacts⟩ : ∃ fields, ContactsUsable p fields := h.contacts
  unfold UntypedProfile.insertTrustedContact
  rcases validateContactWithSameName_cases hcontacts.1 name with hname | hname
  · rw [hname]
    exact Or.inl ⟨_, by simp [ProfileOp.documented], rfl⟩
  rcases hcontacts.checkPublicKeys publicKey [] with hkey | hkey
  · rw [hname, hkey]
    exact Or.inl ⟨_, by simp [ProfileOp.documented], rfl⟩
  · rw [hname, hkey, hcontacts.1]
    exact Or.inr ⟨_, rfl, h.contacts_changed (hcontacts.set name publicKey)⟩

theorem Operable.deleteTrustedContact (h : Operable encryptMessageSymmetric p) (name : String) :
    (∃ text ∈ (ProfileOp.deleteTrustedContact name).documented,
      p.deleteTrustedContact name = .error (.text text)) ∨
    ∃ p', p.deleteTrustedContact name = .ok p' ∧ Operable encryptMessageSymmetric p' := by
  obtain ⟨fields, hcontacts⟩ : ∃ fields, ContactsUsable p fields := h.contacts
  unfold UntypedProfile.deleteTrustedContact
  rcases validateContactExists_cases hcontacts.1 name with hname | hname
  · rw [hname]
    exact Or.inl ⟨_, by simp [ProfileOp.documented], rfl⟩
  · rw [hname, hcontacts.1]
    exact Or.inr ⟨_, rfl, h.contacts_changed (hcontacts.delete name)⟩

theorem Operable.updateTrustedContact (h : Operable encryptMessageSymmetric p)
    (old_name new_name publicKey : String) :
    (∃ text ∈ (ProfileOp.updateTrustedContact old_name new_name publicKey).documented,
      p.updateTrustedContact old_name new_name publicKey = (.error (.text text), p)) ∨
    ∃ p', p.updateTrustedContact old_name new_name publicKey = (.ok (), p') ∧
      Operable encryptMessageSymmetric p' := by
  obtain ⟨fields, hcontacts⟩ : ∃ fields, ContactsUsable p fields := h.contacts
  unfold UntypedProfile.updateTrustedContact
  rcases validateContactExists_cases hcontacts.1 old_name with hold | hold
  · rw [hold]
    exact Or.inl ⟨_, by simp [ProfileOp.documented], rfl⟩
  rcases validateContactWithSameName_cases hcontacts.1 new_name with hnew | hnew
  · rw [hold, hnew]
    exact Or.inl ⟨_, by simp [ProfileOp.documented], rfl⟩
  rcases hcontacts.checkPublicKeys publicKey [old_name] with hkey | hkey
  · rw [hold, hnew, hkey]
    exact Or.inl ⟨_, by simp [ProfileOp.documented], rfl⟩
  · rw [hold, hnew, hkey, hcontacts.1]
    have hdeleted := hcontacts.delete old_name
    exact Or.inr ⟨_, rfl, h.contacts_changed (hdeleted.set new_name publicKey)⟩

theorem Operable.getRoomById (h : Operable encryptMessageSymmetric p) (id : String) :
    (∃ room, p.getRoomById id = .ok room) ∨
      p.getRoomById id = .error (.text "Room doesn't exist") := by
  obtain ⟨⟨publicRooms, privateRooms, directRooms, hlists, husable⟩, -⟩ := h
  unfold UntypedProfile.getRoomById
  rw [findById_of_usable hlists husable]
  cases (publicRooms ++ privateRooms ++ directRooms).find? fun r =>
      Js.propEq (some r) "id" id = .ok true with
  | none => exact Or.inr rfl
  | some room => exact Or.inl ⟨_, rfl⟩

/-- The cryptography has the last word on the key of a room that is found. -/
theorem Operable.encryptMessageForRoom (h : Operable encryptMessageSymmetric p)
    (hs : s.inMemoryProfile = some p) (id message : String) {e : Exn}
    (he : p.encryptMessageForRoom encryptMessageSymmetric id message = .error e) :
    e = .text "Room doesn't exist" ∨
      ProfileOp.KeyRefused encryptMessageSymmetric s id message e := by
  obtain ⟨⟨publicRooms, privateRooms, directRooms, hlists, husable⟩, -⟩ := h
  have hfind := findById_of_usable hlists husable id
  unfold UntypedProfile.encryptMessageForRoom at he
  rw [hfind] at he
  cases hroom : (publicRooms ++ privateRooms ++ directRooms).find? fun r =>
      Js.propEq (some r) "id" id = .ok true with
  | none =>
      rw [hroom] at he
      exact Or.inl (Except.error.inj he).symm
  | some room =>
      rw [hroom] at he hfind
      obtain ⟨key, hkey⟩ := prop_of_ne_null (husable.id room (List.mem_of_find?_eq_some hroom)).1
        "symmetric_key"
      have hrefused : encryptMessageSymmetric message key = .error e := by
        have he : (Js.prop (some room) "symmetric_key" >>= encryptMessageSymmetric message)
          = .error e := he
        rw [hkey] at he
        exact he
      refine Or.inr ⟨p, room, key, hs, hfind, hkey, hrefused, ?_⟩
      rintro rfl
      exact husable.keys id message room hroom key hkey hrefused

theorem Operable.getUserRoomsForChatType (h : Operable encryptMessageSymmetric p) (type : String) :
    ∃ rooms, p.getUserRoomsForChatType type = .ok rooms := by
  obtain ⟨⟨publicRooms, privateRooms, directRooms, hlists, -⟩, -⟩ := h
  unfold UntypedProfile.getUserRoomsForChatType
  rw [hlists.1, hlists.2.1, hlists.2.2]
  split
  · exact ⟨_, rfl⟩
  split
  · exact ⟨_, rfl⟩
  split
  · exact ⟨_, rfl⟩
  · exact ⟨_, rfl⟩

theorem Operable.getTrustedContact (h : Operable encryptMessageSymmetric p) (name : String) :
    (∃ contact, p.getTrustedContact name = .ok contact) ∨
      p.getTrustedContact name = .error (.text "Contact doesn't exist") := by
  obtain ⟨fields, hcontacts, -⟩ := h.contacts
  unfold UntypedProfile.getTrustedContact
  rw [hcontacts]
  by_cases hname : name ∈ fields.map Prod.fst
  · exact Or.inl ⟨_, if_pos hname⟩
  · exact Or.inr (if_neg hname)

/-- Fields other than the rooms are assigned. -/
theorem Operable.setProperty (h : Operable encryptMessageSymmetric p) {key : String}
    (hkey : key ≠ "rooms") (v : Json) :
    Operable encryptMessageSymmetric { p with fields := Js.setProperty p.fields key v } := by
  have hlookup : (Js.setProperty p.fields key v).lookup "rooms" = p.fields.lookup "rooms" :=
    Js.lookup_setProperty_of_ne hkey.symm
  have hrooms : ∀ type,
      ({ p with fields := Js.setProperty p.fields key v } : UntypedProfile).rooms type
        = p.rooms type := by
    intro type
    show (Js.prop ((Js.setProperty p.fields key v).lookup "rooms") type).bind _ = _
    rw [hlookup]
    rfl
  obtain ⟨⟨publicRooms, privateRooms, directRooms, hlists, husable⟩, hcontacts⟩ := h
  refine ⟨⟨publicRooms, privateRooms, directRooms, ?_, husable⟩, hcontacts⟩
  unfold UntypedProfile.Lists
  rw [hrooms, hrooms, hrooms]
  exact hlists

theorem Operable.step (h : Operable encryptMessageSymmetric p) (hs : s.inMemoryProfile = some p)
    (op : ProfileOp) : StepsWell encryptMessageSymmetric op s := by
  have htext : ∀ {α : Type} {x : Except Exn α} {text : String},
      (∃ a, x = .ok a) ∨ x = .error (.text text) → ∀ e, x = .error e → e = .text text := by
    rintro α x text (⟨a, rfl⟩ | rfl) e he
    · cases he
    · exact (Except.error.inj he).symm
  cases op with
  | addPublicRoom room =>
      refine stepsWell_writes h hs (by rw [ProfileOp.run, hs]) ((h.addPublicRoom room).imp_left ?_)
      exact fun herror => ⟨_, List.mem_singleton_self _, herror⟩
  | addPrivateRoom room =>
      refine stepsWell_writes h hs (by rw [ProfileOp.run, hs]) ((h.addPrivateRoom room).imp_left ?_)
      exact fun herror => ⟨_, List.mem_singleton_self _, herror⟩
  | addDirectRoom room =>
      refine stepsWell_writes h hs (by rw [ProfileOp.run, hs]) ((h.addDirectRoom room).imp_left ?_)
      exact fun herror => ⟨_, List.mem_singleton_self _, herror⟩
  | getRooms =>
      refine stepsWell_reads h hs (by rw [ProfileOp.run, hs]) fun e he => ?_
      cases he
  | getRoomIds =>
      obtain ⟨ids, hids⟩ := h.getRoomIds
      refine stepsWell_reads h hs (by rw [ProfileOp.run, hs]) fun e he => ?_
      cases hids.symm.trans he
  | getRoomById id =>
      refine stepsWell_reads h hs (by rw [ProfileOp.run, hs]) fun e he => ?_
      exact ⟨_, by simp [ProfileOp.documented], htext (h.getRoomById id) e he⟩
  | encryptMessageForRoom id message =>
      -- the one operation whose errors are not its own: those of the cryptography
      have hrun : (ProfileOp.encryptMessageForRoom id message).run encryptMessageSymmetric s
          = ProfileOp.reads (p.encryptMessageForRoom encryptMessageSymmetric id message) s := by
        rw [ProfileOp.run, hs]
      unfold StepsWell ProfileOp.EndsWell
      rw [hrun]
      refine ⟨fun e he => ?_, p, hs, h⟩
      rcases h.encryptMessageForRoom hs id message (ProfileOp.error_of_reads he) with heq | hrefused
      · exact Or.inl ⟨_, by simp [ProfileOp.documented], heq⟩
      · exact Or.inr ⟨id, message, rfl, hrefused⟩
  | getUserRoomsForChatType type =>
      obtain ⟨rooms, hrooms⟩ := h.getUserRoomsForChatType type
      refine stepsWell_reads h hs (by rw [ProfileOp.run, hs]) fun e he => ?_
      cases hrooms.symm.trans he
  | getAllRoomsAvailableForKeyExchange =>
      obtain ⟨rooms, hrooms⟩ := h.getAllRoomsAvailableForKeyExchange
      refine stepsWell_reads h hs (by rw [ProfileOp.run, hs]) fun e he => ?_
      cases hrooms.symm.trans he
  | getTrustedContacts =>
      refine stepsWell_reads (x := .ok ()) h hs (by rw [ProfileOp.run, hs]; rfl) fun e he => ?_
      cases he
  | getTrustedContact name =>
      refine stepsWell_reads h hs (by rw [ProfileOp.run, hs]) fun e he => ?_
      exact ⟨_, by simp [ProfileOp.documented], htext (h.getTrustedContact name) e he⟩
  | insertTrustedContact name publicKey =>
      exact stepsWell_writes h hs (by rw [ProfileOp.run, hs]) (h.insertTrustedContact name publicKey)
  | updateTrustedContact old_name new_name publicKey =>
      -- the old contact is deleted before the new one is set
      unfold StepsWell ProfileOp.EndsWell
      rw [ProfileOp.run, hs]
      rcases h.updateTrustedContact old_name new_name publicKey with
        ⟨text, htext, herror⟩ | ⟨p', hok, hp'⟩
      · simp only [herror]
        exact ⟨fun e he => Or.inl ⟨text, htext, (Except.error.inj he).symm⟩, p, rfl, h⟩
      · simp only [hok]
        exact ⟨fun e he => (by cases he), p', rfl, hp'⟩
  | deleteTrustedContact name =>
      exact stepsWell_writes h hs (by rw [ProfileOp.run, hs]) (h.deleteTrustedContact name)
  | exportProfile =>
      refine stepsWell_reads h hs (by rw [ProfileOp.run, hs]) fun e he => ?_
      cases he
  | refresh root leaves =>
      unfold StepsWell ProfileOp.EndsWell
      simp only [ProfileOp.run, hs, ProfileStore.refresh]
      refine ⟨fun e he => (by cases he), _, rfl, ?_⟩
      exact (h.setProperty (by decide) _).setProperty (by decide) _

/-- After any run the operations can work on the profile. -/
theorem Operable.runAll (h : Operable encryptMessageSymmetric p) (hs : s.inMemoryProfile = some p)
    (ops : List ProfileOp) :
    ∃ p', (ProfileOp.runAll encryptMessageSymmetric ops s).inMemoryProfile = some p' ∧
      Operable encryptMessageSymmetric p' := by
  induction ops generalizing s p with
  | nil => exact ⟨p, hs, h⟩
  | cons op ops ih =>
      obtain ⟨-, p', hs', h'⟩ := h.step hs op
      exact ih h' hs'

end

end ZkChat
