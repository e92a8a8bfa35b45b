import ZkChat.Client.StoredProfile
import ZkChat.Lib.Prog

set_option autoImplicit false

/-! # A profile of any shape

`recover_profile` makes the profile out of a text. What `validateFormat` looks at are the names of
the fields and of the fields of `rooms`, so the fields themselves can be anything, and nothing that
`ProfileManager` does later checks them again. Here its methods are on such a profile. A property of
`null` and a method that is not there are `TypeError`s, and so is an object that has to be a
primitive and has a `toString` that is no function. -/

namespace ZkChat

/-! ## Values -/

namespace Js

/-- `Object.keys(v)`. -/
def objectKeys : Option Json → Except Exn (List String)
  | none | some .null => .error .typeError
  | some (.bool _) | some (.num _) => .ok []
  | some (.str s) => .ok ((List.range (codeUnits s).length).map toString)
  | some (.arr xs) => .ok ((List.range xs.length).map toString)
  | some (.obj fields) => .ok (fields.map Prod.fst)

/-- `v == text`. -/
def looseEq (v : Option Json) (text : String) : Except Exn Bool :=
  match v with
  | none | some .null => .ok false
  -- the text becomes a number
  | some (.bool b) => .ok (stringToNumber text = .finite (if b then 1 else 0))
  | some (.num x) => .ok (x ≠ .nan ∧ stringToNumber text = x)
  | some (.str s) => .ok (s = text)
  | some v => (toText (some v)).map fun t => t = text

/-- `v == 0`. -/
def looseEqZero (v : Option Json) : Except Exn Bool :=
  match v with
  | none | some .null => .ok false
  | some (.bool b) => .ok (!b)
  | some (.num x) => .ok (x = .finite 0)
  | some v => (toText (some v)).map fun t => stringToNumber t = .finite 0

/-- `v.length`. -/
def lengthOf : Option Json → Except Exn (Option Json)
  | some (.str s) => .ok (some (.num (.finite (codeUnits s).length)))
  | some (.arr xs) => .ok (some (.num (.finite xs.length)))
  | v => prop v "length"

/-- What a method of arrays is called on. -/
def arrayOf : Option Json → Except Exn (List Json)
  | some (.arr xs) => .ok xs
  | _ => .error .typeError

/-- `r[key] == text`. -/
def propEq (r : Option Json) (key text : String) : Except Exn Bool := do
  let v ← prop r key
  looseEq v text

/-- The first of the values with `r[key] == text`; `none` is the index `-1`. -/
def findByProp (key text : String) : List Json → Except Exn (Option Json)
  | [] => .ok none
  | r :: rs => do
      if ← propEq (some r) key text then pure (some r) else findByProp key text rs

/-- All of them. -/
def filterByProp (key text : String) : List Json → Except Exn (List Json)
  | [] => .ok []
  | r :: rs => do
      let isSame ← propEq (some r) key text
      let rs ← filterByProp key text rs
      pure (if isSame then r :: rs else rs)

mutual

/-- `JSON.parse(JSON.stringify(data))`: a number that is not finite is written as `null`. -/
def deepClone : Json → Json
  | .null => .null
  | .bool b => .bool b
  | .num (.finite q) => .num (.finite q)
  | .num _ => .null
  | .str s => .str s
  | .arr xs => .arr (cloneElements xs)
  | .obj fields => .obj (cloneFields fields)

def cloneElements : List Json → List Json
  | [] => []
  | x :: xs => deepClone x :: cloneElements xs

def cloneFields : List (String × Json) → List (String × Json)
  | [] => []
  | (key, v) :: fields => (key, deepClone v) :: cloneFields fields

end

mutual

/-- What is read back is its own copy. -/
theorem Readable.deepClone_eq : ∀ {v : Json}, Readable v → deepClone v = v
  | .null, _ => rfl
  | .bool _, _ => rfl
  | .num _, h => by
      obtain ⟨n, -, rfl⟩ := h
      rfl
  | .str _, _ => rfl
  | .arr _, h => congrArg Json.arr (ReadableElements.cloneElements_eq h)
  | .obj _, h => congrArg Json.obj (ReadableFields.cloneFields_eq h.2)

theorem ReadableElements.cloneElements_eq : ∀ {xs : List Json},
    ReadableElements xs → cloneElements xs = xs
  | [], _ => rfl
  | _ :: _, h => congrArg₂ List.cons h.1.deepClone_eq h.2.cloneElements_eq

theorem ReadableFields.cloneFields_eq : ∀ {fields : List (String × Json)},
    ReadableFields fields → cloneFields fields = fields
  | [], _ => rfl
  | (key, _) :: _, h =>
      congrArg₂ List.cons (congrArg (Prod.mk key) h.1.deepClone_eq) h.2.cloneFields_eq

end

/-- Changes what is found under the keys. -/
def modifyAt (f : Json → Json) : List String → Json → Json
  | [], v => f v
  | key :: keys, .obj fields =>
      .obj (fields.map fun g => if g.1 = key then (g.1, modifyAt f keys g.2) else g)
  | _ :: _, v => v

/-- The array with an element more. -/
def push (x : Json) : Json → Json
  | .arr xs => .arr (xs ++ [x])
  | v => v

end Js

/-! ## The contacts -/

/-- The contacts in memory. An object and an array are their own properties; of those of an array,
    only the elements are written by `JSON.stringify`. -/
inductive ContactsValue where
  | primitive (v : Option Json)
  | object (fields : List (String × Json))
  | array (length : ℕ) (fields : List (String × Json))

namespace ContactsValue

def ofJson : Option Json → ContactsValue
  | some (.obj fields) => object fields
  | some (.arr xs) => array xs.length (xs.zipIdx.map fun x => (toString x.2, x.1))
  | v => primitive v

/-- What `JSON.stringify` sees. A place of an array that has no property is `null` there. -/
def toJson : ContactsValue → Option Json
  | primitive v => v
  | object fields => some (.obj fields)
  | array length fields =>
      some (.arr ((List.range length).map fun i => (fields.lookup (toString i)).getD .null))

/-- `Object.keys(contacts)`. -/
def keys : ContactsValue → Except Exn (List String)
  | primitive v => Js.objectKeys v
  | object fields | array _ fields => .ok (fields.map Prod.fst)

/-- `contacts[name]` for a name among the keys. -/
def get (name : String) : ContactsValue → Option Json
  | primitive (some (.str s)) =>
      (name.toNat?.bind ((Js.codeUnits s)[·]?)).map fun u => .str (String.ofList (Js.decodeUtf16 [u]))
  | primitive _ => none
  | object fields | array _ fields => fields.lookup name

/-- `contacts[name] = v`. Code of a module is strict: a primitive takes no property. -/
def set (name : String) (v : Json) : ContactsValue → Except Exn ContactsValue
  | primitive _ => .error .typeError
  | object fields => .ok (object (Js.setProperty fields name v))
  | array length fields =>
      if name = "length" then .error .rangeError
      else
        let length := ((Js.arrayIndex name).map fun i => max length (i + 1)).getD length
        .ok (array length (Js.setProperty fields name v))

/-- `delete contacts[name]` for a name among the keys. -/
def delete (name : String) : ContactsValue → Except Exn ContactsValue
  | primitive _ => .error .typeError
  | object fields => .ok (object (Js.deleteProperty fields name))
  | array length fields => .ok (array length (Js.deleteProperty fields name))

end ContactsValue

/-! ## The profile -/

/-- An object in the place of the profile. Its contacts are kept apart. -/
structure UntypedProfile where
  fields : List (String × Json)
  contacts : ContactsValue

namespace UntypedProfile

def ofFields (fields : List (String × Json)) : UntypedProfile :=
  ⟨fields, .ofJson (fields.lookup "contacts")⟩

def toJson (p : UntypedProfile) : Json :=
  Js.modifyAt (fun v => p.contacts.toJson.getD v) ["contacts"] (.obj p.fields)

/-- `JSON.stringify(profile)`. -/
def stringify (p : UntypedProfile) : String := Js.jsonStringify p.toJson

/-- `profile.rooms[type]`. -/
def rooms (p : UntypedProfile) (type : String) : Except Exn (Option Json) :=
  Js.path (some (.obj p.fields)) ["rooms", type]

/-- The list that `findIndex`, `map`, `push` or `filter` is called on. -/
def roomList (p : UntypedProfile) (type : String) : Except Exn (List Json) := do
  let rooms ← p.rooms type
  Js.arrayOf rooms

/-- `profile.rooms[type].push(room)`. -/
def pushRoom (p : UntypedProfile) (type : String) (room : Json) : UntypedProfile :=
  match Js.modifyAt (Js.push room) ["rooms", type] (.obj p.fields) with
  | .obj fields => { p with fields }
  | _ => p

/-! ### Rooms -/

/-- The room joins its list unless the list has one with the same text under the key. -/
def addRoom (type key text : String) (room : Json) (p : UntypedProfile) :
    Except Exn UntypedProfile := do
  let rooms ← p.roomList type
  match ← Js.findByProp key text rooms with
  | some _ => throw (.text "Room already exists")
  | none => pure (p.pushRoom type room)

def addPublicRoom (room : IRoom) : UntypedProfile → Except Exn UntypedProfile :=
  addRoom "public" "symmetric_key" room.symmetric_key room.toJson

def addPrivateRoom (room : IRoom) : UntypedProfile → Except Exn UntypedProfile :=
  addRoom "private" "symmetric_key" room.symmetric_key room.toJson

def addDirectRoom (room : IDirectRoom String) : UntypedProfile → Except Exn UntypedProfile :=
  addRoom "direct" "recipient_public_key" room.recipient_public_key room.toJson

def getRooms (p : UntypedProfile) : Except Exn (Option Json) := do
  let rooms ← Js.path (some (.obj p.fields)) ["rooms"]
  pure (rooms.map Js.deepClone)

/-- `rooms[type].map(r => r.id)`. -/
def roomIds (p : UntypedProfile) (type : String) : Except Exn (List (Option Json)) := do
  let rooms ← p.roomList type
  rooms.mapM fun r => Js.prop (some r) "id"

/-- The ids of all rooms. -/
def getRoomIds (p : UntypedProfile) : Except Exn (List (Option Json)) := do
  let publicIds ← p.roomIds "public"
  let privateIds ← p.roomIds "private"
  let directIds ← p.roomIds "direct"
  pure (publicIds ++ privateIds ++ directIds)

/-- The first room with the id. A list is looked at when those before it have no such room. -/
def findById (id : String) (p : UntypedProfile) : Except Exn (Option Json) := do
  match ← Js.findByProp "id" id (← p.roomList "public") with
  | some room => pure (some room)
  | none =>
      match ← Js.findByProp "id" id (← p.roomList "private") with
      | some room => pure (some room)
      | none => Js.findByProp "id" id (← p.roomList "direct")

def getRoomById (id : String) (p : UntypedProfile) : Except Exn Json := do
  match ← p.findById id with
  | some room => pure (Js.deepClone room)
  | none => throw (.text "Room doesn't exist")

/-- `encryptMessageSymmetric` is that of the cryptography, which gets the key as it is. -/
def encryptMessageForRoom (encryptMessageSymmetric : String → Option Json → Except Exn String)
    (id message : String) (p : UntypedProfile) : Except Exn String := do
  match ← p.findById id with
  | some room => encryptMessageSymmetric message (← Js.prop (some room) "symmetric_key")
  | none => throw (.text "Room doesn't exist")

def getUserRoomsForChatType (type : String) (p : UntypedProfile) : Except Exn (Option Json) :=
  if type = "PUBLIC" then (p.rooms "public").map (·.map Js.deepClone)
  else if type = "PRIVATE" then (p.rooms "private").map (·.map Js.deepClone)
  else if type = "DIRECT" then (p.rooms "direct").map (·.map Js.deepClone)
  else .ok (some (.arr []))

def getAllRoomsAvailableForKeyExchange (p : UntypedProfile) : Except Exn (List Json) := do
  let length ← Js.lengthOf (← p.rooms "direct")
  if ← Js.looseEqZero length then pure []
  else Js.filterByProp "symmetric_key" "" (← p.roomList "direct")

/-! ### Contacts -/

def validateContactExists (p : UntypedProfile) (name : String) : Except Exn Unit := do
  if name ∈ (← p.contacts.keys) then pure ()
  else throw (.text "The specified contact doesn't exist")

def validateContactWithSameNameDoesntExist (p : UntypedProfile) (name : String) :
    Except Exn Unit := do
  if name ∈ (← p.contacts.keys) then throw (.text "A contact with the same name already exists")
  else pure ()

/-- The loop over the keys. -/
def checkPublicKeys (contacts : ContactsValue) (publicKey : String) (ignoredKeys : List String) :
    List String → Except Exn Unit
  | [] => .ok ()
  | c :: cs =>
      if c ∈ ignoredKeys then checkPublicKeys contacts publicKey ignoredKeys cs
      else do
        if ← Js.propEq (contacts.get c) "publicKey" publicKey then
          throw (.text "A contact with the same public key already exists")
        else checkPublicKeys contacts publicKey ignoredKeys cs

def validateContactWithSamePublicKeyDoesntExist (p : UntypedProfile) (publicKey : String)
    (ignoredKeys : List String) : Except Exn Unit := do
  checkPublicKeys p.contacts publicKey ignoredKeys (← p.contacts.keys)

def getTrustedContact (name : String) (p : UntypedProfile) : Except Exn (Option Json) := do
  if name ∈ (← p.contacts.keys) then pure (p.contacts.get name)
  else throw (.text "Contact doesn't exist")

def insertTrustedContact (name publicKey : String) (p : UntypedProfile) :
    Except Exn UntypedProfile := do
  p.validateContactWithSameNameDoesntExist name
  p.validateContactWithSamePublicKeyDoesntExist publicKey []
  let contacts ← p.contacts.set name (ITrustedContact.toJson ⟨name, publicKey⟩)
  pure { p with contacts }

/-- The contact is deleted before the new one is put in its place. -/
def updateTrustedContact (old_name new_name publicKey : String) (p : UntypedProfile) :
    Except Exn Unit × UntypedProfile :=
  let checked : Except Exn ContactsValue := do
    p.validateContactExists old_name
    p.validateContactWithSameNameDoesntExist new_name
    p.validateContactWithSamePublicKeyDoesntExist publicKey [old_name]
    p.contacts.delete old_name
  match checked with
  | .error e => (.error e, p)
  | .ok contacts =>
      match contacts.set new_name (ITrustedContact.toJson ⟨new_name, publicKey⟩) with
      -- the deletion stays in memory, and is not persisted
      | .error e => (.error e, { p with contacts })
      | .ok contacts => (.ok (), { p with contacts })

def deleteTrustedContact (name : String) (p : UntypedProfile) : Except Exn UntypedProfile := do
  p.validateContactExists name
  let contacts ← p.contacts.delete name
  pure { p with contacts }

/-- The copy is made and cleared; what is written is the profile. -/
def exportProfile (p : UntypedProfile) : Except Exn String :=
  let _clonedProfile := Js.modifyAt (fun _ => .arr []) ["leaves"]
    (Js.modifyAt (fun _ => .str "") ["root_hash"] (Js.deepClone p.toJson))
  .ok p.stringify

end UntypedProfile

/-! ## Recovery -/

namespace ProfileManager.Untyped

def interfaceKeys : List String :=
  ["rln_identity_commitment", "root_hash", "leaves", "user_private_key", "user_public_key", "rooms",
    "contacts", "username", "user_id"]

def roomInterfaceKeys : List String := ["public", "private", "direct"]

/-- Validates if the provided object is a valid profile data. -/
def validateFormat (parsed_profile_data : Json) : Except Exn Bool := do
  let keys ← Js.objectKeys (some parsed_profile_data)
  if keys.length ≠ 9 then pure false
  else if ¬ interfaceKeys.all (· ∈ keys) then pure false
  else do
    let rooms ← Js.prop (some parsed_profile_data) "rooms"
    let roomKeys ← Js.objectKeys rooms
    if roomKeys.length ≠ 3 then pure false
    else pure (roomInterfaceKeys.all (· ∈ roomKeys))

end ProfileManager.Untyped

/-- A `ProfileManager` and its storage. -/
structure ProfileStore where
  inMemoryProfile : Option UntypedProfile := none
  storage : Option String := none

namespace ProfileStore

/-- The profile is assigned and persisted. -/
def save (p : UntypedProfile) : ProfileStore := ⟨some p, some p.stringify⟩

/-- `recoverProfile`; only objects are recovered (`validateFormat_obj`). -/
def recoverProfile (profile : Json) (s : ProfileStore) : ProfileStore :=
  match Js.deepClone profile with
  | .obj fields => save (.ofFields fields)
  | _ => s

/-- `updateRootHash` and `updateLeaves`, with what the server answers. -/
def refresh (root : Option String) (leaves : List String) (s : ProfileStore) : ProfileStore :=
  match s.inMemoryProfile with
  | none => s
  | some p =>
      let fields := Js.setProperty p.fields "root_hash" ((root.map Json.str).getD .null)
      save { p with fields := Js.setProperty fields "leaves" (.arr (leaves.map .str)) }

/-- `recover_profile`, from the parsed text on. -/
def recover_profile (parsed_profile_data : Json) (root : Option String) (leaves : List String)
    (s : ProfileStore) : Except Exn Unit × ProfileStore :=
  match ProfileManager.Untyped.validateFormat parsed_profile_data with
  | .error e => (.error e, s)
  | .ok false => (.error (.text "Profile data invalid"), s)
  | .ok true => (.ok (), (s.recoverProfile parsed_profile_data).refresh root leaves)

/-- `export_profile`. -/
def export_profile (s : ProfileStore) : Except Exn String :=
  match s.inMemoryProfile with
  | none => .error (.text "No profile exists locally")
  | some p => p.exportProfile

end ProfileStore

/-! ## Comparing -/

/-- The value is not `null`, and its property is a value that can be compared with a text. -/
def Comparable (r : Json) (key : String) : Prop :=
  r ≠ .null ∧ ∀ v, Js.prop (some r) key = .ok (some v) → v = .null ∨ (Js.jsonText v).isSome

section

variable {r : Json} {rs : List Json} {key text : String}

theorem looseEq_of_text {v : Json} (h : v = .null ∨ (Js.jsonText v).isSome) (text : String) :
    ∃ b, Js.looseEq (some v) text = .ok b := by
  have hobject : v ≠ .null → ∃ b, (Js.toText (some v)).map (fun t => decide (t = text)) = .ok b := by
    intro hnull
    obtain ⟨t, ht⟩ := Option.isSome_iff_exists.mp (h.resolve_left hnull)
    rw [Js.toText, Option.bind_some, ht]
    exact ⟨_, rfl⟩
  cases v with
  | null => exact ⟨_, rfl⟩
  | bool b => exact ⟨_, rfl⟩
  | num x => exact ⟨_, rfl⟩
  | str s => exact ⟨_, rfl⟩
  | arr xs => exact hobject (by simp)
  | obj fields => exact hobject (by simp)

theorem looseEq_of_not_text {v : Json} (h : ¬ (v = .null ∨ (Js.jsonText v).isSome)) (text : String) :
    Js.looseEq (some v) text = .error .typeError := by
  obtain ⟨hnull, htext⟩ := not_or.mp h
  have hnone : Js.jsonText v = none := by simpa using htext
  have hobject : (Js.toText (some v)).map (fun t => decide (t = text)) = .error .typeError := by
    rw [Js.toText, Option.bind_some, hnone]
    rfl
  cases v with
  | null => exact absurd rfl hnull
  | bool b => cases hnone
  | num x => cases hnone
  | str s => cases hnone
  | arr xs => exact hobject
  | obj fields => exact hobject

theorem prop_of_ne_null (h : r ≠ .null) (key : String) : ∃ v, Js.prop (some r) key = .ok v := by
  cases r with
  | null => exact absurd rfl h
  | bool b => exact ⟨_, rfl⟩
  | num x => exact ⟨_, rfl⟩
  | str s => exact ⟨_, rfl⟩
  | arr xs => exact ⟨_, rfl⟩
  | obj fields => exact ⟨_, rfl⟩

theorem prop_error {v : Option Json} {key : String} {e : Exn} (h : Js.prop v key = .error e) :
    e = .typeError := by
  match v with
  | none => exact (Except.error.inj h).symm
  | some .null => exact (Except.error.inj h).symm
  | some (.bool _) => cases h
  | some (.num _) => cases h
  | some (.str _) => cases h
  | some (.arr _) => cases h
  | some (.obj _) => cases h

theorem Comparable.propEq (h : Comparable r key) (text : String) :
    ∃ b, Js.propEq (some r) key text = .ok b := by
  obtain ⟨v, hv⟩ := prop_of_ne_null h.1 key
  unfold Js.propEq
  rw [hv]
  cases v with
  | none => exact ⟨false, rfl⟩
  | some v => exact looseEq_of_text (h.2 v hv) text

theorem propEq_of_not_comparable (h : ¬ Comparable r key) (text : String) :
    Js.propEq (some r) key text = .error .typeError := by
  unfold Comparable at h
  rw [not_and_or] at h
  unfold Js.propEq
  rcases h with h | h
  · rw [not_not.mp h]
    rfl
  · push Not at h
    obtain ⟨v, hv, hnull, htext⟩ := h
    rw [hv]
    exact looseEq_of_not_text (not_or.mpr ⟨hnull, htext⟩) text

theorem propEq_error {r : Option Json} {key text : String} {e : Exn}
    (h : Js.propEq r key text = .error e) : e = .typeError := by
  cases r with
  | none => exact (Except.error.inj h).symm
  | some r =>
      by_cases hr : Comparable r key
      · obtain ⟨b, hb⟩ := hr.propEq text
        rw [hb] at h
        cases h
      · rw [propEq_of_not_comparable hr] at h
        exact (Except.error.inj h).symm

/-- The search stops at an element that cannot be compared or is the one, and passes over others. -/
theorem findByProp_cons (key text : String) (r : Json) (rs : List Json) :
    (¬ Comparable r key ∧ Js.findByProp key text (r :: rs) = .error .typeError) ∨
    (Js.propEq (some r) key text = .ok true ∧ Js.findByProp key text (r :: rs) = .ok (some r)) ∨
    (Comparable r key ∧ Js.propEq (some r) key text = .ok false ∧
      Js.findByProp key text (r :: rs) = Js.findByProp key text rs) := by
  rw [Js.findByProp]
  by_cases hr : Comparable r key
  · obtain ⟨b, hb⟩ := hr.propEq text
    rw [hb]
    cases b with
    | true => exact Or.inr (Or.inl ⟨rfl, rfl⟩)
    | false => exact Or.inr (Or.inr ⟨hr, rfl, rfl⟩)
  · rw [propEq_of_not_comparable hr]
    exact Or.inl ⟨hr, rfl⟩

/-- Comparing finds the first. -/
theorem findByProp_of_comparable (h : ∀ r ∈ rs, Comparable r key) (text : String) :
    Js.findByProp key text rs
      = .ok (rs.find? fun r => Js.propEq (some r) key text = .ok true) := by
  induction rs with
  | nil => rfl
  | cons r rs ih =>
      rw [List.forall_mem_cons] at h
      rcases findByProp_cons key text r rs with ⟨hr, -⟩ | ⟨hb, heq⟩ | ⟨-, hb, heq⟩
      · exact absurd h.1 hr
      · rw [heq, List.find?_cons, hb]
        rfl
      · rw [heq, List.find?_cons, hb]
        exact ih h.2

/-- Where none is found, every one has been compared. -/
theorem comparable_of_findByProp (h : Js.findByProp key text rs = .ok none) :
    ∀ r ∈ rs, Comparable r key := by
  induction rs with
  | nil => exact fun r hr => absurd hr List.not_mem_nil
  | cons r rs ih =>
      rcases findByProp_cons key text r rs with ⟨-, heq⟩ | ⟨-, heq⟩ | ⟨hr, -, heq⟩
      · cases heq.symm.trans h
      · cases heq.symm.trans h
      · exact List.forall_mem_cons.mpr ⟨hr, ih (heq.symm.trans h)⟩

theorem findByProp_error {e : Exn} (h : Js.findByProp key text rs = .error e) : e = .typeError := by
  induction rs with
  | nil => cases h
  | cons r rs ih =>
      rcases findByProp_cons key text r rs with ⟨-, heq⟩ | ⟨-, heq⟩ | ⟨-, -, heq⟩
      · exact (Except.error.inj (heq.symm.trans h)).symm
      · cases heq.symm.trans h
      · exact ih (heq.symm.trans h)

theorem propEq_of_findByProp (h : Js.findByProp key text rs = .ok (some r)) :
    r ∈ rs ∧ Js.propEq (some r) key text = .ok true := by
  induction rs with
  | nil => cases h
  | cons r' rs ih =>
      rcases findByProp_cons key text r' rs with ⟨-, heq⟩ | ⟨hb, heq⟩ | ⟨-, -, heq⟩
      · cases heq.symm.trans h
      · obtain rfl := Option.some.inj (Except.ok.inj (heq.symm.trans h))
        exact ⟨List.mem_cons_self, hb⟩
      · obtain ⟨hmem, hr⟩ := ih (heq.symm.trans h)
        exact ⟨List.mem_cons_of_mem r' hmem, hr⟩

theorem filterByProp_of_comparable (h : ∀ r ∈ rs, Comparable r key) (text : String) :
    ∃ rs', Js.filterByProp key text rs = .ok rs' := by
  induction rs with
  | nil => exact ⟨[], rfl⟩
  | cons r rs ih =>
      obtain ⟨b, hb⟩ := (h r List.mem_cons_self).propEq text
      obtain ⟨rs', hrs'⟩ := ih fun r' hr' => h r' (List.mem_cons_of_mem r hr')
      rw [Js.filterByProp, hb, hrs']
      exact ⟨_, rfl⟩

theorem filterByProp_error {e : Exn} (h : Js.filterByProp key text rs = .error e) :
    e = .typeError := by
  induction rs with
  | nil => cases h
  | cons r rs ih =>
      rw [Js.filterByProp] at h
      cases hprop : Js.propEq (some r) key text with
      | error e' =>
          rw [hprop] at h
          exact (Except.error.inj h).symm.trans (propEq_error hprop)
      | ok b =>
          rw [hprop] at h
          cases hrest : Js.filterByProp key text rs with
          | error e' =>
              rw [hrest] at h
              obtain rfl := Except.error.inj h
              exact ih hrest
          | ok rs' =>
              rw [hrest] at h
              cases h

theorem comparable_of_filterByProp {rs' : List Json} (h : Js.filterByProp key text rs = .ok rs') :
    ∀ r ∈ rs, Comparable r key := by
  induction rs generalizing rs' with
  | nil => exact fun r hr => absurd hr List.not_mem_nil
  | cons r rs ih =>
      rw [Js.filterByProp] at h
      by_cases hr : Comparable r key
      · obtain ⟨b, -, h⟩ := Except.bind_ok_iff.mp h
        obtain ⟨rs', hrs', -⟩ := Except.bind_ok_iff.mp h
        exact List.forall_mem_cons.mpr ⟨hr, ih hrs'⟩
      · rw [propEq_of_not_comparable hr] at h
        cases h

end

end ZkChat
