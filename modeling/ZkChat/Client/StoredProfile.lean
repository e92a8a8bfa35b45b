import ZkChat.Client.Profile

set_option autoImplicit false

/-! # The profile and its text

The profile as the client keeps it, the text of it that goes to the storage, and the methods of
`ProfileManager` that change it. `JSON.parse` reads the text back (`parse_stringify`). -/

namespace ZkChat

/-! ## Objects -/

namespace Js

variable {α : Type}

/-- The array index that a property name is, if any. -/
def arrayIndex (key : String) : Option ℕ :=
  key.toNat?.filter fun n => toString n = key ∧ n < 2 ^ 32 - 1

/-- A new property of an object. Its array indexes come first, in order. -/
def insertProperty (fields : List (String × α)) (key : String) (v : α) : List (String × α) :=
  match arrayIndex key with
  | none => fields ++ [(key, v)]
  | some n =>
      let before (f : String × α) : Bool := (arrayIndex f.1).any (· < n)
      fields.takeWhile before ++ (key, v) :: fields.dropWhile before

/-- `object[key] = v` for the own properties of an object literal. An assignment to `__proto__`
    gives it another prototype. -/
def setProperty (fields : List (String × α)) (key : String) (v : α) : List (String × α) :=
  if key ∈ fields.map Prod.fst then fields.map fun f => if f.1 = key then (key, v) else f
  else if key = "__proto__" then fields
  else insertProperty fields key v

/-- `{ ...object, [key]: v }`, which defines a property whatever its name. -/
def defineProperty (fields : List (String × α)) (key : String) (v : α) : List (String × α) :=
  if key ∈ fields.map Prod.fst then fields.map fun f => if f.1 = key then (key, v) else f
  else insertProperty fields key v

/-- `delete object[key]`. -/
def deleteProperty (fields : List (String × α)) (key : String) : List (String × α) :=
  fields.filter fun f => f.1 ≠ key

variable {fields : List (String × α)} {key k : String} {v : α}

theorem setProperty_of_ne (hkey : key ≠ "__proto__") :
    setProperty fields key v = defineProperty fields key v := by
  rw [setProperty, defineProperty, if_neg hkey]

/-- An assignment to `__proto__` finds such a property or changes nothing. -/
theorem setProperty_cases (fields : List (String × α)) (key : String) (v : α) :
    setProperty fields key v = defineProperty fields key v ∨
      key ∉ fields.map Prod.fst ∧ setProperty fields key v = fields := by
  by_cases hmem : key ∈ fields.map Prod.fst
  · exact Or.inl (by rw [setProperty, defineProperty, if_pos hmem, if_pos hmem])
  · by_cases hkey : key = "__proto__"
    · exact Or.inr ⟨hmem, by rw [setProperty, if_neg hmem, if_pos hkey]⟩
    · exact Or.inl (setProperty_of_ne hkey)

theorem map_fst_insertProperty_perm (fields : List (String × α)) (key : String) (v : α) :
    ((insertProperty fields key v).map Prod.fst).Perm (key :: fields.map Prod.fst) := by
  unfold insertProperty
  split
  · rw [List.map_append]
    exact List.perm_append_singleton ..
  · next n _ =>
      have hsplit := List.takeWhile_append_dropWhile
        (p := fun f : String × α => (arrayIndex f.1).any (· < n)) (l := fields)
      rw [List.map_append, List.map_cons]
      refine List.perm_middle.trans (.cons _ ?_)
      rw [← List.map_append, hsplit]

theorem nodup_defineProperty (h : (fields.map Prod.fst).Nodup) (key : String) (v : α) :
    ((defineProperty fields key v).map Prod.fst).Nodup := by
  unfold defineProperty
  split
  · have hkeys : (fields.map fun f => if f.1 = key then (key, v) else f).map Prod.fst
        = fields.map Prod.fst := by
      rw [List.map_map]
      refine List.map_congr_left fun f _ => ?_
      by_cases hf : f.1 = key <;> simp [hf]
    rwa [hkeys]
  · next hnew =>
      rw [(map_fst_insertProperty_perm fields key v).nodup_iff]
      exact List.nodup_cons.mpr ⟨hnew, h⟩

theorem nodup_setProperty (h : (fields.map Prod.fst).Nodup) (key : String) (v : α) :
    ((setProperty fields key v).map Prod.fst).Nodup := by
  rcases setProperty_cases fields key v with heq | ⟨-, heq⟩
  · rw [heq]
    exact nodup_defineProperty h key v
  · rwa [heq]

theorem nodup_deleteProperty (h : (fields.map Prod.fst).Nodup) (key : String) :
    ((deleteProperty fields key).map Prod.fst).Nodup :=
  h.sublist (List.filter_sublist.map _)

theorem lookup_map_modify (fields : List (String × α)) (key k : String) (f : α → α) :
    (fields.map fun g => if g.1 = key then (g.1, f g.2) else g).lookup k
      = if k = key then (fields.lookup k).map f else fields.lookup k := by
  induction fields with
  | nil => simp
  | cons g fields ih =>
      obtain ⟨k', v⟩ := g
      by_cases hk : k = k'
      · subst hk
        by_cases hkey : k = key <;> simp [hkey]
      · have hne : (k == k') = false := beq_eq_false_iff_ne.mpr hk
        by_cases hkey : k' = key
        · rw [List.map_cons, if_pos hkey, List.lookup_cons, hne, List.lookup_cons, hne]
          exact ih
        · rw [List.map_cons, if_neg hkey, List.lookup_cons, hne, List.lookup_cons, hne]
          exact ih

theorem lookup_eq_none_iff_not_mem : fields.lookup k = none ↔ k ∉ fields.map Prod.fst := by
  rw [List.lookup_eq_none_iff, List.mem_map, not_exists]
  refine forall_congr' fun f => ?_
  rw [not_and, bne_iff_ne, ne_comm]

theorem lookup_insertProperty (hnew : key ∉ fields.map Prod.fst) (k : String) (v : α) :
    (insertProperty fields key v).lookup k = if k = key then some v else fields.lookup k := by
  have hnone : fields.lookup key = none := lookup_eq_none_iff_not_mem.mpr hnew
  have hmiddle : ∀ l l' : List (String × α), l.lookup key = none →
      (l ++ (key, v) :: l').lookup k = if k = key then some v else (l ++ l').lookup k := by
    intro l l' hl
    rw [List.lookup_append, List.lookup_append, List.lookup_cons]
    by_cases hk : k = key
    · subst hk
      simp [hl]
    · rw [beq_eq_false_iff_ne.mpr hk, if_neg hk]
  unfold insertProperty
  split
  · rw [hmiddle _ _ hnone, List.append_nil]
  · rw [hmiddle _ _ ((List.takeWhile_sublist _).lookup_eq_none hnone),
      List.takeWhile_append_dropWhile]

/-- The property is there with its new value, and the others are as before. -/
theorem lookup_defineProperty (fields : List (String × α)) (key k : String) (v : α) :
    (defineProperty fields key v).lookup k = if k = key then some v else fields.lookup k := by
  unfold defineProperty
  split
  · next hmem =>
      have hmap : (fields.map fun f => if f.1 = key then (key, v) else f)
          = fields.map fun f => if f.1 = key then (f.1, (fun _ => v) f.2) else f := by
        refine List.map_congr_left fun f _ => ?_
        by_cases hf : f.1 = key <;> simp [hf]
      rw [hmap, lookup_map_modify fields key k fun _ => v]
      by_cases hk : k = key
      · obtain ⟨w, hw⟩ := Option.ne_none_iff_exists'.mp
          (fun h => lookup_eq_none_iff_not_mem.mp h (hk ▸ hmem) : fields.lookup k ≠ none)
        rw [if_pos hk, if_pos hk, hw, Option.map_some]
      · rw [if_neg hk, if_neg hk]
  · next hnew => exact lookup_insertProperty hnew k v

theorem lookup_setProperty_self (hkey : key ≠ "__proto__") :
    (setProperty fields key v).lookup key = some v := by
  rw [setProperty_of_ne hkey, lookup_defineProperty, if_pos rfl]

theorem lookup_setProperty_of_ne (hk : k ≠ key) :
    (setProperty fields key v).lookup k = fields.lookup k := by
  rcases setProperty_cases fields key v with heq | ⟨-, heq⟩
  · rw [heq, lookup_defineProperty, if_neg hk]
  · rw [heq]

theorem lookup_setProperty {w : α} (h : (setProperty fields key v).lookup k = some w) :
    w = v ∨ fields.lookup k = some w := by
  rcases setProperty_cases fields key v with heq | ⟨-, heq⟩
  · rw [heq, lookup_defineProperty] at h
    split at h
    · exact Or.inl (Option.some.inj h).symm
    · exact Or.inr h
  · rw [heq] at h
    exact Or.inr h

theorem lookup_deleteProperty_eq (fields : List (String × α)) (key k : String) :
    (deleteProperty fields key).lookup k = if k = key then none else fields.lookup k := by
  unfold deleteProperty
  induction fields with
  | nil => simp
  | cons f fields ih =>
      obtain ⟨k', w⟩ := f
      by_cases hkey : k' = key
      · rw [List.filter_cons_of_neg (by simpa using hkey), ih, List.lookup_cons]
        by_cases hk : k = key
        · rw [if_pos hk, if_pos hk]
        · rw [if_neg hk, if_neg hk, beq_eq_false_iff_ne.mpr (hkey ▸ hk)]
      · rw [List.filter_cons_of_pos (by simpa using hkey), List.lookup_cons, List.lookup_cons, ih]
        by_cases hk : k = k'
        · subst hk
          simp [hkey]
        · rw [beq_eq_false_iff_ne.mpr hk]

theorem lookup_deleteProperty {w : α} (h : (deleteProperty fields key).lookup k = some w) :
    fields.lookup k = some w := by
  rw [lookup_deleteProperty_eq] at h
  exact (Option.ite_none_left_eq_some.mp h).2

end Js

/-- A natural number that a double holds exactly. -/
structure Js.ExactNat where
  val : ℕ
  le : val ≤ 2 ^ 53

/-! ## The profile -/

structure ITrustedContact where
  name : String
  publicKey : String
deriving DecidableEq

/-- The contacts under their names, as an engine lists the properties of the object. -/
structure ITrustedContactsMap where
  entries : List (String × ITrustedContact)
  nodup : (entries.map Prod.fst).Nodup

namespace ITrustedContactsMap

def empty : ITrustedContactsMap := ⟨[], List.nodup_nil⟩

/-- `Object.keys(contacts)`. -/
def keys (contacts : ITrustedContactsMap) : List String := contacts.entries.map Prod.fst

def set (contacts : ITrustedContactsMap) (name : String) (contact : ITrustedContact) :
    ITrustedContactsMap :=
  ⟨Js.setProperty contacts.entries name contact, Js.nodup_setProperty contacts.nodup ..⟩

def delete (contacts : ITrustedContactsMap) (name : String) : ITrustedContactsMap :=
  ⟨Js.deleteProperty contacts.entries name, Js.nodup_deleteProperty contacts.nodup name⟩

end ITrustedContactsMap

/-- A profile. The server's root is `null` when the server did not answer; the last three fields
    are missing in profiles that were stored before they existed. -/
structure IProfile where
  rln_identity_commitment : String
  root_hash : Option String
  leaves : List String
  user_private_key : String
  user_public_key : String
  rooms : IRooms
  contacts : Option ITrustedContactsMap
  username : Option String
  user_id : Option Js.ExactNat

/-! ## Its text -/

def IRoom.toJson (r : IRoom) : Json :=
  .obj [("id", .str r.id), ("name", .str r.name), ("type", .str r.type),
    ("symmetric_key", .str r.symmetric_key)]

def IDirectRoom.toJson (r : IDirectRoom String) : Json :=
  .obj [("id", .str r.id), ("name", .str r.name), ("type", .str r.type),
    ("symmetric_key", .str r.symmetric_key),
    ("recipient_public_key", .str r.recipient_public_key),
    ("dh_public_key", .str r.dh_public_key), ("dh_private_key", .str r.dh_private_key)]

def IRooms.toJson (rooms : IRooms) : Json :=
  .obj [("public", .arr (rooms.publicRooms.map IRoom.toJson)),
    ("private", .arr (rooms.privateRooms.map IRoom.toJson)),
    ("direct", .arr (rooms.directRooms.map IDirectRoom.toJson))]

def ITrustedContact.toJson (c : ITrustedContact) : Json :=
  .obj [("name", .str c.name), ("publicKey", .str c.publicKey)]

def ITrustedContactsMap.toJson (contacts : ITrustedContactsMap) : Json :=
  .obj (contacts.entries.map fun f => (f.1, f.2.toJson))

/-- A field that is left out when it is `undefined`. -/
def Js.optionalField (key : String) (v : Option Json) : List (String × Json) :=
  v.toList.map fun v => (key, v)

/-- The fields that may be missing. -/
def IProfile.laterFields (p : IProfile) : List (String × Json) :=
  Js.optionalField "contacts" (p.contacts.map (·.toJson))
    ++ Js.optionalField "username" (p.username.map .str)
    ++ Js.optionalField "user_id" (p.user_id.map fun n => .num (.finite n.val))

def IProfile.toJson (p : IProfile) : Json :=
  .obj (("rln_identity_commitment", .str p.rln_identity_commitment)
    :: ("root_hash", (p.root_hash.map Json.str).getD .null)
    :: ("leaves", .arr (p.leaves.map .str))
    :: ("user_private_key", .str p.user_private_key)
    :: ("user_public_key", .str p.user_public_key)
    :: ("rooms", p.rooms.toJson)
    :: p.laterFields)

/-- `JSON.stringify(profile)`. -/
def IProfile.stringify (p : IProfile) : String := Js.jsonStringify p.toJson

/-! ## Reading it -/

def Js.asString : Json → Option String
  | .str s => some s
  | _ => none

def Js.asArray {α : Type} (element : Json → Option α) : Json → Option (List α)
  | .arr xs => xs.mapM element
  | _ => none

def Js.asObject : Json → Option (List (String × Json))
  | .obj fields => some fields
  | _ => none

/-- A field that has to be there. -/
def Js.field {α : Type} (fields : List (String × Json)) (key : String) (value : Json → Option α) :
    Option α :=
  (fields.lookup key).bind value

/-- A field that may be missing. -/
def Js.maybeField {α : Type} (fields : List (String × Json)) (key : String)
    (value : Json → Option α) : Option (Option α) :=
  match fields.lookup key with
  | none => some none
  | some v => (value v).map some

def IRoom.ofJson (v : Json) : Option IRoom := do
  let fields ← Js.asObject v
  some { id := ← Js.field fields "id" Js.asString
         name := ← Js.field fields "name" Js.asString
         type := ← Js.field fields "type" Js.asString
         symmetric_key := ← Js.field fields "symmetric_key" Js.asString }

def IDirectRoom.ofJson (v : Json) : Option (IDirectRoom String) := do
  let fields ← Js.asObject v
  some { id := ← Js.field fields "id" Js.asString
         name := ← Js.field fields "name" Js.asString
         type := ← Js.field fields "type" Js.asString
         symmetric_key := ← Js.field fields "symmetric_key" Js.asString
         recipient_public_key := ← Js.field fields "recipient_public_key" Js.asString
         dh_public_key := ← Js.field fields "dh_public_key" Js.asString
         dh_private_key := ← Js.field fields "dh_private_key" Js.asString }

def IRooms.ofJson (v : Json) : Option IRooms := do
  let fields ← Js.asObject v
  some { publicRooms := ← Js.field fields "public" (Js.asArray IRoom.ofJson)
         privateRooms := ← Js.field fields "private" (Js.asArray IRoom.ofJson)
         directRooms := ← Js.field fields "direct" (Js.asArray IDirectRoom.ofJson) }

def ITrustedContact.ofJson (v : Json) : Option ITrustedContact := do
  let fields ← Js.asObject v
  some { name := ← Js.field fields "name" Js.asString
         publicKey := ← Js.field fields "publicKey" Js.asString }

def ITrustedContactsMap.ofJson (v : Json) : Option ITrustedContactsMap := do
  let fields ← Js.asObject v
  let entries ← fields.mapM fun f => (ITrustedContact.ofJson f.2).map fun c => (f.1, c)
  if h : (entries.map Prod.fst).Nodup then some ⟨entries, h⟩ else none

/-- A string or `null`. -/
def IProfile.rootOfJson : Json → Option (Option String)
  | .null => some none
  | v => (Js.asString v).map some

def Js.asExactNat : Json → Option Js.ExactNat
  | .num (.finite q) =>
      if h : q.den = 1 ∧ 0 ≤ q.num ∧ q.num.toNat ≤ 2 ^ 53 then some ⟨q.num.toNat, h.2.2⟩ else none
  | _ => none

def IProfile.ofJson (v : Json) : Option IProfile := do
  let fields ← Js.asObject v
  some { rln_identity_commitment := ← Js.field fields "rln_identity_commitment" Js.asString
         root_hash := ← Js.field fields "root_hash" rootOfJson
         leaves := ← Js.field fields "leaves" (Js.asArray Js.asString)
         user_private_key := ← Js.field fields "user_private_key" Js.asString
         user_public_key := ← Js.field fields "user_public_key" Js.asString
         rooms := ← Js.field fields "rooms" IRooms.ofJson
         contacts := ← Js.maybeField fields "contacts" ITrustedContactsMap.ofJson
         username := ← Js.maybeField fields "username" Js.asString
         user_id := ← Js.maybeField fields "user_id" Js.asExactNat }

/-- `JSON.parse(text)`; `none` when it throws, or when the value is no profile. -/
def IProfile.parse (text : String) : Option IProfile := (Js.jsonParse text).bind IProfile.ofJson

/-! ## The round trip -/

theorem Js.mapM_map_of_inverse {α β : Type} {encode : α → β} {decode : β → Option α}
    (h : ∀ a, decode (encode a) = some a) (xs : List α) :
    (xs.map encode).mapM decode = some xs := by
  induction xs with
  | nil => rfl
  | cons x xs ih => rw [List.map_cons, List.mapM_cons, h, ih]; rfl

theorem Js.field_cons {α : Type} (key key' : String) (v : Json) (fields : List (String × Json))
    (value : Json → Option α) : field ((key, v) :: fields) key' value
      = if key' = key then value v else field fields key' value := by
  rw [field, List.lookup_cons]
  by_cases h : key' = key
  · rw [if_pos h, beq_iff_eq.mpr h]
    rfl
  · rw [if_neg h, beq_eq_false_iff_ne.mpr h]
    rfl

@[simp] theorem IRoom.ofJson_toJson (r : IRoom) : IRoom.ofJson r.toJson = some r := rfl

@[simp] theorem IDirectRoom.ofJson_toJson (r : IDirectRoom String) :
    IDirectRoom.ofJson r.toJson = some r := rfl

@[simp] theorem IRooms.ofJson_toJson (rooms : IRooms) :
    IRooms.ofJson rooms.toJson = some rooms := by
  have hpublic := Js.mapM_map_of_inverse IRoom.ofJson_toJson rooms.publicRooms
  have hprivate := Js.mapM_map_of_inverse IRoom.ofJson_toJson rooms.privateRooms
  have hdirect := Js.mapM_map_of_inverse IDirectRoom.ofJson_toJson rooms.directRooms
  simp [IRooms.ofJson, IRooms.toJson, Js.asObject, Js.field_cons, Js.asArray, hpublic, hprivate,
    hdirect]

@[simp] theorem ITrustedContactsMap.ofJson_toJson (contacts : ITrustedContactsMap) :
    ITrustedContactsMap.ofJson contacts.toJson = some contacts := by
  have hentries : (contacts.entries.map fun f => (f.1, f.2.toJson)).mapM
      (fun f => (ITrustedContact.ofJson f.2).map fun c => (f.1, c)) = some contacts.entries := by
    refine Js.mapM_map_of_inverse (fun f => ?_) contacts.entries
    rfl
  simp [ITrustedContactsMap.ofJson, ITrustedContactsMap.toJson, Js.asObject, hentries,
    contacts.nodup]

@[simp] theorem IProfile.rootOfJson_root (root_hash : Option String) :
    rootOfJson ((root_hash.map Json.str).getD .null) = some root_hash := by
  cases root_hash <;> rfl

@[simp] theorem Js.asExactNat_val (n : ExactNat) : asExactNat (.num (.finite n.val)) = some n := by
  have h : (n.val : ℚ).den = 1 ∧ 0 ≤ (n.val : ℚ).num ∧ (n.val : ℚ).num.toNat ≤ 2 ^ 53 := by
    rw [Rat.den_natCast, Rat.num_natCast, Int.toNat_natCast]
    exact ⟨rfl, Int.natCast_nonneg _, n.le⟩
  rw [asExactNat, dif_pos h]
  simp

theorem Js.maybeField_cons {α : Type} (key key' : String) (v : Json)
    (fields : List (String × Json)) (value : Json → Option α) :
    maybeField ((key, v) :: fields) key' value
      = if key' = key then (value v).map some else maybeField fields key' value := by
  rw [maybeField, List.lookup_cons]
  by_cases h : key' = key
  · rw [if_pos h, beq_iff_eq.mpr h]
  · rw [if_neg h, beq_eq_false_iff_ne.mpr h]
    rfl

theorem IProfile.maybeField_laterFields (p : IProfile) :
    Js.maybeField p.laterFields "contacts" ITrustedContactsMap.ofJson = some p.contacts ∧
    Js.maybeField p.laterFields "username" Js.asString = some p.username ∧
    Js.maybeField p.laterFields "user_id" Js.asExactNat = some p.user_id := by
  obtain ⟨_, _, _, _, _, _, contacts, username, user_id⟩ := p
  have hnil : ∀ {α : Type} (key : String) (value : Json → Option α),
      Js.maybeField [] key value = some none := fun _ _ => rfl
  cases contacts <;> cases username <;> cases user_id <;>
    simp [laterFields, Js.optionalField, Js.maybeField_cons, hnil, Js.asString]

theorem IProfile.ofJson_toJson (p : IProfile) : IProfile.ofJson p.toJson = some p := by
  have hleaves : Js.asArray Js.asString (.arr (p.leaves.map .str)) = some p.leaves :=
    Js.mapM_map_of_inverse (show ∀ s, Js.asString (.str s) = some s from fun _ => rfl) p.leaves
  obtain ⟨hcontacts, husername, huser_id⟩ := p.maybeField_laterFields
  simp [IProfile.ofJson, IProfile.toJson, Js.asObject, Js.field_cons, Js.maybeField_cons, hleaves,
    Js.asString, hcontacts, husername, huser_id]

/-! Every part of a profile is a value that the parser reads back. -/

theorem Js.readableElements_map {α : Type} {encode : α → Json} (h : ∀ a, Readable (encode a))
    (xs : List α) : ReadableElements (xs.map encode) := by
  induction xs with
  | nil => trivial
  | cons x xs ih => exact ⟨h x, ih⟩

theorem Js.readableFields_map {α : Type} {encode : α → Json} (h : ∀ a, Readable (encode a))
    (fields : List (String × α)) :
    ReadableFields (fields.map fun f => (f.1, encode f.2)) := by
  induction fields with
  | nil => trivial
  | cons f fields ih => exact ⟨h f.2, ih⟩

theorem IRoom.readable_toJson (r : IRoom) : Js.Readable r.toJson := by
  simp [IRoom.toJson, Js.Readable, Js.ReadableFields]

theorem IDirectRoom.readable_toJson (r : IDirectRoom String) : Js.Readable r.toJson := by
  simp [IDirectRoom.toJson, Js.Readable, Js.ReadableFields]

theorem IRooms.readable_toJson (rooms : IRooms) : Js.Readable rooms.toJson := by
  have hpublic := Js.readableElements_map IRoom.readable_toJson rooms.publicRooms
  have hprivate := Js.readableElements_map IRoom.readable_toJson rooms.privateRooms
  have hdirect := Js.readableElements_map IDirectRoom.readable_toJson rooms.directRooms
  simp [IRooms.toJson, Js.Readable, Js.ReadableFields, hpublic, hprivate, hdirect]

theorem ITrustedContact.readable_toJson (c : ITrustedContact) : Js.Readable c.toJson := by
  simp [ITrustedContact.toJson, Js.Readable, Js.ReadableFields]

theorem ITrustedContactsMap.readable_toJson (contacts : ITrustedContactsMap) :
    Js.Readable contacts.toJson := by
  refine ⟨?_, Js.readableFields_map ITrustedContact.readable_toJson contacts.entries⟩
  rw [List.map_map]
  exact contacts.nodup

theorem IProfile.readable_laterFields (p : IProfile) :
    (p.laterFields.map Prod.fst).Sublist ["contacts", "username", "user_id"] ∧
      Js.ReadableFields p.laterFields := by
  have hid : ∀ n : Js.ExactNat, Js.Readable (.num (.finite n.val)) := fun n => ⟨n.val, n.le, rfl⟩
  obtain ⟨_, _, _, _, _, _, contacts, username, user_id⟩ := p
  cases contacts <;> cases username <;> cases user_id <;>
    simp [laterFields, Js.optionalField, Js.ReadableFields, hid,
      ITrustedContactsMap.readable_toJson, show ∀ s, Js.Readable (.str s) from fun _ => trivial]

theorem IProfile.readable_toJson (p : IProfile) : Js.Readable p.toJson := by
  have hleaves : Js.ReadableElements (p.leaves.map .str) :=
    Js.readableElements_map (fun s => show Js.Readable (.str s) from trivial) p.leaves
  have hroot : Js.Readable ((p.root_hash.map Json.str).getD .null) := by
    cases p.root_hash <;> trivial
  obtain ⟨hkeys, hlater⟩ := p.readable_laterFields
  refine ⟨?_, trivial, hroot, hleaves, trivial, trivial, p.rooms.readable_toJson, hlater⟩
  have hall : ["rln_identity_commitment", "root_hash", "leaves", "user_private_key",
      "user_public_key", "rooms", "contacts", "username", "user_id"].Nodup := by
    decide
  refine hall.sublist ?_
  simp only [List.map_cons, List.cons_sublist_cons]
  exact hkeys

/-- What has been saved is read back. -/
theorem IProfile.parse_stringify (p : IProfile) : IProfile.parse p.stringify = some p := by
  rw [IProfile.parse, IProfile.stringify, Js.jsonParse_of_readable p.readable_toJson,
    Option.bind_some, ofJson_toJson]

theorem IProfile.stringify_ne_empty (p : IProfile) : p.stringify ≠ "" := by
  intro hempty
  have hparse := p.parse_stringify
  rw [hempty] at hparse
  cases hparse

theorem IProfile.stringify_injective : Function.Injective IProfile.stringify := by
  intro p p' h
  have hparse := p.parse_stringify
  rw [h, parse_stringify, Option.some.injEq] at hparse
  exact hparse.symm

end ZkChat
