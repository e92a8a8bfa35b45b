import ZkChat.Client.LiveProfile
import ZkChat.Lib.UniqueMap
import Mathlib.Data.List.Nodup

set_option autoImplicit false

/-! # Trusted contacts as a map

The contacts of a profile are an object with one property for each contact. Against a map in which
no key stands under two names (`UniqueMap`), a run of contact calls goes wrong in two ways: an update
that keeps the name is refused, and a contact named `__proto__` is lost. Every run without these
agrees with the map call by call (`runRefines_iff`). -/

namespace ZkChat

open ProfileManager

/-! ## The object -/

namespace ITrustedContactsMap

variable {contacts : ITrustedContactsMap} {name k : String} {c : ITrustedContact}

/-- `contacts[name]`, for an own property. -/
def get? (contacts : ITrustedContactsMap) (name : String) : Option ITrustedContact :=
  contacts.entries.lookup name

theorem mem_keys_iff : name ∈ contacts.keys ↔ contacts.get? name ≠ none := by
  rw [get?, ne_eq, Js.lookup_eq_none_iff_not_mem, not_not, keys]

theorem get?_set (hname : name ≠ "__proto__") :
    (contacts.set name c).get? k = if k = name then some c else contacts.get? k := by
  split
  · next hk => rw [hk, get?, set, Js.lookup_setProperty_self hname]
  · next hk => exact Js.lookup_setProperty_of_ne hk

/-- Nothing is stored under the name `__proto__`. -/
theorem set_proto (h : "__proto__" ∉ contacts.keys) (c : ITrustedContact) :
    contacts.set "__proto__" c = contacts := by
  obtain ⟨entries, _⟩ := contacts
  have hset : Js.setProperty entries "__proto__" c = entries := by
    have hnew : "__proto__" ∉ entries.map Prod.fst := h
    rw [Js.setProperty, if_neg hnew, if_pos rfl]
  simp only [set, hset]

theorem get?_delete : (contacts.delete name).get? k
    = if k = name then none else contacts.get? k :=
  Js.lookup_deleteProperty_eq ..

/-- Each own property is found under its name. -/
theorem get?_eq_some_iff : contacts.get? name = some c ↔ (name, c) ∈ contacts.entries := by
  constructor
  · intro h
    obtain ⟨l₁, l₂, hl, -⟩ := List.lookup_eq_some_iff.mp h
    rw [hl]
    simp
  · intro h
    cases hget : contacts.get? name with
    | none => simpa using List.lookup_eq_none_iff.mp hget _ h
    | some c' =>
        obtain ⟨l₁, l₂, hl, -⟩ := List.lookup_eq_some_iff.mp hget
        have hmem : (name, c') ∈ contacts.entries := by
          rw [hl]
          simp
        exact congrArg some (congrArg Prod.snd (List.inj_on_of_nodup_map contacts.nodup hmem h rfl))

end ITrustedContactsMap

/-! ## The calls -/

/-- The profile in memory and the text of it in the storage. -/
structure ContactStore where
  inMemoryProfile : IProfile
  storage : Option String

inductive ContactCall where
  | insertTrustedContact (name publicKey : String)
  | updateTrustedContact (old_name new_name publicKey : String)
  | deleteTrustedContact (name : String)
  | getTrustedContact (name : String)

namespace ProfileManager

def getTrustedContact (name : String) (p : IProfile) : Except Exn ITrustedContact := do
  let contacts ← contactsOf p
  match contacts.get? name with
  | some contact => .ok contact
  | none => .error (.text "Contact doesn't exist")

end ProfileManager

namespace ContactStore

/-- A method that changes the profile and persists it. -/
def edit (f : IProfile → Except Exn IProfile) (s : ContactStore) :
    Except Exn (Option ITrustedContact) × ContactStore :=
  match f s.inMemoryProfile with
  | .ok p => (.ok none, { inMemoryProfile := p, storage := some p.stringify })
  | .error e => (.error e, s)

/-- The contacts that are visible. -/
def contacts (s : ContactStore) : ITrustedContactsMap := s.inMemoryProfile.contacts.getD .empty

end ContactStore

namespace ContactCall

/-- The answer, with a contact where one is asked for, and the store after the call. -/
def run : ContactCall → ContactStore → Except Exn (Option ITrustedContact) × ContactStore
  | insertTrustedContact name publicKey, s =>
      s.edit (ProfileManager.insertTrustedContact name publicKey)
  | updateTrustedContact old_name new_name publicKey, s =>
      s.edit (ProfileManager.updateTrustedContact old_name new_name publicKey)
  | deleteTrustedContact name, s => s.edit (ProfileManager.deleteTrustedContact name)
  | getTrustedContact name, s =>
      ((ProfileManager.getTrustedContact name s.inMemoryProfile).map some, s)

/-- What the reference map answers, and the map after the call; `none` when it refuses. -/
noncomputable def reference : ContactCall → UniqueMap String String →
    Option (Option ITrustedContact × UniqueMap String String)
  | insertTrustedContact name publicKey, m => (m.insert name publicKey).map (none, ·)
  | updateTrustedContact old_name new_name publicKey, m =>
      (m.update old_name new_name publicKey).map (none, ·)
  | deleteTrustedContact name, m => (m.delete name).map (none, ·)
  | getTrustedContact name, m => (m.get name).map fun publicKey => (some { name, publicKey }, m)

/-- The map after the call. -/
noncomputable def referenceAfter (call : ContactCall) (m : UniqueMap String String) :
    UniqueMap String String :=
  ((call.reference m).map (·.2)).getD m

/-- The call answers what the map answers; where the map refuses, it throws and changes nothing. -/
def Agrees (call : ContactCall) (s : ContactStore) (m : UniqueMap String String) : Prop :=
  match call.reference m with
  | some (answer, _) => (call.run s).1 = .ok answer
  | none => (∃ e, (call.run s).1 = .error e) ∧ (call.run s).2 = s

end ContactCall

/-- The visible contacts are those of the map, each under its own name, and no two of them have one
    public key. -/
structure Refines (s : ContactStore) (m : UniqueMap String String) : Prop where
  present : s.inMemoryProfile.contacts.isSome
  visible : ∀ name, (s.contacts.get? name).map (·.publicKey) = m.get name
  named : ∀ f ∈ s.contacts.entries, f.2.name = f.1
  distinct : (s.contacts.entries.map (·.2.publicKey)).Nodup

/-- Along the calls the store is that of the map, and every call agrees. -/
def RunRefines : List ContactCall → ContactStore → UniqueMap String String → Prop
  | [], s, m => Refines s m
  | call :: calls, s, m =>
      Refines s m ∧ call.Agrees s m ∧ RunRefines calls (call.run s).2 (call.referenceAfter m)

/-- The map refuses the call, or it neither keeps the name in an update nor uses the name
    `__proto__`. -/
def ContactCall.Ordinary (m : UniqueMap String String) : ContactCall → Prop
  | insertTrustedContact name publicKey =>
      m.insert name publicKey = none ∨ name ≠ "__proto__"
  | updateTrustedContact old_name new_name publicKey =>
      m.update old_name new_name publicKey = none ∨
        new_name ≠ old_name ∧ new_name ≠ "__proto__"
  | _ => True

/-- All calls are ordinary when they are made. -/
def RunOrdinary : List ContactCall → UniqueMap String String → Prop
  | [], _ => True
  | call :: calls, m => call.Ordinary m ∧ RunOrdinary calls (call.referenceAfter m)

/-! ## Contacts that represent a map -/

/-- Under each name stands the contact that the map has there. -/
def Represents (contacts : ITrustedContactsMap) (m : UniqueMap String String) : Prop :=
  ∀ name, contacts.get? name = (m.get name).map fun publicKey => { name, publicKey }

theorem refines_iff {s : ContactStore} {m : UniqueMap String String} : Refines s m ↔
    ∃ contacts, s.inMemoryProfile.contacts = some contacts ∧ Represents contacts m := by
  constructor
  · intro h
    obtain ⟨contacts, hcontacts⟩ := Option.isSome_iff_exists.mp h.present
    have hs : s.contacts = contacts := by rw [ContactStore.contacts, hcontacts, Option.getD_some]
    refine ⟨contacts, hcontacts, fun name => ?_⟩
    rw [← h.visible name, hs]
    cases hget : contacts.get? name with
    | none => rfl
    | some c =>
        have hnamed := h.named (name, c) (hs ▸ ITrustedContactsMap.get?_eq_some_iff.mp hget)
        obtain ⟨name', publicKey⟩ := c
        obtain rfl : name' = name := hnamed
        rfl
  · rintro ⟨contacts, hcontacts, h⟩
    have hs : s.contacts = contacts := by rw [ContactStore.contacts, hcontacts, Option.getD_some]
    have hentry : ∀ f ∈ contacts.entries, f.2.name = f.1 ∧ m.get f.1 = some f.2.publicKey := by
      intro f hf
      have hget := (h f.1).symm.trans (ITrustedContactsMap.get?_eq_some_iff.mpr hf)
      obtain ⟨publicKey, hkey, hc⟩ := Option.map_eq_some_iff.mp hget
      rw [← hc]
      exact ⟨rfl, hkey⟩
    refine ⟨by rw [hcontacts]; rfl, fun name => ?_, hs ▸ fun f hf => (hentry f hf).1, ?_⟩
    · rw [hs, h name]
      cases m.get name <;> rfl
    · rw [hs]
      refine (List.Nodup.of_map _ contacts.nodup).map_on fun f hf g hg hkey => ?_
      refine List.inj_on_of_nodup_map contacts.nodup hf hg ?_
      exact m.unique _ _ _ (hentry f hf).2 (hkey ▸ (hentry g hg).2)

namespace Represents

variable {contacts : ITrustedContactsMap} {m : UniqueMap String String} {p : IProfile}
  {name publicKey : String}

theorem empty : Represents .empty .empty := fun _ => rfl

theorem mem_keys_iff (h : Represents contacts m) : name ∈ contacts.keys ↔ m.get name ≠ none := by
  rw [ITrustedContactsMap.mem_keys_iff, h name]
  simp

theorem validateContactExists_eq (h : Represents contacts m) (name : String) :
    validateContactExists contacts name = if m.get name = none
      then .error (.text "The specified contact doesn't exist") else .ok () := by
  by_cases hname : m.get name = none
  · rw [validateContactExists, if_pos hname, if_neg (by rw [h.mem_keys_iff]; simpa using hname)]
  · rw [validateContactExists, if_neg hname, if_pos (h.mem_keys_iff.mpr hname)]

theorem validateContactWithSameNameDoesntExist_eq (h : Represents contacts m) (name : String) :
    validateContactWithSameNameDoesntExist contacts name = if m.get name = none
      then .ok () else .error (.text "A contact with the same name already exists") := by
  by_cases hname : m.get name = none
  · rw [validateContactWithSameNameDoesntExist, if_pos hname,
      if_neg (by rw [h.mem_keys_iff]; simpa using hname)]
  · rw [validateContactWithSameNameDoesntExist, if_neg hname, if_pos (h.mem_keys_iff.mpr hname)]

/-- The loop over the names finds the key under a name that is not ignored. -/
theorem any_publicKey_iff (h : Represents contacts m) (ignoredKeys : List String) :
    (contacts.entries.any fun c => c.1 ∉ ignoredKeys ∧ c.2.publicKey = publicKey) = true ↔
      ∃ c, c ∉ ignoredKeys ∧ m.get c = some publicKey := by
  simp only [List.any_eq_true, decide_eq_true_eq]
  constructor
  · rintro ⟨f, hf, hignored, rfl⟩
    have hget := (h f.1).symm.trans (ITrustedContactsMap.get?_eq_some_iff.mpr hf)
    obtain ⟨key, hkey, hc⟩ := Option.map_eq_some_iff.mp hget
    exact ⟨f.1, hignored, by rw [hkey, ← hc]⟩
  · rintro ⟨c, hignored, hc⟩
    refine ⟨(c, { name := c, publicKey }), ?_, hignored, rfl⟩
    exact ITrustedContactsMap.get?_eq_some_iff.mp (by rw [h c, hc, Option.map_some])

theorem validatePublicKey_of_free (h : Represents contacts m) {ignoredKeys : List String}
    (hfree : ∀ c, c ∉ ignoredKeys → m.get c ≠ some publicKey) :
    validateContactWithSamePublicKeyDoesntExist contacts publicKey ignoredKeys = .ok () := by
  refine if_neg fun hany => ?_
  obtain ⟨c, hignored, hc⟩ := (h.any_publicKey_iff ignoredKeys).mp hany
  exact hfree c hignored hc

theorem validatePublicKey_of_taken (h : Represents contacts m) {ignoredKeys : List String}
    {c : String} (hignored : c ∉ ignoredKeys) (hc : m.get c = some publicKey) :
    validateContactWithSamePublicKeyDoesntExist contacts publicKey ignoredKeys
      = .error (.text "A contact with the same public key already exists") :=
  if_pos ((h.any_publicKey_iff ignoredKeys).mpr ⟨c, hignored, hc⟩)

/-! ### One call -/

theorem insert_of_free (h : Represents contacts m) (hp : p.contacts = some contacts)
    (hfree : m.Free name publicKey) : insertTrustedContact name publicKey p
      = .ok { p with contacts := some (contacts.set name { name, publicKey }) } := by
  rw [insertTrustedContact, contactsOf, hp]
  show (validateContactWithSameNameDoesntExist contacts name >>= fun _ => _) = _
  rw [h.validateContactWithSameNameDoesntExist_eq, if_pos hfree.1]
  show (validateContactWithSamePublicKeyDoesntExist contacts publicKey [] >>= fun _ => _) = _
  rw [h.validatePublicKey_of_free fun c _ => hfree.2 c]
  rfl

theorem insert_of_not_free (h : Represents contacts m) (hp : p.contacts = some contacts)
    (hfree : ¬ m.Free name publicKey) : ∃ e, insertTrustedContact name publicKey p = .error e := by
  rw [insertTrustedContact, contactsOf, hp]
  show ∃ e, (validateContactWithSameNameDoesntExist contacts name >>= fun _ => _) = _
  rw [h.validateContactWithSameNameDoesntExist_eq]
  by_cases hname : m.get name = none
  · rw [if_pos hname]
    show ∃ e, (validateContactWithSamePublicKeyDoesntExist contacts publicKey [] >>= fun _ => _) = _
    obtain ⟨c, hc⟩ : ∃ c, m.get c = some publicKey := by
      by_contra hno
      exact hfree ⟨hname, fun c hc => hno ⟨c, hc⟩⟩
    rw [h.validatePublicKey_of_taken (List.not_mem_nil) hc]
    exact ⟨_, rfl⟩
  · rw [if_neg hname]
    exact ⟨_, rfl⟩

theorem update_of_free (h : Represents contacts m) (hp : p.contacts = some contacts)
    {old_name new_name : String} (hold : m.get old_name ≠ none) (hnew : m.get new_name = none)
    (hkey : ∀ c, c ≠ old_name → m.get c ≠ some publicKey) :
    updateTrustedContact old_name new_name publicKey p
      = .ok { p with contacts := some ((contacts.delete old_name).set new_name
          { name := new_name, publicKey }) } := by
  rw [updateTrustedContact, contactsOf, hp]
  show (validateContactExists contacts old_name >>= fun _ => _) = _
  rw [h.validateContactExists_eq, if_neg hold]
  show (validateContactWithSameNameDoesntExist contacts new_name >>= fun _ => _) = _
  rw [h.validateContactWithSameNameDoesntExist_eq, if_pos hnew]
  show (validateContactWithSamePublicKeyDoesntExist contacts publicKey [old_name]
    >>= fun _ => _) = _
  rw [h.validatePublicKey_of_free fun c hc => hkey c (by simpa using hc)]
  rfl

theorem update_of_not_free (h : Represents contacts m) (hp : p.contacts = some contacts)
    {old_name new_name : String} (hfree : m.get old_name = none ∨ m.get new_name ≠ none ∨
      ∃ c, c ≠ old_name ∧ m.get c = some publicKey) :
    ∃ e, updateTrustedContact old_name new_name publicKey p = .error e := by
  rw [updateTrustedContact, contactsOf, hp]
  show ∃ e, (validateContactExists contacts old_name >>= fun _ => _) = _
  rw [h.validateContactExists_eq]
  by_cases hold : m.get old_name = none
  · rw [if_pos hold]
    exact ⟨_, rfl⟩
  · rw [if_neg hold]
    show ∃ e, (validateContactWithSameNameDoesntExist contacts new_name >>= fun _ => _) = _
    rw [h.validateContactWithSameNameDoesntExist_eq]
    by_cases hnew : m.get new_name = none
    · rw [if_pos hnew]
      show ∃ e, (validateContactWithSamePublicKeyDoesntExist contacts publicKey [old_name]
        >>= fun _ => _) = _
      obtain ⟨c, hne, hc⟩ := (hfree.resolve_left hold).resolve_left (not_not.mpr hnew)
      rw [h.validatePublicKey_of_taken (by simpa using hne) hc]
      exact ⟨_, rfl⟩
    · rw [if_neg hnew]
      exact ⟨_, rfl⟩

theorem delete_of_none (h : Represents contacts m) (hp : p.contacts = some contacts)
    (hname : m.get name = none) :
    deleteTrustedContact name p = .error (.text "The specified contact doesn't exist") := by
  rw [deleteTrustedContact, contactsOf, hp]
  show (validateContactExists contacts name >>= fun _ => _) = _
  rw [h.validateContactExists_eq, if_pos hname]
  rfl

theorem delete_of_ne_none (h : Represents contacts m) (hp : p.contacts = some contacts)
    (hname : m.get name ≠ none) :
    deleteTrustedContact name p = .ok { p with contacts := some (contacts.delete name) } := by
  rw [deleteTrustedContact, contactsOf, hp]
  show (validateContactExists contacts name >>= fun _ => _) = _
  rw [h.validateContactExists_eq, if_neg hname]
  rfl

theorem getTrustedContact_eq (h : Represents contacts m) (hp : p.contacts = some contacts) :
    getTrustedContact name p = match m.get name with
      | some publicKey => .ok { name, publicKey }
      | none => .error (.text "Contact doesn't exist") := by
  rw [getTrustedContact, contactsOf, hp]
  show (match contacts.get? name with | some contact => _ | none => _) = _
  rw [h name]
  cases m.get name <;> rfl

theorem set (h : Represents contacts m) (hname : name ≠ "__proto__")
    (hfree : m.Free name publicKey) :
    Represents (contacts.set name { name, publicKey }) (m.insertFree name publicKey hfree) := by
  intro k
  rw [ITrustedContactsMap.get?_set hname, UniqueMap.get_insertFree]
  split
  · next hk => rw [hk, Option.map_some]
  · exact h k

theorem delete (h : Represents contacts m) (name : String) :
    Represents (contacts.delete name) (m.erase name) := by
  intro k
  rw [ITrustedContactsMap.get?_delete, UniqueMap.get_erase]
  split
  · rfl
  · exact h k

/-- A contact named `__proto__` gets lost. -/
theorem not_set_proto (h : Represents contacts m) (hfree : m.Free "__proto__" publicKey) :
    ¬ Represents (contacts.set "__proto__" { name := "__proto__", publicKey })
      (m.insertFree "__proto__" publicKey hfree) := by
  intro hset
  rw [ITrustedContactsMap.set_proto (by rw [h.mem_keys_iff]; simpa using hfree.1)] at hset
  have := (h "__proto__").symm.trans (hset "__proto__")
  rw [UniqueMap.get_insertFree, if_pos rfl, hfree.1] at this
  cases this

end Represents

/-! ## Runs -/

section Step

variable {s : ContactStore} {m m' : UniqueMap String String} {call : ContactCall}
  {f : IProfile → Except Exn IProfile}

/-- Both refuse. -/
theorem step_of_refused (h : Refines s m) (hreference : call.reference m = none) {e : Exn}
    (hrun : call.run s = (.error e, s)) :
    call.Agrees s m ∧ Refines (call.run s).2 (call.referenceAfter m) := by
  rw [ContactCall.Agrees, ContactCall.referenceAfter, hreference, hrun]
  exact ⟨⟨⟨e, rfl⟩, rfl⟩, h⟩

theorem edit_of_error {e : Exn} (hf : f s.inMemoryProfile = .error e) :
    s.edit f = (.error e, s) := by
  rw [ContactStore.edit, hf]

/-- The map accepts a change and the code accepts it too: what is left is that the contacts are
    those of the map again. -/
theorem step_of_accepted {contacts : ITrustedContactsMap}
    (hreference : call.reference m = some (none, m')) (hrun : call.run s = s.edit f)
    (hf : f s.inMemoryProfile = .ok { s.inMemoryProfile with contacts := some contacts }) :
    (call.Agrees s m ∧ Refines (call.run s).2 (call.referenceAfter m)) ↔
      Represents contacts m' := by
  have hedit : call.run s = (.ok none,
      { inMemoryProfile := { s.inMemoryProfile with contacts := some contacts }
        storage := some
          ({ s.inMemoryProfile with contacts := some contacts } : IProfile).stringify }) := by
    rw [hrun, ContactStore.edit, hf]
  rw [ContactCall.Agrees, ContactCall.referenceAfter, hreference, hedit, refines_iff]
  constructor
  · rintro ⟨-, contacts', heq, hrepresents⟩
    obtain rfl : contacts = contacts' := Option.some.inj heq
    exact hrepresents
  · exact fun hrepresents => ⟨rfl, contacts, rfl, hrepresents⟩

theorem step_insert (h : Refines s m) (name publicKey : String) :
    let call := ContactCall.insertTrustedContact name publicKey
    (call.Agrees s m ∧ Refines (call.run s).2 (call.referenceAfter m)) ↔ call.Ordinary m := by
  intro call
  obtain ⟨contacts, hcontacts, hrepresents⟩ := refines_iff.mp h
  by_cases hfree : m.Free name publicKey
  · have hinsert := UniqueMap.insert_of_free hfree
    have hreference : call.reference m = some (none, m.insertFree name publicKey hfree) :=
      congrArg (Option.map fun m => (none, m)) hinsert
    rw [step_of_accepted hreference rfl (hrepresents.insert_of_free hcontacts hfree),
      ContactCall.Ordinary, hinsert]
    by_cases hname : name = "__proto__"
    · subst hname
      exact iff_of_false (hrepresents.not_set_proto hfree) (by simp)
    · exact iff_of_true (hrepresents.set hname hfree) (Or.inr hname)
  · have hinsert := UniqueMap.insert_eq_none_iff.mpr hfree
    have hreference : call.reference m = none := congrArg (Option.map fun m => (none, m)) hinsert
    obtain ⟨e, he⟩ := hrepresents.insert_of_not_free hcontacts hfree
    exact iff_of_true (step_of_refused h hreference (edit_of_error he)) (Or.inl hinsert)

theorem step_update (h : Refines s m) (old_name new_name publicKey : String) :
    let call := ContactCall.updateTrustedContact old_name new_name publicKey
    (call.Agrees s m ∧ Refines (call.run s).2 (call.referenceAfter m)) ↔ call.Ordinary m := by
  intro call
  obtain ⟨contacts, hcontacts, hrepresents⟩ := refines_iff.mp h
  by_cases hupdate : m.update old_name new_name publicKey = none
  · have hreference : call.reference m = none := congrArg (Option.map fun m => (none, m)) hupdate
    have hrefused : m.get old_name = none ∨ m.get new_name ≠ none ∨
        ∃ c, c ≠ old_name ∧ m.get c = some publicKey := by
      rcases UniqueMap.update_eq_none_iff.mp hupdate with hold | hno
      · exact Or.inl hold
      · rw [not_and_or, not_or, not_forall] at hno
        refine Or.inr (hno.imp And.right ?_)
        simp only [not_forall, not_not, exists_prop]
        exact id
    obtain ⟨e, he⟩ := hrepresents.update_of_not_free hcontacts hrefused
    exact iff_of_true (step_of_refused h hreference (edit_of_error he)) (Or.inl hupdate)
  · obtain ⟨hold, hfree⟩ := not_or.mp (mt UniqueMap.update_eq_none_iff.mpr hupdate)
    obtain ⟨hnew, hkey⟩ := not_not.mp hfree
    have hfree : (m.erase old_name).Free new_name publicKey :=
      UniqueMap.free_erase.mpr ⟨hnew, hkey⟩
    have hreference : call.reference m
        = some (none, (m.erase old_name).insertFree new_name publicKey hfree) :=
      congrArg (Option.map fun m => (none, m)) (UniqueMap.update_of_free hold hfree)
    by_cases hsame : new_name = old_name
    · -- the name is kept: the map accepts, the code does not
      have hrefused : m.get old_name = none ∨ m.get new_name ≠ none ∨
          ∃ c, c ≠ old_name ∧ m.get c = some publicKey := Or.inr (Or.inl (hsame ▸ hold))
      obtain ⟨e, he⟩ := hrepresents.update_of_not_free hcontacts hrefused
      have hrun : call.run s = (.error e, s) := edit_of_error he
      refine iff_of_false ?_ fun hordinary => hordinary.elim hupdate fun hne => hne.1 hsame
      rintro ⟨hagrees, -⟩
      rw [ContactCall.Agrees, hreference, hrun] at hagrees
      cases hagrees
    · rw [step_of_accepted hreference rfl
        (hrepresents.update_of_free hcontacts hold (hnew.resolve_left hsame) hkey)]
      by_cases hname : new_name = "__proto__"
      · subst hname
        exact iff_of_false ((hrepresents.delete old_name).not_set_proto hfree)
          fun hordinary => hordinary.elim hupdate fun hne => hne.2 rfl
      · exact iff_of_true ((hrepresents.delete old_name).set hname hfree)
          (Or.inr ⟨hsame, hname⟩)

theorem step_delete (h : Refines s m) (name : String) :
    let call := ContactCall.deleteTrustedContact name
    call.Agrees s m ∧ Refines (call.run s).2 (call.referenceAfter m) := by
  intro call
  obtain ⟨contacts, hcontacts, hrepresents⟩ := refines_iff.mp h
  by_cases hname : m.get name = none
  · have hreference : call.reference m = none :=
      congrArg (Option.map fun m => (none, m)) (UniqueMap.delete_eq_none_iff.mpr hname)
    exact step_of_refused h hreference
      (edit_of_error (hrepresents.delete_of_none hcontacts hname))
  · have hreference : call.reference m = some (none, m.erase name) :=
      congrArg (Option.map fun m => (none, m)) (UniqueMap.delete_of_ne_none hname)
    exact (step_of_accepted hreference rfl
      (hrepresents.delete_of_ne_none hcontacts hname)).mpr (hrepresents.delete name)

theorem step_get (h : Refines s m) (name : String) :
    let call := ContactCall.getTrustedContact name
    call.Agrees s m ∧ Refines (call.run s).2 (call.referenceAfter m) := by
  intro call
  obtain ⟨contacts, hcontacts, hrepresents⟩ := refines_iff.mp h
  have hrun : call.run s
      = ((ProfileManager.getTrustedContact name s.inMemoryProfile).map some, s) := rfl
  have hreference : call.reference m
      = (m.get name).map fun publicKey => (some { name, publicKey }, m) := rfl
  rw [hrepresents.getTrustedContact_eq hcontacts] at hrun
  cases hname : m.get name with
  | none =>
      rw [hname] at hrun hreference
      exact step_of_refused h hreference hrun
  | some publicKey =>
      rw [hname] at hrun hreference
      rw [ContactCall.Agrees, ContactCall.referenceAfter, hreference, hrun]
      exact ⟨rfl, h⟩

end Step

/-- A call agrees and leads to the next map exactly when it is ordinary. -/
theorem Refines.step {s : ContactStore} {m : UniqueMap String String} (h : Refines s m)
    (call : ContactCall) :
    (call.Agrees s m ∧ Refines (call.run s).2 (call.referenceAfter m)) ↔ call.Ordinary m := by
  cases call with
  | insertTrustedContact name publicKey => exact step_insert h name publicKey
  | updateTrustedContact old_name new_name publicKey =>
      exact step_update h old_name new_name publicKey
  | deleteTrustedContact name => exact iff_of_true (step_delete h name) trivial
  | getTrustedContact name => exact iff_of_true (step_get h name) trivial

theorem Refines.run_iff (calls : List ContactCall) {s : ContactStore}
    {m : UniqueMap String String} (h : Refines s m) :
    RunRefines calls s m ↔ RunOrdinary calls m := by
  induction calls generalizing s m with
  | nil => exact iff_of_true h trivial
  | cons call calls ih =>
      constructor
      · rintro ⟨-, hagrees, hrest⟩
        have hnext : Refines (call.run s).2 (call.referenceAfter m) := by
          cases calls with
          | nil => exact hrest
          | cons _ _ => exact hrest.1
        exact ⟨(h.step call).mp ⟨hagrees, hnext⟩, (ih hnext).mp hrest⟩
      · rintro ⟨hordinary, hrest⟩
        obtain ⟨hagrees, hnext⟩ := (h.step call).mpr hordinary
        exact ⟨h, hagrees, (ih hnext).mpr hrest⟩

/-- From an empty object a run of contact calls is that of the reference map exactly when, at each
    call, the map refuses it or it neither keeps the name in an update nor uses the name
    `__proto__`. -/
theorem runRefines_iff (p : IProfile) (storage : Option String) (hp : p.contacts = some .empty)
    (calls : List ContactCall) :
    RunRefines calls { inMemoryProfile := p, storage } .empty ↔ RunOrdinary calls .empty :=
  Refines.run_iff calls (refines_iff.mpr ⟨.empty, hp, Represents.empty⟩)

/-- A profile without rooms and contacts. -/
def strangerProfile : IProfile where
  rln_identity_commitment := "1"
  root_hash := none
  leaves := []
  user_private_key := "private"
  user_public_key := "public"
  rooms := ⟨[], [], []⟩
  contacts := some .empty
  username := none
  user_id := none

/-- A contact is inserted, renamed with a new key, asked for and deleted. -/
theorem runRefines_rename : RunRefines
    [.insertTrustedContact "bob" "k1", .updateTrustedContact "bob" "robert" "k2",
      .getTrustedContact "robert", .deleteTrustedContact "robert"]
    { inMemoryProfile := strangerProfile, storage := none } .empty :=
  (runRefines_iff strangerProfile none rfl _).mpr
    ⟨Or.inr (by decide), Or.inr ⟨by decide, by decide⟩, trivial, trivial, trivial⟩

/-- A contact cannot be given a new key under its old name. -/
theorem update_same_name_refused : ¬ RunRefines
    [.insertTrustedContact "bob" "k1", .updateTrustedContact "bob" "bob" "k2"]
    { inMemoryProfile := strangerProfile, storage := none } .empty := by
  have hrefines : Refines { inMemoryProfile := strangerProfile, storage := none } .empty :=
    refines_iff.mpr ⟨.empty, rfl, Represents.empty⟩
  have hfree : UniqueMap.empty.Free "bob" "k1" := ⟨rfl, fun _ h => by cases h⟩
  have hafter : (ContactCall.insertTrustedContact "bob" "k1").referenceAfter .empty
      = UniqueMap.empty.insertFree "bob" "k1" hfree := by
    rw [ContactCall.referenceAfter, ContactCall.reference, UniqueMap.insert_of_free hfree]
    rfl
  intro hrun
  obtain ⟨-, hordinary, -⟩ := (Refines.run_iff _ hrefines).mp hrun
  rw [hafter] at hordinary
  rcases hordinary with hrefused | ⟨hne, -⟩
  · rcases UniqueMap.update_eq_none_iff.mp hrefused with hold | hno
    · cases hold
    · refine hno ⟨Or.inl rfl, fun c hc => ?_⟩
      rw [UniqueMap.get_insertFree, if_neg hc]
      intro h
      cases h
  · exact hne rfl

end ZkChat
