import Mathlib.Order.Filter.AtTopBot.Basic
import Mathlib.Order.Filter.Finite
import ZkChat.Client.ProfileExport
import ZkChat.Client.ProfileOperations

set_option autoImplicit false

/-! # What the validation of a profile is worth

`validateFormat` looks at the names of the fields and of the fields of `rooms`. It is total but for
`null`, and it is sound for the profiles that the operations can work on, and for no others: on any
other profile that it accepts, some operation throws a `TypeError` (`soundAndTotal_iff`). -/

namespace ZkChat

open Filter

section

variable (encryptMessageSymmetric : String → Option Json → Except Exn String)

/-- The validation says something; when it says yes, every operation in every run after the recovery
    ends well; and what is rejected changes nothing. -/
structure SoundAndTotal (v : Json) : Prop where
  total : ∃ b, ProfileManager.Untyped.validateFormat v = .ok b
  sound : ProfileManager.Untyped.validateFormat v = .ok true →
    ∀ (s : ProfileStore) (ops : List ProfileOp) (op : ProfileOp),
      op.EndsWell encryptMessageSymmetric
        (ProfileOp.runAll encryptMessageSymmetric ops (s.recoverProfile v))
  rejected : ∀ (s : ProfileStore) (root : Option String) (leaves : List String),
    (∃ e, (s.recover_profile v root leaves).1 = .error e) → (s.recover_profile v root leaves).2 = s

/-- The value is not `null`, nor are the rooms where the fields are those of a profile. -/
def HasRooms (v : Json) : Prop :=
  v ≠ .null ∧ ∀ fields, v = .obj fields → fields.length = 9 →
    (∀ key ∈ ProfileManager.Untyped.interfaceKeys, key ∈ fields.map Prod.fst) →
      fields.lookup "rooms" ≠ some .null

end

/-! ## Texts that nothing is equal to -/

def freshText (n : ℕ) : String := String.ofList (List.replicate (n + 1) 'x')

theorem stringToNumber_freshText (n : ℕ) : Js.stringToNumber (freshText n) = .nan := by
  have htrim : Js.trim (freshText n).toList = List.replicate (n + 1) 'x' := by
    rw [freshText, String.toList_ofList]
    refine Js.trim_of_ends fun c hc => ?_
    obtain rfl := List.eq_of_mem_replicate hc
    decide
  have hinteger : Js.stringToBigInt (freshText n) = none := by
    have hdigits : Js.digits 10 ('x' :: List.replicate n 'x') = none := by
      refine if_pos (Or.inr ?_)
      simp [show ¬ Js.digitValue 'x' < 10 by decide]
    rw [Js.stringToBigInt, htrim, List.replicate_succ]
    unfold Js.integerLiteral
    split <;> simp_all
  rw [Js.stringToNumber, hinteger, htrim, List.replicate_succ]
  rfl

theorem eventually_ne_freshText (t : String) : ∀ᶠ n in atTop, t ≠ freshText n := by
  refine eventually_atTop.mpr ⟨t.length, fun n hn h => ?_⟩
  have hlength : (freshText n).length = n + 1 := by simp [freshText]
  rw [← h] at hlength
  omega

theorem eventually_looseEq (v : Option Json) :
    ∀ᶠ n in atTop, Js.looseEq v (freshText n) ≠ .ok true := by
  have hobject : ∀ v : Json, ∀ᶠ n in atTop,
      (Js.toText (some v)).map (fun t => decide (t = freshText n)) ≠ .ok true := by
    intro v
    cases Js.toText (some v) with
    | error e => exact .of_forall fun n h => by cases h
    | ok t =>
        filter_upwards [eventually_ne_freshText t] with n hn h
        exact hn (of_decide_eq_true (Except.ok.inj h))
  match v with
  | none | some .null => exact .of_forall fun n h => by cases h
  | some (.bool b) =>
      refine .of_forall fun n h => ?_
      rw [Js.looseEq, stringToNumber_freshText] at h
      cases h
  | some (.num x) =>
      refine .of_forall fun n h => ?_
      rw [Js.looseEq, stringToNumber_freshText] at h
      obtain ⟨hne, heq⟩ := of_decide_eq_true (Except.ok.inj h)
      exact hne heq.symm
  | some (.str s) =>
      filter_upwards [eventually_ne_freshText s] with n hn h
      exact hn (of_decide_eq_true (Except.ok.inj h))
  | some (.arr xs) => exact hobject _
  | some (.obj fields) => exact hobject _

theorem eventually_propEq (r : Option Json) (key : String) :
    ∀ᶠ n in atTop, Js.propEq r key (freshText n) ≠ .ok true := by
  unfold Js.propEq
  cases Js.prop r key with
  | error e => exact .of_forall fun n h => by cases h
  | ok v => exact eventually_looseEq v

/-- One text is fresh for all values of a list. -/
theorem exists_fresh {α : Type} (l : List α) {P : α → ℕ → Prop} (h : ∀ a, ∀ᶠ n in atTop, P a n) :
    ∃ n, ∀ a ∈ l, P a n :=
  ((eventually_all_finite l.finite_toSet).mpr fun a _ => h a).exists

/-- Where no search throws a `TypeError`, everything can be compared. -/
theorem comparable_of_fresh {rs : List Json} {key : String}
    (h : ∀ n, Js.findByProp key (freshText n) rs ≠ .error .typeError) :
    ∀ r ∈ rs, Comparable r key := by
  obtain ⟨n, hn⟩ := exists_fresh rs fun r => eventually_propEq (some r) key
  cases hfind : Js.findByProp key (freshText n) rs with
  | error e => exact absurd (findByProp_error hfind ▸ hfind) (h n)
  | ok found =>
      cases found with
      | none => exact comparable_of_findByProp hfind
      | some r =>
          obtain ⟨hr, heq⟩ := propEq_of_findByProp hfind
          exact absurd heq (hn r hr)

/-! ## A profile on which everything ends well -/

section

variable {encryptMessageSymmetric : String → Option Json → Except Exn String} {p : UntypedProfile}
  {s : ProfileStore} {op : ProfileOp}

theorem ProfileOp.EndsWell.text (h : op.EndsWell encryptMessageSymmetric s)
    (hop : ∀ id message, op ≠ .encryptMessageForRoom id message) {e : Exn}
    (he : (op.run encryptMessageSymmetric s).1 = .error e) : ∃ text, e = .text text := by
  rcases h e he with ⟨text, -, rfl⟩ | ⟨id, message, rfl, -⟩
  · exact ⟨text, rfl⟩
  · exact absurd rfl (hop id message)

theorem ProfileOp.EndsWell.of_reads (h : op.EndsWell encryptMessageSymmetric s) {α : Type}
    {x : Except Exn α} (hrun : op.run encryptMessageSymmetric s = ProfileOp.reads x s)
    (hop : ∀ id message, op ≠ .encryptMessageForRoom id message) : x ≠ .error .typeError := by
  rintro rfl
  obtain ⟨text, htext⟩ := h.text hop (e := .typeError) (by rw [hrun]; rfl)
  cases htext

theorem ProfileOp.EndsWell.of_writes (h : op.EndsWell encryptMessageSymmetric s)
    {x : Except Exn UntypedProfile} (hrun : op.run encryptMessageSymmetric s = ProfileOp.writes x s)
    (hop : ∀ id message, op ≠ .encryptMessageForRoom id message) {e : Exn} (he : x = .error e) :
    ∃ text, e = .text text := by
  subst he
  exact h.text hop (by rw [hrun]; rfl)

theorem ProfileOp.EndsWell.ne_typeError (h : op.EndsWell encryptMessageSymmetric s)
    {x : Except Exn UntypedProfile} (hrun : op.run encryptMessageSymmetric s = ProfileOp.writes x s)
    (hop : ∀ id message, op ≠ .encryptMessageForRoom id message) : x ≠ .error .typeError := by
  intro hthrows
  obtain ⟨text, htext⟩ := h.of_writes hrun hop hthrows
  cases htext

/-- A list that rooms can always be added to. -/
theorem usable_of_addRoom (type key : String)
    (h : ∀ text, ∃ room, p.addRoom type key text room ≠ .error .typeError) :
    ∃ rs, p.rooms type = .ok (some (.arr rs)) ∧ ∀ r ∈ rs, Comparable r key := by
  rcases p.rooms_or_typeError type with ⟨rs, hrs⟩ | hthrows
  · refine ⟨rs, hrs, comparable_of_fresh fun n hfind => ?_⟩
    obtain ⟨room, hroom⟩ := h (freshText n)
    refine hroom ?_
    unfold UntypedProfile.addRoom
    rw [UntypedProfile.roomList_of_rooms hrs]
    show (Js.findByProp key (freshText n) rs >>= _) = _
    rw [hfind]
    rfl
  · obtain ⟨room, hroom⟩ := h ""
    refine absurd ?_ hroom
    unfold UntypedProfile.addRoom
    rw [hthrows]
    rfl

/-- Among public keys of which none is this one. -/
theorem checkPublicKeys_fresh {contacts : ContactsValue} {publicKey : String} {cs : List String}
    (h : ∀ c ∈ cs, Js.propEq (contacts.get c) "publicKey" publicKey ≠ .ok true) :
    UntypedProfile.checkPublicKeys contacts publicKey [] cs = .error .typeError ∨
      UntypedProfile.checkPublicKeys contacts publicKey [] cs = .ok () ∧
        ∀ c ∈ cs, Js.propEq (contacts.get c) "publicKey" publicKey = .ok false := by
  induction cs with
  | nil => exact Or.inr ⟨rfl, fun c hc => absurd hc List.not_mem_nil⟩
  | cons c cs ih =>
      have ih := ih fun c' hc' => h c' (List.mem_cons_of_mem c hc')
      have hc := h c List.mem_cons_self
      rw [UntypedProfile.checkPublicKeys, if_neg List.not_mem_nil]
      cases hprop : Js.propEq (contacts.get c) "publicKey" publicKey with
      | error e => exact Or.inl (congrArg Except.error (propEq_error hprop))
      | ok b =>
          cases b with
          | true => exact absurd hprop hc
          | false =>
              refine ih.imp id fun hrest => ⟨hrest.1, fun c' hc' => ?_⟩
              rcases List.mem_cons.mp hc' with rfl | hc'
              · exact hprop
              · exact hrest.2 c' hc'

/-- A contact whose name and key are new. -/
theorem insertTrustedContact_fresh {cs : List String} {name publicKey : String}
    (hkeys : p.contacts.keys = .ok cs) (hname : name ∉ cs)
    (h : ∀ c ∈ cs, Js.propEq (p.contacts.get c) "publicKey" publicKey ≠ .ok true) :
    p.insertTrustedContact name publicKey = .error .typeError ∨
      p.insertTrustedContact name publicKey = (p.contacts.set name
        (ITrustedContact.toJson ⟨name, publicKey⟩)).map (fun contacts => { p with contacts }) ∧
      ∀ c ∈ cs, Js.propEq (p.contacts.get c) "publicKey" publicKey = .ok false := by
  have hsame : p.validateContactWithSameNameDoesntExist name = .ok () := by
    unfold UntypedProfile.validateContactWithSameNameDoesntExist
    rw [hkeys]
    exact if_neg hname
  have hcheck : p.validateContactWithSamePublicKeyDoesntExist publicKey []
      = UntypedProfile.checkPublicKeys p.contacts publicKey [] cs := by
    unfold UntypedProfile.validateContactWithSamePublicKeyDoesntExist
    rw [hkeys]
    rfl
  unfold UntypedProfile.insertTrustedContact
  rw [hsame, hcheck]
  rcases checkPublicKeys_fresh h with hthrows | ⟨hok, hfalse⟩
  · rw [hthrows]
    exact Or.inl rfl
  · rw [hok]
    exact Or.inr ⟨rfl, hfalse⟩

theorem toString_ne {t : String} (h : ∃ c ∈ t.toList, c.isDigit = false) (n : ℕ) :
    toString n ≠ t := by
  rintro rfl
  obtain ⟨c, hc, hdigit⟩ := h
  rw [show toString n = n.repr from rfl, Nat.toList_repr] at hc
  rw [Nat.isDigit_of_mem_toDigits (by decide) (by decide) hc] at hdigit
  cases hdigit

theorem exists_fresh_publicKey (contacts : ContactsValue) (cs : List String) : ∃ publicKey,
    ∀ c ∈ cs, Js.propEq (contacts.get c) "publicKey" publicKey ≠ .ok true := by
  obtain ⟨n, hn⟩ := exists_fresh cs fun c => eventually_propEq (contacts.get c) "publicKey"
  exact ⟨_, hn⟩

theorem exists_fresh_name (cs : List String) : ∃ name, name ∉ cs := by
  obtain ⟨n, hn⟩ := exists_fresh cs fun c => eventually_ne_freshText c
  exact ⟨_, fun hmem => hn _ hmem rfl⟩

/-- Every insertion ends well. -/
def InsertsWell (p : UntypedProfile) : Prop :=
  ∀ name publicKey e, p.insertTrustedContact name publicKey = .error e → ∃ text, e = .text text

theorem InsertsWell.noTypeError (h : InsertsWell p) (name publicKey : String) :
    p.insertTrustedContact name publicKey ≠ .error .typeError := by
  intro hthrows
  obtain ⟨text, htext⟩ := h _ _ _ hthrows
  cases htext

/-- An assignment that throws is reached. -/
theorem InsertsWell.text_of_set (h : InsertsWell p) {cs : List String} {name : String} {e : Exn}
    (hkeys : p.contacts.keys = .ok cs) (hname : name ∉ cs)
    (hset : ∀ w, p.contacts.set name w = .error e) : ∃ text, e = .text text := by
  obtain ⟨publicKey, hfresh⟩ := exists_fresh_publicKey p.contacts cs
  rcases insertTrustedContact_fresh hkeys hname hfresh with hthrows | ⟨hok, -⟩
  · exact absurd hthrows (h.noTypeError name publicKey)
  · rw [hset] at hok
    exact h _ _ _ hok

theorem InsertsWell.keys (h : InsertsWell p) : p.contacts.keys ≠ .error .typeError := by
  intro hkeys
  refine h.noTypeError "" "" ?_
  unfold UntypedProfile.insertTrustedContact UntypedProfile.validateContactWithSameNameDoesntExist
  rw [hkeys]
  rfl

/-- Nothing is assigned to a field of a primitive value. -/
theorem InsertsWell.not_primitive (h : InsertsWell p) {v : Option Json} {cs : List String}
    (hp : p.contacts = .primitive v) (hkeys : Js.objectKeys v = .ok cs) : False := by
  obtain ⟨name, hname⟩ := exists_fresh_name cs
  have hkeys : p.contacts.keys = .ok cs := by rw [hp]; exact hkeys
  obtain ⟨text, htext⟩ := h.text_of_set (e := .typeError) hkeys hname fun w => by rw [hp]; rfl
  cases htext

/-- Among the contacts of an object all keys are compared. -/
theorem InsertsWell.contactsUsable (h : InsertsWell p) {fields : List (String × Json)}
    (hp : p.contacts = .ofJson (some (.obj fields))) : ContactsUsable p fields := by
  have hkeys : p.contacts.keys = .ok (fields.map Prod.fst) := by rw [hp]; rfl
  obtain ⟨name, hname⟩ := exists_fresh_name (fields.map Prod.fst)
  obtain ⟨publicKey, hfresh⟩ := exists_fresh_publicKey p.contacts (fields.map Prod.fst)
  refine ⟨hp, fun name' c hc => ?_⟩
  rcases insertTrustedContact_fresh hkeys hname hfresh with hthrows | ⟨-, hfalse⟩
  · exact absurd hthrows (h.noTypeError name publicKey)
  · have hmem : name' ∈ fields.map Prod.fst := by
      obtain ⟨l₁, l₂, hl, -⟩ := List.lookup_eq_some_iff.mp hc
      rw [hl]
      simp
    have hprop := hfalse name' hmem
    rw [hp, ContactsValue.ofJson, ContactsValue.get, hc] at hprop
    by_contra hcomparable
    rw [propEq_of_not_comparable hcomparable] at hprop
    cases hprop

/-- Contacts that can always be inserted into are an object. -/
theorem contacts_of_insert {v : Option Json} (hp : p.contacts = .ofJson v) (h : InsertsWell p) :
    ∃ fields, ContactsUsable p fields := by
  match v with
  | none => exact absurd (by rw [hp]; rfl) h.keys
  | some .null => exact absurd (by rw [hp]; rfl) h.keys
  -- what is assigned to a primitive throws, for these have keys that can be listed
  | some (.bool b) => exact (h.not_primitive hp rfl).elim
  | some (.num x) => exact (h.not_primitive hp rfl).elim
  | some (.str t) => exact (h.not_primitive hp rfl).elim
  | some (.arr xs) =>
      -- the length of an array is no contact
      have hlength : "length" ∉ (xs.zipIdx.map fun x => (toString x.2, x.1)).map Prod.fst := by
        intro hmem
        obtain ⟨f, hf, hname⟩ := List.mem_map.mp hmem
        obtain ⟨x, -, rfl⟩ := List.mem_map.mp hf
        exact toString_ne ⟨'l', by decide, by decide⟩ _ hname
      obtain ⟨text, htext⟩ := h.text_of_set (e := .rangeError) (by rw [hp]; rfl) hlength
        fun w => by rw [hp]; rfl
      cases htext
  | some (.obj fields) => exact ⟨fields, h.contactsUsable hp⟩

theorem comparable_of_keyExchangeRooms {rs : List Json}
    (hdirect : p.rooms "direct" = .ok (some (.arr rs)))
    (h : p.getAllRoomsAvailableForKeyExchange ≠ .error .typeError) :
    ∀ r ∈ rs, Comparable r "symmetric_key" := by
  unfold UntypedProfile.getAllRoomsAvailableForKeyExchange at h
  rw [UntypedProfile.roomList_of_rooms hdirect, hdirect] at h
  replace h : (if decide (Js.Number.finite rs.length = .finite 0) = true then pure []
    else Js.filterByProp "symmetric_key" "" rs) ≠ .error .typeError := h
  by_cases hempty : rs = []
  · subst hempty
    exact fun r hr => absurd hr List.not_mem_nil
  · rw [if_neg (by simpa using hempty)] at h
    cases hfilter : Js.filterByProp "symmetric_key" "" rs with
    | error e => exact absurd (hfilter.trans (congrArg _ (filterByProp_error hfilter))) h
    | ok rs' => exact comparable_of_filterByProp hfilter

/-- An encryption that throws a `TypeError` with a key that is no string does not end well. -/
theorem keyUsable_of_endsWell {id message : String} {r : Json} {key : Option Json}
    (h : (ProfileOp.encryptMessageForRoom id message).EndsWell encryptMessageSymmetric (.save p))
    (hfind : p.findById id = .ok (some r)) (hkey : Js.prop (some r) "symmetric_key" = .ok key)
    (hthrows : encryptMessageSymmetric message key = .error .typeError) :
    ∃ s, key = some (.str s) := by
  have hrun : ((ProfileOp.encryptMessageForRoom id message).run encryptMessageSymmetric
      (.save p)).1 = .error .typeError := by
    show ((p.encryptMessageForRoom encryptMessageSymmetric id message).map fun _ => ()) = _
    unfold UntypedProfile.encryptMessageForRoom
    rw [hfind]
    show ((Js.prop (some r) "symmetric_key" >>= encryptMessageSymmetric message).map _) = _
    rw [hkey]
    show ((encryptMessageSymmetric message key).map _) = _
    rw [hthrows]
    rfl
  rcases h _ hrun with ⟨text, -, htext⟩ | ⟨id', message', hop, p', room, key', hs, hfind', hkey', -,
    hstring⟩
  · cases htext
  · obtain ⟨rfl, rfl⟩ := ProfileOp.encryptMessageForRoom.inj hop
    obtain rfl := Option.some.inj hs
    obtain rfl := Option.some.inj (Except.ok.inj (hfind.symm.trans hfind'))
    obtain rfl := Except.ok.inj (hkey.symm.trans hkey')
    exact hstring rfl

theorem operable_of_endsWell {v : Option Json} (hp : p.contacts = .ofJson v)
    (h : ∀ op : ProfileOp, op.EndsWell encryptMessageSymmetric (.save p)) :
    Operable encryptMessageSymmetric p := by
  obtain ⟨publicRooms, hpublic, hpublicKeys⟩ := usable_of_addRoom "public" "symmetric_key"
    fun text => ⟨IRoom.toJson ⟨"", "", "", text⟩,
      (h (.addPublicRoom ⟨"", "", "", text⟩)).ne_typeError rfl (by simp)⟩
  obtain ⟨privateRooms, hprivate, hprivateKeys⟩ := usable_of_addRoom "private" "symmetric_key"
    fun text => ⟨IRoom.toJson ⟨"", "", "", text⟩,
      (h (.addPrivateRoom ⟨"", "", "", text⟩)).ne_typeError rfl (by simp)⟩
  obtain ⟨directRooms, hdirect, hrecipients⟩ := usable_of_addRoom "direct" "recipient_public_key"
    fun text => ⟨IDirectRoom.toJson ⟨"", "", "", "", text, "", ""⟩,
      (h (.addDirectRoom ⟨"", "", "", "", text, "", ""⟩)).ne_typeError rfl (by simp)⟩
  have hlists : p.Lists publicRooms privateRooms directRooms := ⟨hpublic, hprivate, hdirect⟩
  -- a search for an id that no room has goes through all of them
  have hids : ∀ r ∈ publicRooms ++ privateRooms ++ directRooms, Comparable r "id" := by
    refine comparable_of_fresh fun n hfind => ?_
    refine (h (.getRoomById (freshText n))).of_reads (x := p.getRoomById (freshText n)) rfl
      (by simp) ?_
    unfold UntypedProfile.getRoomById
    rw [UntypedProfile.findById_eq hlists, hfind]
    rfl
  have hdirectKeys := comparable_of_keyExchangeRooms hdirect
    ((h .getAllRoomsAvailableForKeyExchange).of_reads rfl (by simp))
  refine ⟨⟨publicRooms, privateRooms, directRooms, hlists, hids, fun r hr => ?_, hrecipients, ?_⟩,
    contacts_of_insert hp fun name publicKey e =>
      (h (.insertTrustedContact name publicKey)).of_writes rfl (by simp)⟩
  · rcases List.mem_append.mp hr with hr | hr
    · exact (List.mem_append.mp hr).elim (hpublicKeys r) (hprivateKeys r)
    · exact hdirectKeys r hr
  · intro id message r hr key hkey hthrows
    have hfind : p.findById id = .ok (some r) := by
      rw [UntypedProfile.findById_eq hlists, findByProp_of_comparable hids, hr]
    exact keyUsable_of_endsWell (h (.encryptMessageForRoom id message)) hfind hkey hthrows

end

/-! ## The validation -/

section

variable {v : Json} {encryptMessageSymmetric : String → Option Json → Except Exn String}

namespace ProfileManager.Untyped

/-- Places are no names of fields. -/
theorem interfaceKeys_not_places (n : ℕ) :
    interfaceKeys.all (· ∈ (List.range n).map toString) = false := by
  rw [Bool.eq_false_iff]
  intro hall
  have hmem := of_decide_eq_true (List.all_eq_true.mp hall "rooms" (by decide))
  obtain ⟨i, -, hi⟩ := List.mem_map.mp hmem
  exact toString_ne ⟨'r', by decide, by decide⟩ i hi

theorem validateFormat_places {n : ℕ}
    (h : Js.objectKeys (some v) = .ok ((List.range n).map toString)) :
    validateFormat v = .ok false := by
  unfold validateFormat
  rw [h]
  show (if _ then _ else _) = _
  split
  · rfl
  · rw [if_pos (by rw [interfaceKeys_not_places]; exact Bool.false_ne_true)]
    rfl

theorem objectKeys_of_ne_null (h : v ≠ .null) : ∃ keys, Js.objectKeys (some v) = .ok keys := by
  cases v with
  | null => exact absurd rfl h
  | bool b => exact ⟨_, rfl⟩
  | num x => exact ⟨_, rfl⟩
  | str s => exact ⟨_, rfl⟩
  | arr xs => exact ⟨_, rfl⟩
  | obj fields => exact ⟨_, rfl⟩

/-- The validation of the names of the rooms' fields. -/
def validateRooms (rooms : Json) : Except Exn Bool := do
  let roomKeys ← Js.objectKeys (some rooms)
  if roomKeys.length ≠ 3 then pure false
  else pure (roomInterfaceKeys.all (· ∈ roomKeys))

theorem validateRooms_total_iff {rooms : Json} :
    (∃ b, validateRooms rooms = .ok b) ↔ rooms ≠ .null := by
  by_cases hnull : rooms = .null
  · subst hnull
    exact iff_of_false (by rintro ⟨b, hb⟩; cases hb) fun h => h rfl
  · refine iff_of_true ?_ hnull
    obtain ⟨keys, hkeys⟩ := objectKeys_of_ne_null hnull
    unfold validateRooms
    rw [hkeys]
    show ∃ b, (if keys.length ≠ 3 then _ else _ : Except Exn Bool) = .ok b
    split
    · exact ⟨false, rfl⟩
    · exact ⟨_, rfl⟩

section

variable {fields : List (String × Json)}

theorem validateFormat_obj_rejected
    (h : ¬ (fields.length = 9 ∧ ∀ key ∈ interfaceKeys, key ∈ fields.map Prod.fst)) :
    validateFormat (.obj fields) = .ok false ∧ HasRooms (.obj fields) := by
  refine ⟨?_, by simp, fun fields' heq hlength hmem => ?_⟩
  · show (if (fields.map Prod.fst).length ≠ 9 then pure false
      else if ¬ interfaceKeys.all (· ∈ fields.map Prod.fst) then pure false else _) = _
    rw [List.length_map]
    by_cases hlength : fields.length = 9
    · rw [if_neg (not_not.mpr hlength), if_pos ?_]
      · rfl
      · intro hall
        exact h ⟨hlength, fun key hkey => of_decide_eq_true (List.all_eq_true.mp hall key hkey)⟩
    · rw [if_pos hlength]
      rfl
  · obtain rfl := Json.obj.inj heq
    exact absurd ⟨hlength, hmem⟩ h

theorem validateFormat_obj_fields (hlength : fields.length = 9)
    (hmem : ∀ key ∈ interfaceKeys, key ∈ fields.map Prod.fst) {rooms : Json}
    (hrooms : fields.lookup "rooms" = some rooms) :
    validateFormat (.obj fields) = validateRooms rooms ∧
      (HasRooms (.obj fields) ↔ rooms ≠ .null) := by
  constructor
  · have hall : interfaceKeys.all (· ∈ fields.map Prod.fst) = true :=
      List.all_eq_true.mpr fun key hkey => decide_eq_true (hmem key hkey)
    show (if (fields.map Prod.fst).length ≠ 9 then pure false
      else if ¬ interfaceKeys.all (· ∈ fields.map Prod.fst) then pure false else _) = _
    rw [List.length_map, if_neg (not_not.mpr hlength), if_neg (not_not.mpr hall)]
    have hprop : Js.prop (some (.obj fields)) "rooms" = .ok (some rooms) := congrArg Except.ok hrooms
    rw [hprop]
    rfl
  · constructor
    · rintro ⟨-, h⟩ rfl
      exact h fields rfl hlength hmem hrooms
    · intro hne
      refine ⟨by simp, fun fields' heq _ _ hnull => hne ?_⟩
      obtain rfl := Json.obj.inj heq
      exact Option.some.inj (hrooms.symm.trans hnull)

end

/-- The validation fails on `null`, and on `null` in the place of the rooms. -/
theorem validateFormat_total_iff : (∃ b, validateFormat v = .ok b) ↔ HasRooms v := by
  cases v with
  | null => exact iff_of_false (by rintro ⟨b, hb⟩; cases hb) fun h => h.1 rfl
  | bool b => exact iff_of_true ⟨false, rfl⟩ ⟨by simp, fun fields h => by cases h⟩
  | num x => exact iff_of_true ⟨false, rfl⟩ ⟨by simp, fun fields h => by cases h⟩
  | str s =>
      exact iff_of_true ⟨false, validateFormat_places rfl⟩ ⟨by simp, fun fields h => by cases h⟩
  | arr xs =>
      exact iff_of_true ⟨false, validateFormat_places rfl⟩ ⟨by simp, fun fields h => by cases h⟩
  | obj fields =>
      by_cases hnames : fields.length = 9 ∧ ∀ key ∈ interfaceKeys, key ∈ fields.map Prod.fst
      · obtain ⟨hlength, hmem⟩ := hnames
        obtain ⟨rooms, hrooms⟩ := keys_lookup (hmem "rooms" (by decide))
        obtain ⟨hvalid, hhas⟩ := validateFormat_obj_fields hlength hmem hrooms
        rw [hvalid, hhas]
        exact validateRooms_total_iff
      · obtain ⟨hvalid, hhas⟩ := validateFormat_obj_rejected hnames
        exact iff_of_true ⟨false, hvalid⟩ hhas

/-- What is accepted is an object. -/
theorem validateFormat_obj (h : validateFormat v = .ok true) : ∃ fields, v = .obj fields := by
  cases v with
  | null => cases h
  | bool b => cases h
  | num x => cases h
  | str s => cases (validateFormat_places rfl).symm.trans h
  | arr xs => cases (validateFormat_places rfl).symm.trans h
  | obj fields => exact ⟨fields, rfl⟩

end ProfileManager.Untyped

theorem recoverProfile_of_deepClone {fields : List (String × Json)} (h : Js.deepClone v = .obj fields)
    (s : ProfileStore) : s.recoverProfile v = .save (.ofFields fields) := by
  rw [ProfileStore.recoverProfile, h]

theorem soundAndTotal_of_operable (hrooms : HasRooms v)
    (hoperable : ProfileManager.Untyped.validateFormat v = .ok true →
      ∀ fields, Js.deepClone v = .obj fields →
        Operable encryptMessageSymmetric (.ofFields fields)) :
    SoundAndTotal encryptMessageSymmetric v := by
  refine ⟨ProfileManager.Untyped.validateFormat_total_iff.mpr hrooms, fun hvalid s ops op => ?_,
    fun s root leaves ⟨e, he⟩ => ?_⟩
  · obtain ⟨fields, rfl⟩ := ProfileManager.Untyped.validateFormat_obj hvalid
    rw [recoverProfile_of_deepClone rfl]
    obtain ⟨p, hp, hrun⟩ := (hoperable hvalid _ rfl).runAll (s := .save _) rfl ops
    exact (hrun.step hp op).1
  · unfold ProfileStore.recover_profile at he ⊢
    split at he
    · rfl
    · rfl
    · cases he

/-- The validation is sound and total on a value exactly when it does not fail on it, and the copy
    of a value that it accepts is a profile that the operations can work on. -/
theorem soundAndTotal_iff (encryptMessageSymmetric : String → Option Json → Except Exn String)
    (v : Json) : SoundAndTotal encryptMessageSymmetric v ↔
      HasRooms v ∧ (ProfileManager.Untyped.validateFormat v = .ok true →
        ∀ fields, Js.deepClone v = .obj fields →
          Operable encryptMessageSymmetric (.ofFields fields)) := by
  refine ⟨fun ⟨htotal, hsound, _⟩ => ?_, fun h => soundAndTotal_of_operable h.1 h.2⟩
  refine ⟨ProfileManager.Untyped.validateFormat_total_iff.mp htotal, fun hvalid fields hfields => ?_⟩
  refine operable_of_endsWell (v := fields.lookup "contacts") rfl fun op => ?_
  have hop := hsound hvalid {} [] op
  rwa [recoverProfile_of_deepClone hfields] at hop

end

/-! ## Profiles of the declared type -/

section

variable {encryptMessageSymmetric : String → Option Json → Except Exn String}

theorem IRooms.mem_toJson {rooms : IRooms} {r : Json} (hr : r ∈ rooms.publicRooms.map IRoom.toJson
      ++ rooms.privateRooms.map IRoom.toJson ++ rooms.directRooms.map IDirectRoom.toJson) :
    ∃ fields id symmetric_key, r = .obj fields ∧ fields.lookup "id" = some (.str id) ∧
      fields.lookup "symmetric_key" = some (.str symmetric_key) := by
  rcases List.mem_append.mp hr with hr | hr
  · rcases List.mem_append.mp hr with hr | hr
    · obtain ⟨room, -, rfl⟩ := List.mem_map.mp hr
      exact ⟨_, _, _, rfl, rfl, rfl⟩
    · obtain ⟨room, -, rfl⟩ := List.mem_map.mp hr
      exact ⟨_, _, _, rfl, rfl, rfl⟩
  · obtain ⟨room, -, rfl⟩ := List.mem_map.mp hr
    exact ⟨_, _, _, rfl, rfl, rfl⟩

theorem IRooms.usable (rooms : IRooms) : RoomsUsable encryptMessageSymmetric
    (rooms.publicRooms.map IRoom.toJson ++ rooms.privateRooms.map IRoom.toJson
      ++ rooms.directRooms.map IDirectRoom.toJson) (rooms.directRooms.map IDirectRoom.toJson) where
  id r hr := by
    obtain ⟨fields, id, symmetric_key, rfl, hid, -⟩ := mem_toJson hr
    exact comparable_str hid
  symmetric_key r hr := by
    obtain ⟨fields, id, symmetric_key, rfl, -, hkey⟩ := mem_toJson hr
    exact comparable_str hkey
  recipient_public_key r hr := by
    obtain ⟨room, -, rfl⟩ := List.mem_map.mp hr
    exact comparable_str rfl
  keys id message r hr key hprop _ := by
    obtain ⟨fields, id', symmetric_key, rfl, -, hkey⟩ := mem_toJson (List.mem_of_find?_eq_some hr)
    exact ⟨symmetric_key, (Except.ok.inj hprop).symm.trans hkey⟩

theorem ITrustedContactsMap.comparable_publicKey (contacts : ITrustedContactsMap) {name : String}
    {c : Json} (h : (contacts.entries.map fun f => (f.1, f.2.toJson)).lookup name = some c) :
    Comparable c "publicKey" := by
  obtain ⟨l₁, l₂, hl, -⟩ := List.lookup_eq_some_iff.mp h
  have hmem : (name, c) ∈ contacts.entries.map fun f => (f.1, f.2.toJson) := by simp [hl]
  obtain ⟨f, -, hf⟩ := List.mem_map.mp hmem
  obtain ⟨-, rfl⟩ := Prod.mk.inj hf
  exact comparable_str rfl

/-- What has the declared type can be worked on, once it has contacts. -/
theorem operable_ofProfile {p : IProfile} {contacts : ITrustedContactsMap}
    (h : p.contacts = some contacts) : Operable encryptMessageSymmetric (.ofProfile p) := by
  have hrooms : (UntypedProfile.ofProfile p).fields.lookup "rooms" = some p.rooms.toJson := rfl
  have hcontacts : p.fields.lookup "contacts" = some contacts.toJson := by
    obtain ⟨_, _, _, _, _, _, _, username, user_id⟩ := p
    obtain rfl := h
    rfl
  refine ⟨⟨_, _, _, ⟨?_, ?_, ?_⟩, p.rooms.usable⟩, _, ?_, fun name c => contacts.comparable_publicKey⟩
  · exact UntypedProfile.rooms_eq_arr_iff.mpr ⟨_, hrooms, rfl⟩
  · exact UntypedProfile.rooms_eq_arr_iff.mpr ⟨_, hrooms, rfl⟩
  · exact UntypedProfile.rooms_eq_arr_iff.mpr ⟨_, hrooms, rfl⟩
  · show ContactsValue.ofJson (p.fields.lookup "contacts") = _
    rw [hcontacts]
    rfl

/-- On the profiles that a client has, the validation is sound and total; where fields are missing
    it says no. -/
theorem soundAndTotal_of_profile (p : IProfile) : SoundAndTotal encryptMessageSymmetric p.toJson := by
  have hrooms := ProfileManager.Untyped.validateFormat_total_iff.mp ⟨_, validateFormat_toJson p⟩
  refine soundAndTotal_of_operable hrooms fun hvalid fields hfields => ?_
  rw [p.readable_toJson.deepClone_eq] at hfields
  obtain rfl := Json.obj.inj hfields
  rw [validateFormat_toJson] at hvalid
  have hisSome : p.contacts.isSome = true := by
    have h := Except.ok.inj hvalid
    rw [ProfileManager.validateFormat, Bool.and_eq_true, Bool.and_eq_true] at h
    exact h.1.1
  obtain ⟨contacts, hcontacts⟩ := Option.isSome_iff_exists.mp hisSome
  exact operable_ofProfile hcontacts

end

/-! ## A profile without contacts -/

namespace Demo

/-- All the fields are there; the contacts are `null`. -/
def nullContacts : Json :=
  .obj [("rln_identity_commitment", .str "1"), ("root_hash", .str "2"), ("leaves", .arr []),
    ("user_private_key", .str "sk"), ("user_public_key", .str "pk"),
    ("rooms", .obj [("public", .arr []), ("private", .arr []), ("direct", .arr [])]),
    ("contacts", .null), ("username", .str ""), ("user_id", .num (.finite 1))]

end Demo

/-- The profile is accepted, and then no contact can be added to it. -/
theorem null_contacts_accepted :
    ¬ ∀ (encryptMessageSymmetric : String → Option Json → Except Exn String) (v : Json),
      SoundAndTotal encryptMessageSymmetric v := by
  intro h
  have hvalid : ProfileManager.Untyped.validateFormat Demo.nullContacts = .ok true := by rfl
  have hop := (h (fun _ _ => .ok "") Demo.nullContacts).sound hvalid {} []
    (.insertTrustedContact "bob" "key")
  have hthrows : ((ProfileOp.insertTrustedContact "bob" "key").run (fun _ _ => .ok "")
      (ProfileStore.recoverProfile Demo.nullContacts {})).1 = .error .typeError := by rfl
  rcases hop _ hthrows with ⟨text, -, htext⟩ | ⟨id, message, hencrypt, -⟩
  · cases htext
  · cases hencrypt

end ZkChat
