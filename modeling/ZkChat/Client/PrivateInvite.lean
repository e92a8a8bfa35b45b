import ZkChat.Client.Encryption
import ZkChat.Client.RoomIds
import ZkChat.Client.UntypedProfile
import ZkChat.Js.Utf16Json

set_option autoImplicit false

/-! # Invites to private rooms

An invite is the JSON text of the key, the id and the name of a room, encrypted as one byte of each
code unit. What is checked when the room is created is the length of the name; what the cipher is
given are the bytes of the whole text. So an invite works if the text is short enough and made of
bytes (`inviteWorks_iff`). -/

namespace ZkChat

namespace Js.Utf16

def units (s : String) : List UInt16 := (codeUnits s).map .ofNat

mutual

/-- `value.toString()`. -/
def valueText : Value → Option (List UInt16)
  | .scalar v => (jsonText v).map units
  | .str s => some s
  | .arr xs => (elementTexts xs).map [0x2C].intercalate
  | .obj fields =>
      if fields.any (·.1 = units "toString") then none else some (units "[object Object]")

def elementTexts : List Value → Option (List (List UInt16))
  | [] => some []
  | .scalar .null :: xs => (elementTexts xs).map ([] :: ·)
  | x :: xs => (valueText x).bind fun t => (elementTexts xs).map (t :: ·)

end

/-- `v == text`. A number is compared with the number of the text, in which a surrogate is as wrong
    as any other character. -/
def looseEq (v : Option Value) (text : List UInt16) : Except Exn Bool :=
  match v with
  | none => .ok false
  | some (.scalar v) => Js.looseEq (some v) (String.ofList (decodeUtf16 (text.map (·.toNat))))
  | some (.str s) => .ok (s = text)
  | some v => match valueText v with
    | some t => .ok (t = text)
    | none => .error .typeError

/-- What an array pattern runs through. -/
def iterate : Value → Except Exn (List Value)
  | .arr xs => .ok xs
  | .str s => .ok ((codePoints s).map fun p => .str p.units)
  | .scalar _ | .obj _ => .error .typeError

end Js.Utf16

open WebCryptography.Utf16
open Js.Utf16 (Value IsWrittenInBytes escapedLength stringifyStrings)

namespace Utf16

/-! ## The calls -/

/-- The fields of rooms that invites are about; those that come from an invite can be anything. -/
structure IPrivateRoom (τ : Type) where
  id : τ
  name : τ
  type : String
  symmetric_key : τ

/-- The room as a profile stores it. -/
def IPrivateRoom.stored (room : IPrivateRoom JsString) : IPrivateRoom (Option Value) where
  id := some (.str room.id)
  name := some (.str room.name)
  type := room.type
  symmetric_key := some (.str room.symmetric_key)

/-- `inMemoryProfile.rooms`. -/
structure IRooms where
  publicRooms : List (IPrivateRoom JsString)
  privateRooms : List (IPrivateRoom JsString)
  directRooms : List (IPrivateRoom JsString)

/-- In the order in which they are searched. -/
def IRooms.all (rooms : IRooms) : List (IPrivateRoom JsString) :=
  rooms.publicRooms ++ rooms.privateRooms ++ rooms.directRooms

def getRoomById (rooms : IRooms) (id : JsString) : Except Exn (IPrivateRoom JsString) :=
  match rooms.all.find? fun r => r.id = id with
  | some r => .ok r
  | none => .error (.text "Room doesn't exist")

/-- The room is returned, and is in the profile afterwards. -/
def create_private_room (name room_id symmetric_key : JsString) (rooms : IRooms) :
    Except Exn (IPrivateRoom JsString × IRooms) :=
  if ProfileManager.ROOM_NAME_MAX_LENGTH < name.length then
    .error (.text ("Room name cannot have more than "
      ++ toString ProfileManager.ROOM_NAME_MAX_LENGTH ++ " characters"))
  else do
    let room : IPrivateRoom JsString := { id := room_id, name, type := "PRIVATE", symmetric_key }
    let privateRooms ←
      ProfileManager.addUnless (fun r => r.symmetric_key = symmetric_key) rooms.privateRooms room
    pure (room, { rooms with privateRooms })

/-- The search of `addPrivateRoom`. -/
def hasKey (symmetric_key : Option Value) : List (IPrivateRoom JsString) → Except Exn Bool
  | [] => .ok false
  | r :: rs => do
      if ← Js.Utf16.looseEq symmetric_key r.symmetric_key then pure true
      else hasKey symmetric_key rs

section

variable {κ π σ : Type} (crypto : SubtleCrypto κ π σ)

def invite_private_room (rooms : IRooms) (room_id recipient_public_key : JsString) :
    Except Exn JsString := do
  let room ← getRoomById rooms room_id
  let data_to_encrypt := stringifyStrings [room.symmetric_key, room.id, room.name]
  encryptMessageAsymmetric crypto data_to_encrypt recipient_public_key

/-- What follows the decryption: the room is returned, and added to the private rooms. -/
def joinDecrypted (privateRooms : List (IPrivateRoom JsString)) (text : JsString) :
    Except Exn (IPrivateRoom (Option Value) × List (IPrivateRoom (Option Value))) :=
  match Js.Utf16.jsonParse text with
  | none => .error .syntaxError
  | some data => do
      let xs ← Js.Utf16.iterate data
      let room : IPrivateRoom (Option Value) :=
        { id := xs[1]?, name := xs[2]?, type := "PRIVATE", symmetric_key := xs[0]? }
      if ← hasKey room.symmetric_key privateRooms then throw (.text "Room already exists")
      else pure (room, privateRooms.map IPrivateRoom.stored ++ [room])

def join_private_room (privateRooms : List (IPrivateRoom JsString))
    (encrypted_invite user_private_key : JsString) :
    Except Exn (IPrivateRoom (Option Value) × List (IPrivateRoom (Option Value))) := do
  let text ← decryptMessageAsymmetric crypto encrypted_invite user_private_key
  joinDecrypted privateRooms text

/-- The keys are imported as a pair that encrypts whatever has at most `limit` bytes, and nothing
    else. -/
def EncryptsUpTo (publicKey privateKey : JsString) (limit : ℕ) : Prop :=
  ∃ p s, importPublicKey crypto publicKey = .ok p ∧ importPrivateKey crypto privateKey = .ok s ∧
    (∀ data : List UInt8, data.length ≤ limit →
      (crypto.encryptOaep p data >>= crypto.decryptOaep s) = .ok data) ∧
    ∀ data : List UInt8, limit < data.length → ∃ e, crypto.encryptOaep p data = .error e

/-- A room can be invited to; who joins gets it as it is, and has it among the private rooms. -/
def InviteWorks (rooms : IRooms) (room : IPrivateRoom JsString) (publicKey privateKey : JsString)
    (recipient : List (IPrivateRoom JsString)) : Prop :=
  ∃ invite, invite_private_room crypto rooms room.id publicKey = .ok invite ∧
    join_private_room crypto recipient invite privateKey
      = .ok (room.stored, recipient.map IPrivateRoom.stored ++ [room.stored])

end

/-! ## Strings that are well formed -/

theorem units_injective : Function.Injective Js.Utf16.units := by
  have hbound : ∀ (s : String), ∀ u ∈ Js.codeUnits s, u < 2 ^ 16 := by
    intro s u hu
    obtain ⟨c, -, hu⟩ := List.mem_flatMap.mp hu
    have hvalid : c.toNat < 0xD800 ∨ 0xDFFF < c.toNat ∧ c.toNat < 0x110000 := c.valid
    unfold Js.utf16 at hu
    split at hu
    · obtain rfl := List.mem_singleton.mp hu
      omega
    · simp only [List.mem_cons, List.not_mem_nil, or_false] at hu
      omega
  have hunits : ∀ s : String, (Js.Utf16.units s).map UInt16.toNat = Js.codeUnits s := by
    intro s
    rw [Js.Utf16.units, List.map_map]
    refine (List.map_congr_left fun u hu => ?_).trans (List.map_id _)
    exact UInt16.toNat_ofNat_of_lt (hbound s u hu)
  intro s s' h
  have hcode : Js.codeUnits s = Js.codeUnits s' := by rw [← hunits s, ← hunits s', h]
  have hlist := congrArg Js.decodeUtf16 hcode
  rw [Js.codeUnits, Js.codeUnits, Js.decodeUtf16_flatMap, Js.decodeUtf16_flatMap] at hlist
  exact String.toList_injective hlist

def IPrivateRoom.ofChatRoom : ChatRoom → IPrivateRoom JsString
  | .room r => { id := Js.Utf16.units r.id, name := Js.Utf16.units r.name, type := r.type
                 symmetric_key := Js.Utf16.units r.symmetric_key }
  | .direct r => { id := Js.Utf16.units r.id, name := Js.Utf16.units r.name, type := r.type
                   symmetric_key := Js.Utf16.units r.symmetric_key }

def IRooms.ofProfile (rooms : ZkChat.IRooms) : IRooms where
  publicRooms := rooms.publicRooms.map fun r => .ofChatRoom (.room r)
  privateRooms := rooms.privateRooms.map fun r => .ofChatRoom (.room r)
  directRooms := rooms.directRooms.map fun r => .ofChatRoom (.direct r)

/-- On them, the look-up is the one of `ProfileManager`. -/
theorem getRoomById_units (rooms : ZkChat.IRooms) (id : String) :
    getRoomById (.ofProfile rooms) (Js.Utf16.units id)
      = (ProfileManager.getRoomById rooms id).map .ofChatRoom := by
  have hall : (IRooms.ofProfile rooms).all = rooms.all.map .ofChatRoom := by
    simp [IRooms.all, IRooms.ofProfile, ZkChat.IRooms.all, Function.comp_def]
  have hid : ∀ r : ChatRoom,
      ((IPrivateRoom.ofChatRoom r).id = Js.Utf16.units id) ↔ r.id = id := by
    rintro (r | r) <;> exact units_injective.eq_iff
  have hfind : (rooms.all.map IPrivateRoom.ofChatRoom).find? (fun r => r.id = Js.Utf16.units id)
      = (rooms.lookup id).map .ofChatRoom := by
    rw [List.find?_map, ZkChat.IRooms.lookup]
    simp only [Function.comp_def, hid]
  rw [getRoomById, hall, hfind, ZkChat.getRoomById_eq]
  cases rooms.lookup id <;> rfl

theorem any_symmetric_key_units (rooms : ZkChat.IRooms) (symmetric_key : String) :
    ((IRooms.ofProfile rooms).privateRooms.any fun r =>
        r.symmetric_key = Js.Utf16.units symmetric_key)
      = rooms.privateRooms.any fun r => r.symmetric_key = symmetric_key := by
  rw [IRooms.ofProfile, List.any_map]
  refine congrArg _ (funext fun r => ?_)
  exact decide_eq_decide.mpr units_injective.eq_iff

/-- A private room is created as the client creates it. -/
theorem create_private_room_units (name room_id symmetric_key : String) (rooms : ZkChat.IRooms) :
    create_private_room (Js.Utf16.units name) (Js.Utf16.units room_id)
        (Js.Utf16.units symmetric_key) (.ofProfile rooms)
      = (ZkChat.create_private_room name room_id symmetric_key rooms).map fun rooms' =>
          (.ofChatRoom (.room { id := room_id, name, type := "PRIVATE", symmetric_key }),
            .ofProfile rooms') := by
  have hlength : (Js.Utf16.units name).length = (Js.codeUnits name).length := List.length_map _
  unfold create_private_room ZkChat.create_private_room ProfileManager.checkName
    ProfileManager.addPrivateRoom ProfileManager.addUnless
  rw [hlength, any_symmetric_key_units]
  split
  · rfl
  · show _ = Except.map _ (Except.ok () >>= _)
    cases rooms.privateRooms.any fun r => r.symmetric_key = symmetric_key with
    | true => rfl
    | false => simp [IRooms.ofProfile, IPrivateRoom.ofChatRoom, bind, Except.bind, pure, Except.pure,
        Except.map]

/-! ## The sender -/

theorem create_private_room_eq_ok {name room_id symmetric_key : JsString} {rooms rooms' : IRooms}
    {room : IPrivateRoom JsString}
    (h : create_private_room name room_id symmetric_key rooms = .ok (room, rooms')) :
    room = { id := room_id, name, type := "PRIVATE", symmetric_key } ∧
      rooms' = { rooms with privateRooms := rooms.privateRooms ++ [room] } := by
  rw [create_private_room] at h
  split at h
  · cases h
  · obtain ⟨privateRooms, hadd, h⟩ := Except.bind_ok_iff.mp h
    cases h
    obtain ⟨-, rfl⟩ := ProfileManager.addUnless_eq_ok.mp hadd
    exact ⟨rfl, rfl⟩

/-- A room with a new id is found under it. -/
theorem getRoomById_created {rooms : IRooms} {room : IPrivateRoom JsString}
    (hnew : ∀ r ∈ rooms.all, r.id ≠ room.id) :
    getRoomById { rooms with privateRooms := rooms.privateRooms ++ [room] } room.id = .ok room := by
  have hbefore : (rooms.publicRooms ++ rooms.privateRooms).find? (fun r => r.id = room.id)
      = none := by
    rw [List.find?_eq_none]
    exact fun r hr => by simpa using hnew r (List.mem_append_left _ hr)
  rw [getRoomById, IRooms.all, ← List.append_assoc, List.append_assoc, List.find?_append, hbefore]
  simp

/-! ## The recipient -/

theorem hasKey_str (key : JsString) (rooms : List (IPrivateRoom JsString)) :
    hasKey (some (.str key)) rooms = .ok (rooms.any fun r => key = r.symmetric_key) := by
  induction rooms with
  | nil => rfl
  | cons r rs ih =>
      show (if decide (key = r.symmetric_key) then pure true else hasKey _ rs) = _
      rw [List.any_cons]
      by_cases hsame : key = r.symmetric_key
      · simp [hsame]
        rfl
      · simp [hsame, ih]

/-- The invite is decrypted to the bytes of its text. -/
theorem isBytes_ab2str (buf : List UInt8) : Js.Utf16.IsBytes (ab2str buf) := by
  intro u hu
  obtain ⟨b, -, rfl⟩ := List.mem_map.mp hu
  exact toUInt16_lt b

/-- What is joined from the text of a room. -/
theorem joinDecrypted_text {room : IPrivateRoom JsString} (htype : room.type = "PRIVATE")
    (privateRooms : List (IPrivateRoom JsString)) :
    joinDecrypted privateRooms (stringifyStrings [room.symmetric_key, room.id, room.name])
      = if privateRooms.any fun r => room.symmetric_key = r.symmetric_key then
          .error (.text "Room already exists")
        else .ok (room.stored, privateRooms.map IPrivateRoom.stored ++ [room.stored]) := by
  obtain ⟨id, name, type, key⟩ := room
  subst htype
  rw [joinDecrypted, Js.Utf16.jsonParse_stringifyStrings]
  show (hasKey (some (.str key)) privateRooms >>= _) = _
  rw [hasKey_str]
  rfl

/-- The text of three well-formed strings is joined as the client joins it. -/
theorem joinDecrypted_units (room_symmetric_key room_id room_name : String)
    (rooms : ZkChat.IRooms) {room : IPrivateRoom JsString}
    (hroom : room = .ofChatRoom (.room
      { id := room_id, name := room_name, type := "PRIVATE", symmetric_key := room_symmetric_key })) :
    joinDecrypted (IRooms.ofProfile rooms).privateRooms
        (stringifyStrings [room.symmetric_key, room.id, room.name])
      = (ZkChat.join_private_room room_symmetric_key room_id room_name rooms).map fun rooms' =>
          (room.stored, (IRooms.ofProfile rooms').privateRooms.map IPrivateRoom.stored) := by
  subst hroom
  rw [joinDecrypted_text rfl]
  simp only [eq_comm (a := (IPrivateRoom.ofChatRoom _).symmetric_key)]
  show (if ((IRooms.ofProfile rooms).privateRooms.any fun r =>
    r.symmetric_key = Js.Utf16.units room_symmetric_key) = true then _ else _) = _
  rw [any_symmetric_key_units]
  unfold ZkChat.join_private_room ProfileManager.addPrivateRoom ProfileManager.addUnless
  cases rooms.privateRooms.any fun r => r.symmetric_key = room_symmetric_key with
  | true => rfl
  | false => simp [IRooms.ofProfile, IPrivateRoom.ofChatRoom, bind, Except.bind, pure, Except.pure,
      Except.map]

/-- A room that is joined has three strings from an array of the text. -/
theorem components_of_joinDecrypted {room : IPrivateRoom JsString} {us : List UInt16}
    (hus : Js.Utf16.IsBytes (0x5B :: us)) {privateRooms : List (IPrivateRoom JsString)}
    {rooms : List (IPrivateRoom (Option Value))}
    (h : joinDecrypted privateRooms (0x5B :: us) = .ok (room.stored, rooms)) :
    ∃ xs, Js.Utf16.jsonParse (0x5B :: us)
      = some (.arr (.str room.symmetric_key :: .str room.id :: .str room.name :: xs)) := by
  rw [joinDecrypted] at h
  split at h
  · cases h
  · next data hparse =>
      obtain ⟨xs, rfl⟩ := Js.Utf16.exists_arr_of_jsonParse hparse hus
      obtain ⟨ys, hys, h⟩ := Except.bind_ok_iff.mp h
      cases hys
      obtain ⟨present, -, h⟩ := Except.bind_ok_iff.mp h
      split at h
      · cases h
      · have hroom := congrArg Prod.fst (Except.ok.inj h)
        have hkey : xs[0]? = some (.str room.symmetric_key) :=
          congrArg IPrivateRoom.symmetric_key hroom
        have hid : xs[1]? = some (.str room.id) := congrArg IPrivateRoom.id hroom
        have hname : xs[2]? = some (.str room.name) := congrArg IPrivateRoom.name hroom
        match xs, hkey, hid, hname with
        | _ :: _ :: _ :: xs, hkey, hid, hname =>
            cases hkey
            cases hid
            cases hname
            exact ⟨xs, hparse⟩

/-! ## Invites -/

section

variable {κ π σ : Type} {crypto : SubtleCrypto κ π σ}

theorem EncryptsUpTo.keyPair {publicKey privateKey : JsString} {limit : ℕ}
    (h : EncryptsUpTo crypto publicKey privateKey limit) :
    KeyPair crypto publicKey privateKey limit := by
  obtain ⟨p, s, hp, hs, hinverse, -⟩ := h
  exact ⟨p, s, hp, hs, hinverse⟩

theorem EncryptsUpTo.refuses {publicKey privateKey : JsString} {limit : ℕ}
    (h : EncryptsUpTo crypto publicKey privateKey limit) {message : JsString}
    (hlong : limit < message.length) (cyphertext : JsString) :
    encryptMessageAsymmetric crypto message publicKey ≠ .ok cyphertext := by
  obtain ⟨p, s, hp, -, -, hrefuse⟩ := h
  obtain ⟨e, he⟩ := hrefuse (str2ab message) (by rwa [str2ab, List.length_map])
  rw [encryptMessageAsymmetric, hp]
  show (crypto.encryptOaep p (str2ab message) >>= _) ≠ _
  rw [he]
  intro hok
  cases hok

variable {name room_id symmetric_key publicKey privateKey : JsString} {rooms rooms' : IRooms}
  {room : IPrivateRoom JsString} {recipient : List (IPrivateRoom JsString)}

/-- Of a text that the cipher takes, the bytes are joined. -/
theorem inviteWorks_of_le (hpair : EncryptsUpTo crypto publicKey privateKey 446)
    (hroom : getRoomById rooms room.id = .ok room)
    (hlength : (stringifyStrings [room.symmetric_key, room.id, room.name]).length ≤ 446) :
    InviteWorks crypto rooms room publicKey privateKey recipient ↔
      joinDecrypted recipient
        (ab2str (str2ab (stringifyStrings [room.symmetric_key, room.id, room.name])))
          = .ok (room.stored, recipient.map IPrivateRoom.stored ++ [room.stored]) := by
  obtain ⟨invite, hencrypt, hdecrypt⟩ :=
    Except.bind_ok_iff.mp (decrypt_encrypt_asymmetric hpair.keyPair hlength)
  have hinvite : invite_private_room crypto rooms room.id publicKey = .ok invite := by
    rw [invite_private_room, hroom]
    exact hencrypt
  have hjoin : join_private_room crypto recipient invite privateKey
      = joinDecrypted recipient
        (ab2str (str2ab (stringifyStrings [room.symmetric_key, room.id, room.name]))) := by
    rw [join_private_room, hdecrypt]
    rfl
  constructor
  · rintro ⟨invite', hinvite', hjoined⟩
    rw [hinvite] at hinvite'
    cases hinvite'
    rwa [hjoin] at hjoined
  · intro hjoined
    exact ⟨invite, hinvite, hjoin.trans hjoined⟩

/-- The bytes of a text are joined as the room if they are the text. -/
theorem joinDecrypted_bytes_iff (htype : room.type = "PRIVATE") :
    joinDecrypted recipient
        (ab2str (str2ab (stringifyStrings [room.symmetric_key, room.id, room.name])))
          = .ok (room.stored, recipient.map IPrivateRoom.stored ++ [room.stored]) ↔
      (IsWrittenInBytes room.symmetric_key ∧ IsWrittenInBytes room.id ∧
        IsWrittenInBytes room.name) ∧ ∀ r ∈ recipient, r.symmetric_key ≠ room.symmetric_key := by
  have hnew : (recipient.any fun r => room.symmetric_key = r.symmetric_key) = false ↔
      ∀ r ∈ recipient, r.symmetric_key ≠ room.symmetric_key := by
    rw [List.any_eq_false]
    simp only [decide_eq_true_eq]
    exact ⟨fun h r hr heq => h r hr heq.symm, fun h r hr heq => h r hr heq.symm⟩
  have hsame : Narrow (stringifyStrings [room.symmetric_key, room.id, room.name]) →
      joinDecrypted recipient
        (ab2str (str2ab (stringifyStrings [room.symmetric_key, room.id, room.name])))
          = if recipient.any fun r => room.symmetric_key = r.symmetric_key then
              .error (.text "Room already exists")
            else .ok (room.stored, recipient.map IPrivateRoom.stored ++ [room.stored]) := by
    intro hnarrow
    rw [(ab2str_str2ab_iff _).mpr hnarrow, joinDecrypted_text htype]
  constructor
  · intro hjoined
    have hbytes := isBytes_ab2str
      (str2ab (stringifyStrings [room.symmetric_key, room.id, room.name]))
    -- the bytes are read as the same three strings in no more units than these were written in
    obtain ⟨xs, hparse⟩ := components_of_joinDecrypted hbytes hjoined
    have hlength : (ab2str (str2ab (stringifyStrings
        [room.symmetric_key, room.id, room.name]))).length
          = (stringifyStrings [room.symmetric_key, room.id, room.name]).length := by
      rw [ab2str, str2ab, List.length_map, List.length_map]
    obtain ⟨hkey, hid, hname⟩ :=
      Js.Utf16.isWrittenInBytes_of_jsonParse hbytes hlength hparse
    refine ⟨⟨hkey, hid, hname⟩, hnew.mp ?_⟩
    rw [hsame (Js.Utf16.isBytes_stringifyStrings hkey hid hname)] at hjoined
    split at hjoined
    · cases hjoined
    · next hany => exact Bool.not_eq_true _ ▸ hany
  · rintro ⟨⟨hkey, hid, hname⟩, hrooms⟩
    rw [hsame (Js.Utf16.isBytes_stringifyStrings hkey hid hname), hnew.mpr hrooms]
    rfl

/-- An invite to a created room works exactly if key, id and name are written in bytes, no more than
    RSA-OAEP takes, and the recipient does not have the key. -/
theorem inviteWorks_iff (hpair : EncryptsUpTo crypto publicKey privateKey 446)
    (hcreate : create_private_room name room_id symmetric_key rooms = .ok (room, rooms'))
    (huuid : ∀ r ∈ rooms.all, r.id ≠ room_id) :
    InviteWorks crypto rooms' room publicKey privateKey recipient ↔
      (IsWrittenInBytes symmetric_key ∧ IsWrittenInBytes room_id ∧ IsWrittenInBytes name) ∧
        escapedLength symmetric_key + escapedLength room_id + escapedLength name + 10 ≤ 446 ∧
          ∀ r ∈ recipient, r.symmetric_key ≠ symmetric_key := by
  obtain ⟨hroom, rfl⟩ := create_private_room_eq_ok hcreate
  have hfound : getRoomById { rooms with privateRooms := rooms.privateRooms ++ [room] } room.id
      = .ok room := getRoomById_created (by rw [hroom]; exact huuid)
  have hlength := Js.Utf16.length_stringifyStrings symmetric_key room_id name
  -- too long a text is not encrypted; what is encrypted arrives as its bytes
  rcases Nat.lt_or_ge 446
    (escapedLength symmetric_key + escapedLength room_id + escapedLength name + 10) with hlt | hle
  · refine iff_of_false ?_ (fun h => absurd h.2.1 (Nat.not_le.mpr hlt))
    rintro ⟨invite, hinvite, -⟩
    rw [← hlength] at hlt
    rw [invite_private_room, hfound, hroom] at hinvite
    exact hpair.refuses hlt invite hinvite
  · rw [← hlength] at hle
    rw [inviteWorks_of_le hpair hfound (by rw [hroom]; exact hle),
      joinDecrypted_bytes_iff (by rw [hroom]), ← hlength, hroom]
    exact ⟨fun h => ⟨h.1, hle, h.2⟩, fun h => ⟨h.1, h.2.2⟩⟩

end

/-! ## Two names -/

namespace Demo

open WebCryptography.Utf16.Demo (keyText map_sub_add)

/-- RSA-OAEP that takes 446 bytes. -/
def subtle : SubtleCrypto UInt8 UInt8 UInt8 :=
  { WebCryptography.Utf16.Demo.subtle with
    encryptOaep := fun key data =>
      if data.length ≤ 446 then .ok (data.map (· + key)) else .error (.error "OperationError") }

theorem encryptsUpTo : EncryptsUpTo subtle keyText keyText 446 := by
  refine ⟨7, 7, by decide +kernel, by decide +kernel, fun data hdata => ?_, fun data hdata => ?_⟩
  · simp only [subtle, if_pos hdata]
    exact congrArg Except.ok (map_sub_add 7 data)
  · exact ⟨_, if_neg (Nat.not_le.mpr hdata)⟩

def symmetric_key : JsString := Js.Utf16.units ProfileManager.defaultChatroom.symmetric_key

def room_id : JsString := Js.Utf16.units "1b9d6bcd-bbfd-4b2d-9b5d-ab8dfbbd4bed"

theorem written : IsWrittenInBytes symmetric_key ∧ IsWrittenInBytes room_id ∧
    escapedLength symmetric_key + escapedLength room_id = 157 := by
  decide +kernel

def room (name : JsString) : IPrivateRoom JsString where
  id := room_id
  name
  type := "PRIVATE"
  symmetric_key

theorem created {name : JsString} (h : name.length ≤ ProfileManager.ROOM_NAME_MAX_LENGTH) :
    create_private_room name room_id symmetric_key ⟨[], [], []⟩
      = .ok (room name, ⟨[], [room name], []⟩) :=
  if_neg (Nat.not_lt.mpr h)

end Demo

/-- The letter U+0161 arrives as U+0061. -/
theorem wide_name_is_lost :
    ¬ ∀ name : JsString, name.length ≤ ProfileManager.ROOM_NAME_MAX_LENGTH →
      InviteWorks Demo.subtle ⟨[], [Demo.room name], []⟩ (Demo.room name)
        WebCryptography.Utf16.Demo.keyText WebCryptography.Utf16.Demo.keyText [] := by
  intro h
  have hfound : getRoomById ⟨[], [Demo.room [0x161]], []⟩ (Demo.room [0x161]).id
      = .ok (Demo.room [0x161]) := by
    simp [getRoomById, IRooms.all]
  obtain ⟨-, -, hlength⟩ := Demo.written
  have hname : escapedLength [0x161] = 1 := by decide
  have htext : (stringifyStrings [Demo.symmetric_key, Demo.room_id, [0x161]]).length ≤ 446 := by
    rw [Js.Utf16.length_stringifyStrings, hlength, hname]
    decide
  have hjoined := (inviteWorks_of_le Demo.encryptsUpTo hfound htext).mp (h [0x161] (by decide))
  exact absurd ((joinDecrypted_bytes_iff rfl).mp hjoined).1.2.2 (by decide)

/-- A name in Latin letters of the full length. -/
theorem latin_name_arrives :
    InviteWorks Demo.subtle ⟨[], [Demo.room (List.replicate 200 0xE9)], []⟩
      (Demo.room (List.replicate 200 0xE9)) WebCryptography.Utf16.Demo.keyText
      WebCryptography.Utf16.Demo.keyText [] := by
  obtain ⟨hkey, hid, hlength⟩ := Demo.written
  have hname : escapedLength (List.replicate 200 0xE9) = 200 := by decide +kernel
  refine (inviteWorks_iff Demo.encryptsUpTo
    (Demo.created (by rw [List.length_replicate]; decide)) nofun).mpr
      ⟨⟨hkey, hid, by decide +kernel⟩, ?_, nofun⟩
  rw [hlength, hname]
  decide

end Utf16

end ZkChat
