import ZkChat.Client.Rooms

set_option autoImplicit false

/-! # The initialisation vectors

`WebCryptography` passes the first ten characters of the serialised key to AES-GCM as the
initialisation vector. A key has one serialisation, so it has one vector: what is encrypted with a
key is encrypted with that key and that vector. -/

namespace ZkChat

/-- `window.crypto.subtle`, as far as AES-GCM keys `κ` go. -/
structure WebCrypto (κ : Type) where
  /-- `importKey("jwk", …)`. -/
  importKey : Json → Except Exn κ
  /-- `exportKey("jwk", …)`. -/
  exportKey : κ → Json
  /-- `deriveKey` of a private and a public ECDH key, with the imports of the two. -/
  deriveKey : String → String → Except Exn κ
  /-- Key, initialisation vector, plaintext. -/
  encrypt : κ → List ℕ → List ℕ → List ℕ

/-- The arguments of a call of `subtle.encrypt`. -/
structure Encryption (κ : Type) where
  key : κ
  iv : List ℕ
  plaintext : List ℕ
deriving DecidableEq

namespace WebCryptography

/-- Each code unit is stored in one byte. -/
def str2ab (s : String) : List ℕ := (Js.codeUnits s).map (· % 256)

section

variable {κ : Type} (crypto : WebCrypto κ)

/-- `key` is what the generator returns. -/
def generateSymmetricKey (key : κ) : String := Js.jsonStringify (crypto.exportKey key)

def deriveSharedSecretKey (sourcePrivateKey targetPublicKey : String) : Except Exn String := do
  let derivedKey ← crypto.deriveKey sourcePrivateKey targetPublicKey
  pure (Js.jsonStringify (crypto.exportKey derivedKey))

/-- What `encryptMessageSymmetric` hands to the cipher. -/
def encryption (message symmetricKey : String) : Except Exn (Encryption κ) :=
  match Js.jsonParse symmetricKey with
  | none => .error .syntaxError
  | some jwk => do
      let importedSymmetricKey ← crypto.importKey jwk
      let iv_substring := (Js.codeUnits symmetricKey).take 10
      pure { key := importedSymmetricKey, iv := iv_substring.map (· % 256)
             plaintext := str2ab message }

/-- The bytes whose base64 text is returned. -/
def encryptMessageSymmetric (message symmetricKey : String) : Except Exn (List ℕ) := do
  let e ← encryption crypto message symmetricKey
  pure (crypto.encrypt e.key e.iv e.plaintext)

/-- Where the keys of rooms come from. -/
inductive RoomKey : String → Prop
  | generated (key : κ) : RoomKey (generateSymmetricKey crypto key)
  | defaultChatroom : RoomKey ProfileManager.defaultChatroom.symmetric_key
  | derived {sourcePrivateKey targetPublicKey text : String}
      (h : deriveSharedSecretKey crypto sourcePrivateKey targetPublicKey = .ok text) : RoomKey text

/-- What the code relies on: an exported key is imported as itself, its JWK has no numbers, no
    characters to escape and no key twice, and the key of the default room is written as keys are. -/
structure Exports : Prop where
  plain : ∀ key, Js.Plain (crypto.exportKey key)
  import_export : ∀ key, crypto.importKey (crypto.exportKey key) = .ok key
  defaultChatroom :
    ∃ key, ProfileManager.defaultChatroom.symmetric_key = generateSymmetricKey crypto key

end

/-! ## Runs -/

/-- A message that a member encrypts with the key of a room. -/
structure Encrypted where
  symmetric_key : String
  message : String

/-- The calls of the cipher in a run. -/
def encryptions {κ : Type} (crypto : WebCrypto κ) (run : List Encrypted) : List (Encryption κ) :=
  run.filterMap fun e => (encryption crypto e.message e.symmetric_key).toOption

/-- No two encryptions of different plaintexts under one key have the same vector. -/
def NoNonceReuse {κ : Type} (encryptions : List (Encryption κ)) : Prop :=
  ∀ e ∈ encryptions, ∀ e' ∈ encryptions, e.key = e'.key → e.plaintext ≠ e'.plaintext → e.iv ≠ e'.iv

section

variable {κ : Type} {crypto : WebCrypto κ}

theorem RoomKey.exported (hexports : Exports crypto) {text : String} (h : RoomKey crypto text) :
    ∃ key, text = generateSymmetricKey crypto key := by
  cases h with
  | generated key => exact ⟨key, rfl⟩
  | defaultChatroom => exact hexports.defaultChatroom
  | derived h =>
      unfold deriveSharedSecretKey at h
      cases hkey : crypto.deriveKey _ _ with
      | error e =>
          rw [hkey] at h
          cases h
      | ok key =>
          rw [hkey] at h
          cases h
          exact ⟨key, rfl⟩

/-- With the text of a key, the key is used, and the vector of its text. -/
theorem encryption_generateSymmetricKey (hexports : Exports crypto) (key : κ) (message : String) :
    encryption crypto message (generateSymmetricKey crypto key) = .ok
      { key, iv := ((Js.codeUnits (generateSymmetricKey crypto key)).take 10).map (· % 256)
        plaintext := str2ab message } := by
  rw [encryption, generateSymmetricKey, Js.jsonParse_jsonStringify (hexports.plain key)]
  dsimp only
  rw [hexports.import_export key]
  rfl

theorem mem_encryptions (hexports : Exports crypto) {run : List Encrypted} {e : Encrypted}
    (he : e ∈ run) {key : κ} (hkey : e.symmetric_key = generateSymmetricKey crypto key) :
    { key, iv := ((Js.codeUnits (generateSymmetricKey crypto key)).take 10).map (· % 256)
      plaintext := str2ab e.message } ∈ encryptions crypto run := by
  refine List.mem_filterMap.mpr ⟨e, he, ?_⟩
  rw [hkey, encryption_generateSymmetricKey hexports]
  rfl

/-- The vectors of a run differ where they have to exactly when no key is used for two plaintexts. -/
theorem noNonceReuse_iff (hexports : Exports crypto) {run : List Encrypted}
    (hkeys : ∀ e ∈ run, RoomKey crypto e.symmetric_key) :
    NoNonceReuse (encryptions crypto run) ↔
      ∀ e ∈ run, ∀ e' ∈ run, e.symmetric_key = e'.symmetric_key →
        str2ab e.message = str2ab e'.message := by
  constructor
  · intro h e he e' he' hsame
    obtain ⟨key, hkey⟩ := (hkeys e he).exported hexports
    by_contra hne
    exact h _ (mem_encryptions hexports he hkey) _
      (mem_encryptions hexports he' (hsame ▸ hkey)) rfl hne rfl
  · intro h c hc c' hc' hsame hne
    obtain ⟨e, he, hcall⟩ := List.mem_filterMap.mp hc
    obtain ⟨e', he', hcall'⟩ := List.mem_filterMap.mp hc'
    obtain ⟨key, hkey⟩ := (hkeys e he).exported hexports
    obtain ⟨key', hkey'⟩ := (hkeys e' he').exported hexports
    rw [hkey, encryption_generateSymmetricKey hexports] at hcall
    rw [hkey', encryption_generateSymmetricKey hexports] at hcall'
    cases hcall
    cases hcall'
    -- one key has one text
    obtain rfl : key = key' := hsame
    exact absurd (h e he e' he' (hkey.trans hkey'.symm)) hne

end

/-! ## Two messages in the lobby -/

namespace Demo

/-- Keys by their bytes in base64url, with the cipher that shows its arguments. -/
def webCrypto : WebCrypto { k : String // Js.Unescaped k } where
  exportKey k := .obj
    [("alg", .str (if k.val.length = 22 then "A128GCM" else "A256GCM")), ("ext", .bool true),
      ("k", .str k.val), ("key_ops", .arr [.str "encrypt", .str "decrypt"]), ("kty", .str "oct")]
  importKey jwk := match Js.prop (some jwk) "k" with
    | .ok (some (.str k)) => if h : Js.Unescaped k then .ok ⟨k, h⟩ else .error .typeError
    | _ => .error .typeError
  deriveKey _ _ := .error .typeError
  encrypt _ iv plaintext := iv ++ plaintext

theorem exports : Exports webCrypto where
  plain k := by
    have halg : Js.Unescaped (if k.val.length = 22 then "A128GCM" else "A256GCM") := by
      split <;> decide +kernel
    simp only [webCrypto, Js.Plain, Js.PlainFields, Js.PlainElements, halg, k.property,
      List.map_cons, List.map_nil]
    decide +kernel
  import_export k := dif_pos k.property
  defaultChatroom := ⟨⟨"clgPxSs2Tk9xKGYrTNU8eA", by decide +kernel⟩, by decide +kernel⟩

/-- Two members write in the default room. -/
def lobby (message message' : String) : List Encrypted :=
  [⟨ProfileManager.defaultChatroom.symmetric_key, message⟩,
    ⟨ProfileManager.defaultChatroom.symmetric_key, message'⟩]

theorem lobby_keys (message message' : String) :
    ∀ e ∈ lobby message message', RoomKey webCrypto e.symmetric_key := by
  simp [lobby, RoomKey.defaultChatroom]

end Demo

/-- Two messages in one room are encrypted with one vector. -/
theorem nonce_reused : ¬ ∀ (κ : Type) (crypto : WebCrypto κ), Exports crypto →
    ∀ run : List Encrypted, (∀ e ∈ run, RoomKey crypto e.symmetric_key) →
      NoNonceReuse (encryptions crypto run) := by
  intro h
  have hrun := h _ _ Demo.exports (Demo.lobby "a" "b") (Demo.lobby_keys "a" "b")
  obtain ⟨key, hkey⟩ := Demo.exports.defaultChatroom
  refine hrun _ (mem_encryptions Demo.exports List.mem_cons_self hkey) _
    (mem_encryptions Demo.exports (List.mem_cons_of_mem _ List.mem_cons_self) hkey) rfl ?_ rfl
  show str2ab "a" ≠ str2ab "b"
  decide +kernel

namespace Demo

/-- A key other than that of the default room. -/
def otherKey : String :=
  generateSymmetricKey webCrypto ⟨"AAECAwQFBgcICQoLDA0ODw", by decide +kernel⟩

/-- One message in the default room, another one, twice, in a room with a key of its own. -/
def twoRooms : List Encrypted :=
  [⟨ProfileManager.defaultChatroom.symmetric_key, "a"⟩, ⟨otherKey, "b"⟩, ⟨otherKey, "b"⟩]

theorem twoRooms_keys : ∀ e ∈ twoRooms, RoomKey webCrypto e.symmetric_key := by
  simp [twoRooms, RoomKey.defaultChatroom, otherKey, RoomKey.generated]

end Demo

/-- Different messages under different keys. -/
theorem nonce_not_reused : NoNonceReuse (encryptions Demo.webCrypto Demo.twoRooms) := by
  have hkeys : Demo.otherKey ≠ ProfileManager.defaultChatroom.symmetric_key := by decide +kernel
  refine (noNonceReuse_iff Demo.exports Demo.twoRooms_keys).mpr fun e he e' he' hsame => ?_
  simp only [Demo.twoRooms, List.mem_cons, List.not_mem_nil, or_false, or_self] at he he'
  rcases he with rfl | rfl
  · rcases he' with rfl | rfl
    · rfl
    · exact absurd hsame.symm hkeys
  · rcases he' with rfl | rfl
    · exact absurd hsame hkeys
    · rfl

end WebCryptography

end ZkChat
