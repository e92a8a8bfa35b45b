import Mathlib.Data.UInt
import ZkChat.Client.WebCryptography
import ZkChat.Lib.Base64
import ZkChat.Lib.Prog

set_option autoImplicit false

/-! # Encrypting and decrypting a message

The four methods of `WebCryptography` on all JavaScript strings, that is on all sequences of code
units. `str2ab` keeps the low byte of each code unit, so what a message is encrypted from is not
always the message; everything after it, the cipher and the base64 text, is undone exactly
(`roundTrip_iff`). -/

namespace ZkChat

/-- A JavaScript string: its UTF-16 code units, which need not be well formed. -/
abbrev JsString := List UInt16

namespace Js

/-- Throws where a character is no byte. -/
def btoa (s : JsString) : Except Exn JsString :=
  if s.all fun u => u < 256 then .ok (Base64.encode (s.map (·.toUInt8)))
  else .error (.error "InvalidCharacterError")

def atob (s : JsString) : Except Exn JsString :=
  match Base64.decode s with
  | some bs => .ok (bs.map (·.toUInt16))
  | none => .error (.error "InvalidCharacterError")

end Js

/-- `window.crypto.subtle`, for AES-GCM keys `κ` and RSA-OAEP keys `π` (public) and `σ` (private). -/
structure SubtleCrypto (κ π σ : Type) where
  /-- `importKey("jwk", JSON.parse(text), …)`. -/
  importJwk : JsString → Except Exn κ
  /-- Key, initialisation vector, plaintext. -/
  encrypt : κ → List UInt8 → List UInt8 → Except Exn (List UInt8)
  /-- Key, initialisation vector, ciphertext. -/
  decrypt : κ → List UInt8 → List UInt8 → Except Exn (List UInt8)
  importSpki : List UInt8 → Except Exn π
  importPkcs8 : List UInt8 → Except Exn σ
  encryptOaep : π → List UInt8 → Except Exn (List UInt8)
  decryptOaep : σ → List UInt8 → Except Exn (List UInt8)

namespace WebCryptography.Utf16

/-! ## The methods -/

/-- `String.fromCharCode` of each byte. -/
def ab2str (buf : List UInt8) : JsString := buf.map (·.toUInt16)

/-- A `Uint8Array` takes the low byte of what is stored in it. -/
def str2ab (str : JsString) : List UInt8 := str.map (·.toUInt8)

section

variable {κ π σ : Type} (crypto : SubtleCrypto κ π σ)

def encryptMessageSymmetric (message symmetricKey : JsString) : Except Exn JsString := do
  let importedSymmetricKey ← crypto.importJwk symmetricKey
  let iv_substring := symmetricKey.take 10
  let encrypted ← crypto.encrypt importedSymmetricKey (str2ab iv_substring) (str2ab message)
  Js.btoa (ab2str encrypted)

def decryptMessageSymmetric (cyphertext symmetricKey : JsString) : Except Exn JsString := do
  let importedSymmetricKey ← crypto.importJwk symmetricKey
  let iv_substring := symmetricKey.take 10
  let data ← Js.atob cyphertext
  let decrypted ← crypto.decrypt importedSymmetricKey (str2ab iv_substring) (str2ab data)
  pure (ab2str decrypted)

/-- The import of a public key. -/
def importPublicKey (publicKey : JsString) : Except Exn π := do
  let data ← Js.atob publicKey
  crypto.importSpki (str2ab data)

/-- The import of a private key. -/
def importPrivateKey (privateKey : JsString) : Except Exn σ := do
  let data ← Js.atob privateKey
  crypto.importPkcs8 (str2ab data)

def encryptMessageAsymmetric (message publicKey : JsString) : Except Exn JsString := do
  let importedPublicKey ← importPublicKey crypto publicKey
  let encryptedBytes ← crypto.encryptOaep importedPublicKey (str2ab message)
  Js.btoa (ab2str encryptedBytes)

def decryptMessageAsymmetric (cyphertext privateKey : JsString) : Except Exn JsString := do
  let importedPrivateKey ← importPrivateKey crypto privateKey
  let data ← Js.atob cyphertext
  let decryptedBytes ← crypto.decryptOaep importedPrivateKey (str2ab data)
  pure (ab2str decryptedBytes)

/-- Decryption undoes encryption, whatever the key, the vector and the bytes. -/
def Inverse : Prop :=
  ∀ key iv data, (crypto.encrypt key iv data >>= crypto.decrypt key iv) = .ok data

/-- The keys are imported as a pair with which `limit` bytes can be encrypted and decrypted. -/
def KeyPair (publicKey privateKey : JsString) (limit : ℕ) : Prop :=
  ∃ p s, importPublicKey crypto publicKey = .ok p ∧ importPrivateKey crypto privateKey = .ok s ∧
    ∀ data : List UInt8, data.length ≤ limit →
      (crypto.encryptOaep p data >>= crypto.decryptOaep s) = .ok data

/-- The message is what its decrypted encryption is. -/
def RoundTripSymmetric (message symmetricKey : JsString) : Prop :=
  (do
    let cyphertext ← encryptMessageSymmetric crypto message symmetricKey
    decryptMessageSymmetric crypto cyphertext symmetricKey) = .ok message

def RoundTripAsymmetric (message publicKey privateKey : JsString) : Prop :=
  (do
    let cyphertext ← encryptMessageAsymmetric crypto message publicKey
    decryptMessageAsymmetric crypto cyphertext privateKey) = .ok message

end

/-! ## Strings and bytes -/

/-- Every code unit is a byte. -/
def Narrow (s : JsString) : Prop := ∀ u ∈ s, u < 256

instance (s : JsString) : Decidable (Narrow s) := List.decidableBAll _ s

@[simp] theorem str2ab_ab2str (buf : List UInt8) : str2ab (ab2str buf) = buf := by
  simp [str2ab, ab2str, Function.comp_def]

theorem toUInt16_lt (b : UInt8) : b.toUInt16 < 256 := by
  rw [UInt16.lt_iff_toNat_lt, UInt8.toNat_toUInt16]
  exact b.toNat_lt

theorem toUInt16_toUInt8_iff (u : UInt16) : u.toUInt8.toUInt16 = u ↔ u < 256 := by
  rw [UInt16.lt_iff_toNat_lt, ← UInt16.toNat_inj, UInt8.toNat_toUInt16, UInt16.toNat_toUInt8]
  exact Nat.mod_eq_iff_lt (by decide)

/-- A string survives its bytes exactly when every code unit is one. -/
theorem ab2str_str2ab_iff (s : JsString) : ab2str (str2ab s) = s ↔ Narrow s := by
  unfold ab2str str2ab Narrow
  rw [List.map_map]
  constructor
  · intro h u hu
    have hmap := List.map_inj_left.mp (h.trans (List.map_id s).symm) u hu
    exact (toUInt16_toUInt8_iff u).mp hmap
  · intro h
    refine (List.map_congr_left fun u hu => ?_).trans (List.map_id s)
    exact (toUInt16_toUInt8_iff u).mpr (h u hu)

theorem btoa_ab2str (buf : List UInt8) : Js.btoa (ab2str buf) = .ok (Base64.encode buf) := by
  rw [Js.btoa, if_pos]
  · exact congrArg (fun bs => Except.ok (Base64.encode bs)) (str2ab_ab2str buf)
  · rw [List.all_eq_true]
    intro u hu
    obtain ⟨b, -, rfl⟩ := List.mem_map.mp hu
    exact decide_eq_true (toUInt16_lt b)

theorem atob_encode (buf : List UInt8) : Js.atob (Base64.encode buf) = .ok (ab2str buf) := by
  rw [Js.atob, Base64.decode_encode]
  rfl

theorem str2ab_ofNat (us : List ℕ) :
    str2ab (us.map .ofNat) = (us.map (· % 256)).map UInt8.ofNat := by
  rw [str2ab, List.map_map, List.map_map]
  refine List.map_congr_left fun u _ => UInt8.toNat_inj.mp ?_
  simp only [Function.comp_apply, UInt16.toNat_toUInt8, UInt16.toNat_ofNat', UInt8.toNat_ofNat']
  omega

/-! ## Messages -/

section

variable {κ π σ : Type} {crypto : SubtleCrypto κ π σ}

/-- The text of a JWK is parsed and imported. -/
def ImportsJwk (crypto : SubtleCrypto κ π σ) (web : WebCrypto κ) : Prop :=
  ∀ text : String, crypto.importJwk ((Js.codeUnits text).map .ofNat)
    = (((Js.jsonParse text).elim (.error .syntaxError) .ok) >>= web.importKey)

/-- On well-formed strings, the cipher is called with the arguments of
    `WebCryptography.encryption`. -/
theorem encryptMessageSymmetric_eq {web : WebCrypto κ} (himport : ImportsJwk crypto web)
    (message symmetricKey : String) :
    encryptMessageSymmetric crypto ((Js.codeUnits message).map .ofNat)
        ((Js.codeUnits symmetricKey).map .ofNat)
      = (do
          let e ← WebCryptography.encryption web message symmetricKey
          let encrypted ← crypto.encrypt e.key (e.iv.map .ofNat) (e.plaintext.map .ofNat)
          Js.btoa (ab2str encrypted)) := by
  unfold encryptMessageSymmetric WebCryptography.encryption
  rw [himport]
  simp only [← List.map_take, str2ab_ofNat]
  cases Js.jsonParse symmetricKey with
  | none => rfl
  | some jwk =>
      show (web.importKey jwk >>= _) = ((web.importKey jwk >>= _) >>= _)
      cases web.importKey jwk with
      | error e => rfl
      | ok key => rfl

/-- What comes back of a message is what its bytes make of it. -/
theorem decrypt_encrypt_symmetric (hinverse : Inverse crypto) {symmetricKey : JsString} {key : κ}
    (hkey : crypto.importJwk symmetricKey = .ok key) (message : JsString) :
    (do
      let cyphertext ← encryptMessageSymmetric crypto message symmetricKey
      decryptMessageSymmetric crypto cyphertext symmetricKey) = .ok (ab2str (str2ab message)) := by
  obtain ⟨encrypted, hencrypt, hdecrypt⟩ := Except.bind_ok_iff.mp
    (hinverse key (str2ab (symmetricKey.take 10)) (str2ab message))
  refine Except.bind_ok_iff.mpr ⟨Base64.encode encrypted, ?_, ?_⟩
  · refine Except.bind_ok_iff.mpr ⟨key, hkey, Except.bind_ok_iff.mpr ⟨encrypted, hencrypt, ?_⟩⟩
    exact btoa_ab2str encrypted
  · refine Except.bind_ok_iff.mpr ⟨key, hkey, Except.bind_ok_iff.mpr ⟨_, atob_encode encrypted, ?_⟩⟩
    rw [str2ab_ab2str]
    exact Except.bind_ok_iff.mpr ⟨_, hdecrypt, rfl⟩

theorem decrypt_encrypt_asymmetric {publicKey privateKey : JsString} {limit : ℕ}
    (hpair : KeyPair crypto publicKey privateKey limit) {message : JsString}
    (hlength : message.length ≤ limit) :
    (do
      let cyphertext ← encryptMessageAsymmetric crypto message publicKey
      decryptMessageAsymmetric crypto cyphertext privateKey) = .ok (ab2str (str2ab message)) := by
  obtain ⟨p, s, hp, hs, hinverse⟩ := hpair
  obtain ⟨encrypted, hencrypt, hdecrypt⟩ := Except.bind_ok_iff.mp
    (hinverse (str2ab message) (by rwa [str2ab, List.length_map]))
  refine Except.bind_ok_iff.mpr ⟨Base64.encode encrypted, ?_, ?_⟩
  · refine Except.bind_ok_iff.mpr ⟨p, hp, Except.bind_ok_iff.mpr ⟨encrypted, hencrypt, ?_⟩⟩
    exact btoa_ab2str encrypted
  · refine Except.bind_ok_iff.mpr ⟨s, hs, Except.bind_ok_iff.mpr ⟨_, atob_encode encrypted, ?_⟩⟩
    rw [str2ab_ab2str]
    exact Except.bind_ok_iff.mpr ⟨_, hdecrypt, rfl⟩

/-- With valid keys a message comes back exactly when every code unit of it is a byte. -/
theorem roundTrip_iff (hinverse : Inverse crypto) :
    (∀ message symmetricKey, (∃ key, crypto.importJwk symmetricKey = .ok key) →
      (RoundTripSymmetric crypto message symmetricKey ↔ Narrow message)) ∧
    ∀ message publicKey privateKey limit, KeyPair crypto publicKey privateKey limit →
      message.length ≤ limit →
        (RoundTripAsymmetric crypto message publicKey privateKey ↔ Narrow message) := by
  refine ⟨fun message symmetricKey ⟨key, hkey⟩ => ?_,
    fun message publicKey privateKey limit hpair hlength => ?_⟩
  · rw [RoundTripSymmetric, decrypt_encrypt_symmetric hinverse hkey, Except.ok.injEq,
      ab2str_str2ab_iff]
  · rw [RoundTripAsymmetric, decrypt_encrypt_asymmetric hpair hlength, Except.ok.injEq,
      ab2str_str2ab_iff]

end

/-! ## Two messages -/

namespace Demo

/-- A key is a byte that is added to each byte of the plaintext; RSA-OAEP takes 190 bytes. -/
def subtle : SubtleCrypto UInt8 UInt8 UInt8 where
  importJwk text := match text with
    | u :: _ => .ok u.toUInt8
    | [] => .error .syntaxError
  encrypt key _ data := .ok (data.map (· + key))
  decrypt key _ data := .ok (data.map (· - key))
  importSpki data := match data with
    | [key] => .ok key
    | _ => .error (.error "DataError")
  importPkcs8 data := match data with
    | [key] => .ok key
    | _ => .error (.error "DataError")
  encryptOaep key data :=
    if data.length ≤ 190 then .ok (data.map (· + key)) else .error (.error "OperationError")
  decryptOaep key data := .ok (data.map (· - key))

theorem map_sub_add (key : UInt8) (data : List UInt8) :
    (data.map (· + key)).map (· - key) = data := by
  simp [Function.comp_def, add_sub_cancel_right]

theorem inverse : Inverse subtle := fun key _ data =>
  congrArg Except.ok (map_sub_add key data)

/-- The text of a key of one byte. -/
def keyText : JsString := Base64.encode [7]

theorem keyPair : KeyPair subtle keyText keyText 190 := by
  refine ⟨7, 7, by decide +kernel, by decide +kernel, fun data hdata => ?_⟩
  simp only [subtle, if_pos hdata]
  exact congrArg Except.ok (map_sub_add 7 data)

end Demo

/-- The letter U+0161 comes back as U+0061. -/
theorem wide_letter_is_lost :
    ¬ ∀ (κ π σ : Type) (crypto : SubtleCrypto κ π σ), Inverse crypto →
      (∀ message symmetricKey, (∃ key, crypto.importJwk symmetricKey = .ok key) →
        RoundTripSymmetric crypto message symmetricKey) ∧
      ∀ message publicKey privateKey limit, KeyPair crypto publicKey privateKey limit →
        message.length ≤ limit → RoundTripAsymmetric crypto message publicKey privateKey := by
  intro h
  have hback := (h _ _ _ Demo.subtle Demo.inverse).1 [0x161] [1] ⟨1, rfl⟩
  have hkey : Demo.subtle.importJwk [1] = .ok 1 := rfl
  rw [RoundTripSymmetric, decrypt_encrypt_symmetric Demo.inverse hkey] at hback
  exact absurd hback (by decide +kernel)

/-- A message in Latin letters comes back. -/
theorem latin_message_comes_back :
    RoundTripSymmetric Demo.subtle [0x68, 0xE9] [1] ∧
      RoundTripAsymmetric Demo.subtle [0x68, 0xE9] Demo.keyText Demo.keyText :=
  ⟨((roundTrip_iff Demo.inverse).1 _ _ ⟨1, rfl⟩).mpr (by decide),
    ((roundTrip_iff Demo.inverse).2 _ _ _ 190 Demo.keyPair (by decide)).mpr (by decide)⟩

end WebCryptography.Utf16

end ZkChat
