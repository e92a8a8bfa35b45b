import ZkChat.Client.KeyExchangeSteps
import ZkChat.Lib.Deduction

set_option autoImplicit false

/-! # The key exchange over ideal cryptography

`ICryptography` on terms: decryption succeeds exactly with the right key, and the two sides of a
Diffie-Hellman exchange agree on one key. -/

namespace ZkChat

namespace Term

variable {υ ν δ : Type} [DecidableEq υ] [DecidableEq ν] [DecidableEq δ]

/-- Every term encrypts. -/
def cryptography : ICryptography (Term υ ν δ) where
  encryptMessageSymmetric m k := some (.encrypted m k)
  decryptMessageSymmetric e k := match e with
    | .encrypted m k' => if k' = k then some m else none
    | _ => none
  encryptMessageAsymmetric m k coins := match k with
    | .publicKey u => some (.wrapped m coins u)
    | _ => none
  decryptMessageAsymmetric e k := match e, k with
    | .wrapped m _ u, .privateKey u' => if u = u' then some m else none
    | _, _ => none
  deriveSharedSecretKey x y := match x, y with
    | .dhPrivate x, .dhPublic y => some (.shared s(x, y))
    | _, _ => none
  hash := .hash
  stringify := .pair
  parse t := match t with
    | .pair a b => some (a, b)
    | _ => none

/-- The pair of this name. -/
def dhKeyPair (x : δ) : IKeyPair (Term υ ν δ) := ⟨.dhPublic x, .dhPrivate x⟩

theorem decryptsBack {ι : Type} (user : ι → υ)
    (fresh : ι → Term υ ν δ → IKeyPair (Term υ ν δ) → Term υ ν δ → Term υ ν δ → Prop) :
    DecryptsBack cryptography (fun a => .publicKey (user a)) (fun a => .privateKey (user a))
      fresh where
  asymmetric _ _ _ _ _ _ _ h := by
    cases h
    simp [cryptography]
  symmetric _ _ _ _ _ _ _ h := by
    cases h
    simp [cryptography]
  parse _ _ := rfl

theorem derive_comm (x y : δ) :
    (cryptography (υ := υ) (ν := ν)).deriveSharedSecretKey (.dhPrivate x) (.dhPublic y)
      = cryptography.deriveSharedSecretKey (.dhPrivate y) (.dhPublic x) := by
  simp [cryptography, Sym2.eq_swap]

end Term

end ZkChat
