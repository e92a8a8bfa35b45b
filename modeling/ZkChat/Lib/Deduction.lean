import Mathlib.Data.Sym.Sym2
import Mathlib.Data.Set.Basic

set_option autoImplicit false

/-! # Ideal cryptography

Messages as terms: a ciphertext says nothing without its key, and two different terms are two
different messages. `Derives` is what can be made from a set of messages by encrypting, decrypting,
pairing, hashing and agreeing on keys.

`Guarded` is the invariant for protocols that send fresh keys sealed for a receiver: what is
encrypted under a secret key is one of the messages meant for it, and what is sealed for an honest
party is a secret key meant for that party or could have been sealed by anyone. It holds of all that
can be derived if it holds of what is known. -/

namespace ZkChat

/-- Messages over names of key pairs `υ`, of symmetric keys `ν` and of Diffie-Hellman pairs `δ`. -/
inductive Term (υ ν δ : Type) where
  | empty
  | publicKey (u : υ)
  | privateKey (u : υ)
  | symmetricKey (n : ν)
  | dhPublic (x : δ)
  | dhPrivate (x : δ)
  /-- The key that two pairs agree on. -/
  | shared (xs : Sym2 δ)
  | encrypted (message key : Term υ ν δ)
  | wrapped (message coins : Term υ ν δ) (u : υ)
  | pair (a b : Term υ ν δ)
  | hash (a : Term υ ν δ)
deriving DecidableEq

namespace Term

variable {υ ν δ : Type}

instance : Inhabited (Term υ ν δ) := ⟨.empty⟩

/-- What follows from known messages. -/
inductive Derives (known : Set (Term υ ν δ)) : Term υ ν δ → Prop
  | known {t : Term υ ν δ} (h : t ∈ known) : Derives known t
  | encrypt {m k : Term υ ν δ} (hm : Derives known m) (hk : Derives known k) :
      Derives known (.encrypted m k)
  | decrypt {m k : Term υ ν δ} (h : Derives known (.encrypted m k)) (hk : Derives known k) :
      Derives known m
  | wrap {m coins : Term υ ν δ} {u : υ} (hm : Derives known m) (hcoins : Derives known coins) :
      Derives known (.wrapped m coins u)
  | unwrap {m coins : Term υ ν δ} {u : υ} (h : Derives known (.wrapped m coins u))
      (hu : Derives known (.privateKey u)) : Derives known m
  | pair {a b : Term υ ν δ} (ha : Derives known a) (hb : Derives known b) :
      Derives known (.pair a b)
  | fst {a b : Term υ ν δ} (h : Derives known (.pair a b)) : Derives known a
  | snd {a b : Term υ ν δ} (h : Derives known (.pair a b)) : Derives known b
  | hash {a : Term υ ν δ} (h : Derives known a) : Derives known (.hash a)
  | agree {x y : δ} (hx : Derives known (.dhPrivate x)) (hy : Derives known (.dhPublic y)) :
      Derives known (.shared s(x, y))

theorem Derives.mono {known known' : Set (Term υ ν δ)} (hsub : known ⊆ known') {t : Term υ ν δ}
    (h : Derives known t) : Derives known' t := by
  induction h with
  | known h => exact .known (hsub h)
  | encrypt _ _ ihm ihk => exact .encrypt ihm ihk
  | decrypt _ _ ih ihk => exact .decrypt ih ihk
  | wrap _ _ ihm ihcoins => exact .wrap ihm ihcoins
  | unwrap _ _ ih ihu => exact .unwrap ih ihu
  | pair _ _ iha ihb => exact .pair iha ihb
  | fst _ ih => exact .fst ih
  | snd _ ih => exact .snd ih
  | hash _ ih => exact .hash ih
  | agree _ _ ihx ihy => exact .agree ihx ihy

/-! ## Sealed fresh keys -/

/-- Which keys are secret, for whom they are meant and for which messages. -/
structure Policy (υ ν δ : Type) where
  honest : υ → Prop
  secret : ν → Prop
  receiver : ν → υ
  meant : ν → Term υ ν δ → Prop

/-- The key is one of the secret ones. -/
def Policy.Secret (policy : Policy υ ν δ) (k : Term υ ν δ) : Prop :=
  ∃ n, k = .symmetricKey n ∧ policy.secret n

def Guarded (policy : Policy υ ν δ) (known : Set (Term υ ν δ)) : Term υ ν δ → Prop
  | .symmetricKey n => ¬ policy.secret n
  | .privateKey u => ¬ policy.honest u
  | .encrypted m k =>
      (∀ n, k = .symmetricKey n → policy.secret n → policy.meant n m) ∧
        (¬ policy.Secret k → Guarded policy known m)
  | .wrapped m _ u =>
      (∃ n, m = .symmetricKey n ∧ policy.secret n ∧ policy.receiver n = u ∧ policy.honest u) ∨
        Derives known m ∧ Guarded policy known m
  | .pair a b => Guarded policy known a ∧ Guarded policy known b
  | _ => True

variable {policy : Policy υ ν δ} {known known' : Set (Term υ ν δ)}

theorem Guarded.mono {meant : ν → Term υ ν δ → Prop} (hsub : known ⊆ known')
    (hmeant : ∀ n m, policy.meant n m → meant n m) {t : Term υ ν δ}
    (h : Guarded policy known t) : Guarded { policy with meant } known' t := by
  induction t with
  | symmetricKey n => exact h
  | privateKey u => exact h
  | encrypted m k ihm _ =>
      exact ⟨fun n hk hn => hmeant n m (h.1 n hk hn), fun hk => ihm (h.2 hk)⟩
  | wrapped m coins u ihm _ => exact h.imp id fun hm => ⟨hm.1.mono hsub, ihm hm.2⟩
  | pair a b iha ihb => exact ⟨iha h.1, ihb h.2⟩
  | empty | publicKey _ | dhPublic _ | dhPrivate _ | shared _ | hash _ _ => trivial

/-- Nothing can be derived that is not guarded. -/
theorem Derives.guarded (hknown : ∀ t ∈ known, Guarded policy known t) {t : Term υ ν δ}
    (h : Derives known t) : Guarded policy known t := by
  induction h with
  | known h => exact hknown _ h
  | encrypt _ _ ihm ihk =>
      refine ⟨?_, fun _ => ihm⟩
      rintro n rfl hn
      exact absurd hn ihk
  | decrypt _ _ ih ihk =>
      refine ih.2 ?_
      rintro ⟨n, rfl, hn⟩
      exact ihk hn
  | wrap hm _ ihm _ => exact .inr ⟨hm, ihm⟩
  | unwrap _ _ ih ihu =>
      rcases ih with ⟨n, -, -, -, hhonest⟩ | ⟨-, hg⟩
      · exact absurd hhonest ihu
      · exact hg
  | pair _ _ iha ihb => exact ⟨iha, ihb⟩
  | fst _ ih => exact ih.1
  | snd _ ih => exact ih.2
  | hash _ _ => trivial
  | agree _ _ _ _ => trivial

/-- A ciphertext whose sealed key is not known to the others carries a message that is meant for its
    key. -/
theorem meant_of_guarded {m k coins : Term υ ν δ} {u : υ}
    (hcontent : Guarded policy known (.encrypted m k))
    (hkey : Guarded policy known (.wrapped k coins u)) (hunknown : ¬ Derives known k) :
    ∃ n, policy.receiver n = u ∧ policy.meant n m := by
  rcases hkey with ⟨n, rfl, hn, hu, -⟩ | ⟨hk, -⟩
  · exact ⟨n, hu, hcontent.1 n rfl hn⟩
  · exact absurd hk hunknown

/-! ## Secrets -/

/-- What outsiders must not learn: private keys, symmetric keys and Diffie-Hellman pairs, with the
    messages that may be sealed for the holders of those private keys. -/
structure Secrets (υ ν δ : Type) where
  privateKey : υ → Prop
  symmetricKey : ν → Prop
  dhPair : δ → Prop
  sealed : Term υ ν δ → Prop

/-- A key that only insiders have. -/
def Secrets.IsKey (secrets : Secrets υ ν δ) : Term υ ν δ → Prop
  | .symmetricKey n => secrets.symmetricKey n
  | .shared xs => ∀ x ∈ xs, secrets.dhPair x
  | _ => False

/-- Who has the message learns no secret. -/
def Conceals (secrets : Secrets υ ν δ) : Term υ ν δ → Prop
  | .privateKey u => ¬ secrets.privateKey u
  | .symmetricKey n => ¬ secrets.symmetricKey n
  | .dhPrivate x => ¬ secrets.dhPair x
  | .shared xs => ¬ ∀ x ∈ xs, secrets.dhPair x
  | .encrypted m k => secrets.IsKey k ∨ Conceals secrets m
  | .wrapped m _ u => (secrets.privateKey u ∧ secrets.sealed m) ∨ Conceals secrets m
  | .pair a b => Conceals secrets a ∧ Conceals secrets b
  | .empty | .publicKey _ | .dhPublic _ | .hash _ => True

variable {secrets : Secrets υ ν δ}

theorem Secrets.IsKey.not_conceals {k : Term υ ν δ} (h : secrets.IsKey k) :
    ¬ Conceals secrets k := by
  cases k with
  | symmetricKey n => exact fun hk => hk h
  | shared xs => exact fun hk => hk h
  | empty | publicKey _ | privateKey _ | dhPublic _ | dhPrivate _ | encrypted _ _ | wrapped _ _ _
    | pair _ _ | hash _ => exact h.elim

/-- From messages that conceal the secrets nothing can be derived that does not. -/
theorem Derives.conceals (hknown : ∀ t ∈ known, Conceals secrets t) {t : Term υ ν δ}
    (h : Derives known t) : Conceals secrets t := by
  induction h with
  | known h => exact hknown _ h
  | encrypt _ _ ihm _ => exact .inr ihm
  | decrypt _ _ ih ihk => exact ih.resolve_left fun hk => hk.not_conceals ihk
  | wrap _ _ ihm _ => exact .inr ihm
  | unwrap _ _ ih ihu => exact ih.resolve_left fun hu => ihu hu.1
  | pair _ _ iha ihb => exact ⟨iha, ihb⟩
  | fst _ ih => exact ih.1
  | snd _ ih => exact ih.2
  | hash _ _ => trivial
  | agree _ _ ihx _ => exact fun hall => ihx (hall _ (Sym2.mem_mk_left _ _))

theorem Secrets.IsKey.not_derives (hknown : ∀ t ∈ known, Conceals secrets t) {k : Term υ ν δ}
    (hk : secrets.IsKey k) : ¬ Derives known k :=
  fun h => hk.not_conceals (h.conceals hknown)

end Term

end ZkChat
