import ZkChat.Server.RequestStats

set_option autoImplicit false

/-! # Epochs, proofs and shares

`proof_utils.ts` and the parts of `Hasher` it uses. Everything here is a function of the request:
no action touches the store. -/

namespace ZkChat

def SECONDS_PER_EPOCH : ℤ := 10

/-- `Math.abs(Number(difference)) / 1000`. -/
def differenceInSeconds (difference : ℤ) : Js.Number :=
  match Js.nearestDouble difference with
  | .finite q => Js.nearestDouble (|q| / 1000)
  | x => x

/-- `now` is `Date.now()`. -/
def verifyEpoch (now : ℤ) (epoch : Option Json) (allowedDelay : ℕ) : Except Exn Bool := do
  let millisecondsPerEpoch := SECONDS_PER_EPOCH * 1000
  let serverEpoch := now / millisecondsPerEpoch * millisecondsPerEpoch
  let messageEpoch ← Js.bigInt epoch
  pure (match differenceInSeconds (serverEpoch - messageEpoch) with
    | .finite q => q < allowedDelay
    | _ => false)

/-- The public signal `name` of a `snarkProof` denotes `n`. -/
def HasSignal (snarkProof : Json) (name : String) (n : ℤ) : Prop :=
  ∃ v, Js.path (some snarkProof) ["publicSignals", name] = .ok v ∧ Js.bigInt v = .ok n

theorem HasSignal.unique {p : Json} {name : String} {m n : ℤ} (h : HasSignal p name m)
    (h' : HasSignal p name n) : m = n := by
  obtain ⟨v, hv, hm⟩ := h
  obtain ⟨w, hw, hn⟩ := h'
  obtain rfl := Except.ok.inj (hv.symm.trans hw)
  exact Except.ok.inj (hm.symm.trans hn)

variable (lib : Libraries)

namespace Hasher

/-- The first two points. -/
def retrieveSecret : List ℤ → List ℤ → Except Exn ℤ
  | x₀ :: x₁ :: _, y₀ :: y₁ :: _ => lib.shamirRecovery x₀ x₁ y₀ y₁
  | _, _ => .error .typeError

def verifyProof (zk_proof : Option Json) : Except Exn Bool := do
  let epoch ← Js.bigInt (← Js.prop zk_proof "epoch")
  let rlnIdentifier ← Js.bigInt (← Js.prop zk_proof "rlnIdentifier")
  let expectedExternalNullifier := lib.genNullifier epoch rlnIdentifier
  let actualExternalNullifier ← Js.bigInt (← publicSignal zk_proof "externalNullifier")
  if expectedExternalNullifier ≠ actualExternalNullifier then pure false
  else do
    let snarkProof ← Js.prop zk_proof "snarkProof"
    lib.verifySNARKProof snarkProof

end Hasher

def isZkProofValid (zk_proof : Option Json) (root : String) : Except Exn Bool := do
  let actualMerkleRoot ← Js.bigInt (← publicSignal zk_proof "merkleRoot")
  let root ← Js.bigIntOfText root
  if actualMerkleRoot ≠ root then pure false else Hasher.verifyProof lib zk_proof

/-- What `getUserFromShares` recovers. -/
structure RecoveredUser where
  secret : ℤ
  idCommitment : String
deriving DecidableEq

def getUserFromShares (zk_proof x_share : Option Json) (shares : List IRequestStats) :
    Except Exn RecoveredUser := do
  let sharesX ← shares.mapM fun stats => Js.bigIntOfField stats.xShare
  let sharesY ← shares.mapM fun stats => Js.bigIntOfText stats.yShare
  let x ← Js.bigInt x_share
  let y ← Js.bigIntOfText (← getYShareFromFullProof zk_proof)
  let secret ← Hasher.retrieveSecret lib (sharesX ++ [x]) (sharesY ++ [y])
  pure { secret, idCommitment := Js.bigIntToString (lib.poseidon [secret]) }

/-- A full proof as clients serialise it: every number is a canonical string. -/
def fullProof (epoch rlnIdentifier merkleRoot externalNullifier internalNullifier signalHash
    yShare : ℤ) : Json :=
  let text (n : ℤ) : Json := .str (Js.bigIntToString n)
  .obj
    [("snarkProof", .obj
      [("publicSignals", .obj
        [("yShare", text yShare), ("merkleRoot", text merkleRoot),
          ("internalNullifier", text internalNullifier), ("signalHash", text signalHash),
          ("externalNullifier", text externalNullifier)])]),
      ("epoch", text epoch), ("rlnIdentifier", text rlnIdentifier)]

end ZkChat
