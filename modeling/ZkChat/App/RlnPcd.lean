import ZkChat.Js.BigValue

set_option autoImplicit false

/-! # The RLN PCD

A proof of `rlnjs` becomes a PCD and back without a loss (`fromRLNFullProof_map_toRLNFullProof`).
A PCD is written with `JSONBig` and read again, and nothing converts what was read: a bigint of at
most fifteen characters comes back as a number (`deserialize_serialize_eq_ok_iff`). -/

namespace ZkChat.RlnPcd

open Js (BigJson BigValue JSONBig)

/-! ## The types of `rlnjs` -/

/-- `string | bigint`. -/
inductive StrBigInt where
  | bigint (n : ℤ)
  | str (s : String)

structure Proof where
  pi_a : List StrBigInt
  pi_b : List (List StrBigInt)
  pi_c : List StrBigInt
  protocol : String
  curve : String

structure RLNPublicSignals where
  yShare : StrBigInt
  merkleRoot : StrBigInt
  internalNullifier : StrBigInt
  signalHash : StrBigInt
  externalNullifier : StrBigInt

structure RLNSNARKProof where
  proof : Proof
  publicSignals : RLNPublicSignals

structure RLNFullProof where
  snarkProof : RLNSNARKProof
  epoch : ℤ
  rlnIdentifier : ℤ

/-- `RLN._genNullifier`, of bigints and of any other values. -/
structure RLN where
  genNullifier : ℤ → ℤ → ℤ
  genNullifierOf : Option BigValue → Option BigValue → Except Exn (Option BigValue)
  genNullifierOf_bigint : ∀ epoch rlnIdentifier,
    genNullifierOf (some (.bigint epoch)) (some (.bigint rlnIdentifier))
      = .ok (some (.bigint (genNullifier epoch rlnIdentifier)))

/-- `BigInt(signal)`. -/
def StrBigInt.toBigInt : StrBigInt → Except Exn ℤ
  | .bigint n => .ok n
  | .str s => Js.bigIntOfText s

/-- `String(signal)`. -/
def StrBigInt.toText : StrBigInt → String
  | .bigint n => Js.bigIntToString n
  | .str s => s

/-- All public signals as bigints. -/
def RLNPublicSignals.withBigints (signals : RLNPublicSignals) : Except Exn RLNPublicSignals := do
  let signalHash ← signals.signalHash.toBigInt
  let yShare ← signals.yShare.toBigInt
  let merkleRoot ← signals.merkleRoot.toBigInt
  let internalNullifier ← signals.internalNullifier.toBigInt
  let externalNullifier ← signals.externalNullifier.toBigInt
  pure
    { yShare := .bigint yShare, merkleRoot := .bigint merkleRoot,
      internalNullifier := .bigint internalNullifier, signalHash := .bigint signalHash,
      externalNullifier := .bigint externalNullifier }

/-- The proof with its public signals as bigints; there is none if a signal is not the text of an
    integer. -/
def RLNFullProof.withBigints (fullProof : RLNFullProof) : Except Exn RLNFullProof :=
  fullProof.snarkProof.publicSignals.withBigints.map fun publicSignals =>
    { fullProof with snarkProof := { fullProof.snarkProof with publicSignals } }

/-! ## The PCD -/

def RLNPCDTypeName : String := "rln-pcd"

structure RLNPCDClaim where
  x : ℤ
  epoch : ℤ
  rlnIdentifier : ℤ
  yShare : ℤ
  merkleRoot : ℤ
  internalNullifier : ℤ

structure RLNPCDProof where
  proof : Proof
  externalNullifier : ℤ

/-- What the constructor lets through. -/
structure RLNPCD (rln : RLN) where
  id : String
  claim : RLNPCDClaim
  proof : RLNPCDProof
  matching : rln.genNullifier claim.epoch claim.rlnIdentifier = proof.externalNullifier

def mismatch (claimExternalNullifier externalNullifier : String) : Exn :=
  .error ("claim and proof mismatch: claimExternalNullifier=" ++ claimExternalNullifier
    ++ ", proof.externalNullifier=" ++ externalNullifier)

section

variable (rln : RLN)

/-- The check of the constructor, on values of any type. -/
def checkClaimProofMatching (claim proof : Option BigValue) : Except Exn Unit := do
  let epoch ← BigValue.prop claim "epoch"
  let rlnIdentifier ← BigValue.prop claim "rlnIdentifier"
  let claimExternalNullifier ← rln.genNullifierOf epoch rlnIdentifier
  let externalNullifier ← BigValue.prop proof "externalNullifier"
  if BigValue.strictEq claimExternalNullifier externalNullifier then pure ()
  else
    let expected ← BigValue.templateText claimExternalNullifier
    let actual ← BigValue.templateText externalNullifier
    throw (mismatch expected actual)

/-- The constructor, on bigints. -/
def RLNPCD.new (id : String) (claim : RLNPCDClaim) (proof : RLNPCDProof) :
    Except Exn (RLNPCD rln) :=
  if h : rln.genNullifier claim.epoch claim.rlnIdentifier = proof.externalNullifier then
    .ok ⟨id, claim, proof, h⟩
  else
    .error (mismatch (Js.bigIntToString (rln.genNullifier claim.epoch claim.rlnIdentifier))
      (Js.bigIntToString proof.externalNullifier))

/-- `id` is what `uuid()` has drawn. -/
def fromRLNFullProof (id : String) (rlnFullProof : RLNFullProof) : Except Exn (RLNPCD rln) := do
  let publicSignals := rlnFullProof.snarkProof.publicSignals
  let x ← publicSignals.signalHash.toBigInt
  let yShare ← publicSignals.yShare.toBigInt
  let merkleRoot ← publicSignals.merkleRoot.toBigInt
  let internalNullifier ← publicSignals.internalNullifier.toBigInt
  let externalNullifier ← publicSignals.externalNullifier.toBigInt
  RLNPCD.new rln id
    { x, epoch := rlnFullProof.epoch, rlnIdentifier := rlnFullProof.rlnIdentifier, yShare,
      merkleRoot, internalNullifier }
    { proof := rlnFullProof.snarkProof.proof, externalNullifier }

end

variable {rln : RLN}

def RLNPCD.toRLNFullProof (pcd : RLNPCD rln) : RLNFullProof where
  snarkProof :=
    { proof := pcd.proof.proof
      publicSignals :=
        { yShare := .bigint pcd.claim.yShare
          merkleRoot := .bigint pcd.claim.merkleRoot
          internalNullifier := .bigint pcd.claim.internalNullifier
          signalHash := .bigint pcd.claim.x
          externalNullifier := .bigint pcd.proof.externalNullifier } }
  epoch := pcd.claim.epoch
  rlnIdentifier := pcd.claim.rlnIdentifier

/-- The public signals as strings: what `generateProof` hands on. -/
def RLNFullProof.withStrings (fullProof : RLNFullProof) : RLNFullProof :=
  let publicSignals := fullProof.snarkProof.publicSignals
  { fullProof with
    snarkProof :=
      { fullProof.snarkProof with
        publicSignals :=
          { yShare := .str publicSignals.yShare.toText
            merkleRoot := .str publicSignals.merkleRoot.toText
            internalNullifier := .str publicSignals.internalNullifier.toText
            signalHash := .str publicSignals.signalHash.toText
            externalNullifier := .str publicSignals.externalNullifier.toText } } }

/-! ## Back and forth -/

@[simp] theorem StrBigInt.toBigInt_toText (signal : StrBigInt) :
    (StrBigInt.str signal.toText).toBigInt = signal.toBigInt := by
  cases signal with
  | bigint n => exact Js.bigIntOfText_bigIntToString n
  | str s => rfl

theorem RLNPCD.new_of_matching {id : String} {claim : RLNPCDClaim} {proof : RLNPCDProof}
    (h : rln.genNullifier claim.epoch claim.rlnIdentifier = proof.externalNullifier) :
    RLNPCD.new rln id claim proof = .ok ⟨id, claim, proof, h⟩ :=
  dif_pos h

/-- The proof comes back with its public signals as bigints. -/
theorem fromRLNFullProof_map_toRLNFullProof (id : String) (fullProof : RLNFullProof)
    (h : fullProof.snarkProof.publicSignals.externalNullifier.toBigInt
      = .ok (rln.genNullifier fullProof.epoch fullProof.rlnIdentifier)) :
    (fromRLNFullProof rln id fullProof).map RLNPCD.toRLNFullProof = fullProof.withBigints := by
  show RLNPCD.toRLNFullProof <$> fromRLNFullProof rln id fullProof = _ <$> _
  simp only [fromRLNFullProof, RLNPublicSignals.withBigints, map_bind, h]
  -- the same conversions in the same order, and then the constructor, which lets them through
  refine bind_congr fun x => bind_congr fun yShare => bind_congr fun merkleRoot =>
    bind_congr fun internalNullifier => ?_
  show RLNPCD.toRLNFullProof <$> RLNPCD.new rln id _ _ = _
  rw [RLNPCD.new_of_matching rfl]
  rfl

/-- A PCD is made again from the proof that it gives. -/
theorem fromRLNFullProof_toRLNFullProof (pcd : RLNPCD rln) :
    fromRLNFullProof rln pcd.id pcd.toRLNFullProof = .ok pcd :=
  RLNPCD.new_of_matching pcd.matching

/-- It makes no difference that `generateProof` hands on strings. -/
theorem fromRLNFullProof_withStrings (id : String) (fullProof : RLNFullProof) :
    fromRLNFullProof rln id fullProof.withStrings = fromRLNFullProof rln id fullProof := by
  simp [fromRLNFullProof, RLNFullProof.withStrings]

/-- So the proof that an application hands on gives the PCD again. -/
theorem fromRLNFullProof_of_pcd (pcd : RLNPCD rln) :
    fromRLNFullProof rln pcd.id pcd.toRLNFullProof.withStrings = .ok pcd := by
  rw [fromRLNFullProof_withStrings, fromRLNFullProof_toRLNFullProof]

/-! ## Writing -/

def StrBigInt.toBigJson : StrBigInt → BigJson
  | .bigint n => .bigint n
  | .str s => .str s

def coordinates (xs : List StrBigInt) : BigJson := .arr (xs.map StrBigInt.toBigJson)

def rows (xss : List (List StrBigInt)) : BigJson := .arr (xss.map coordinates)

def Proof.toBigJson (proof : Proof) : BigJson :=
  .obj
    [("pi_a", coordinates proof.pi_a), ("pi_b", rows proof.pi_b),
      ("pi_c", coordinates proof.pi_c), ("protocol", .str proof.protocol),
      ("curve", .str proof.curve)]

def RLNPCDClaim.toBigJson (claim : RLNPCDClaim) : BigJson :=
  .obj
    [("x", .bigint claim.x), ("epoch", .bigint claim.epoch),
      ("rlnIdentifier", .bigint claim.rlnIdentifier), ("yShare", .bigint claim.yShare),
      ("merkleRoot", .bigint claim.merkleRoot),
      ("internalNullifier", .bigint claim.internalNullifier)]

def RLNPCDProof.toBigJson (proof : RLNPCDProof) : BigJson :=
  .obj
    [("proof", proof.proof.toBigJson), ("externalNullifier", .bigint proof.externalNullifier)]

def RLNPCD.toBigJson (pcd : RLNPCD rln) : BigJson :=
  .obj
    [("id", .str pcd.id), ("claim", pcd.claim.toBigJson), ("proof", pcd.proof.toBigJson),
      ("type", .str RLNPCDTypeName)]

structure SerializedPCD where
  type : String
  pcd : String

def serialize (lib : JSONBig) (pcd : RLNPCD rln) : SerializedPCD :=
  { type := RLNPCDTypeName, pcd := pcd.toBigJson.stringify lib.quote }

/-! ## Reading -/

/-- What `deserialize` returns: an object of the class whose fields are the values that were
    read. -/
structure RLNPCDObject where
  id : Option BigValue
  claim : Option BigValue
  proof : Option BigValue

def deserialize (lib : JSONBig) (rln : RLN) (serialized : String) : Except Exn RLNPCDObject :=
  match lib.parse serialized with
  | none => .error .syntaxError
  | some parsed => do
      let proof ← BigValue.prop (some parsed) "proof"
      let claim ← BigValue.prop (some parsed) "claim"
      let id ← BigValue.prop (some parsed) "id"
      checkClaimProofMatching rln claim proof
      pure { id, claim, proof }

/-- The PCD as such an object. -/
def RLNPCD.toObject (pcd : RLNPCD rln) : RLNPCDObject where
  id := some (.str pcd.id)
  claim := some pcd.claim.toBigJson.asIs
  proof := some pcd.proof.toBigJson.asIs

def StrBigInt.bigints : StrBigInt → List ℤ
  | .bigint n => [n]
  | .str _ => []

def Proof.bigints (proof : Proof) : List ℤ :=
  (proof.pi_a ++ proof.pi_b.flatten ++ proof.pi_c).flatMap StrBigInt.bigints

/-- The fields of the claim, the coordinates that are bigints, and the nullifier. -/
def RLNPCD.bigints (pcd : RLNPCD rln) : List ℤ :=
  [pcd.claim.x, pcd.claim.epoch, pcd.claim.rlnIdentifier, pcd.claim.yShare, pcd.claim.merkleRoot,
      pcd.claim.internalNullifier]
    ++ pcd.proof.proof.bigints ++ [pcd.proof.externalNullifier]

theorem bigints_coordinates (xs : List StrBigInt) :
    (coordinates xs).bigints = xs.flatMap StrBigInt.bigints := by
  rw [coordinates, BigJson.bigints_arr_map]
  refine List.flatMap_congr fun x _ => ?_
  cases x with
  | bigint n => rfl
  | str s => rfl

theorem bigints_rows (xss : List (List StrBigInt)) :
    (rows xss).bigints = xss.flatten.flatMap StrBigInt.bigints := by
  rw [rows, BigJson.bigints_arr_map]
  induction xss with
  | nil => rfl
  | cons xs xss ih =>
      rw [List.flatMap_cons, ih, bigints_coordinates, List.flatten_cons, List.flatMap_append]

theorem RLNPCD.mem_bigints {pcd : RLNPCD rln} {n : ℤ} :
    n ∈ pcd.bigints ↔
      n ∈ pcd.claim.toBigJson.bigints ∨ n ∈ pcd.proof.toBigJson.bigints := by
  simp only [RLNPCD.bigints, Proof.bigints, RLNPCDClaim.toBigJson, RLNPCDProof.toBigJson,
    Proof.toBigJson, BigJson.bigints, BigJson.bigintsFields, bigints_coordinates, bigints_rows,
    List.flatMap_append, List.mem_append, List.mem_cons, List.not_mem_nil, or_false, or_assoc]

theorem StrBigInt.keysDiffer (signal : StrBigInt) : signal.toBigJson.KeysDiffer := by
  cases signal with
  | bigint n => trivial
  | str s => trivial

theorem keysDiffer_coordinates (xs : List StrBigInt) : (coordinates xs).KeysDiffer :=
  BigJson.keysDiffer_arr_map StrBigInt.keysDiffer xs

theorem Proof.keysDiffer (proof : Proof) : proof.toBigJson.KeysDiffer :=
  ⟨by simp, keysDiffer_coordinates _, BigJson.keysDiffer_arr_map keysDiffer_coordinates _,
    keysDiffer_coordinates _, trivial, trivial, trivial⟩

/-- No key is there twice. -/
theorem RLNPCD.keysDiffer (pcd : RLNPCD rln) : pcd.toBigJson.KeysDiffer := by
  have hclaim : pcd.claim.toBigJson.KeysDiffer :=
    ⟨by simp, trivial, trivial, trivial, trivial, trivial, trivial, trivial⟩
  have hproof : pcd.proof.toBigJson.KeysDiffer :=
    ⟨by simp, pcd.proof.proof.keysDiffer, trivial, trivial⟩
  exact ⟨by simp, trivial, hclaim, hproof, trivial, trivial⟩

theorem keys_coordinates (xs : List StrBigInt) : (coordinates xs).keys = [] := by
  refine BigJson.keys_arr_map (fun x => ?_) xs
  cases x with
  | bigint n => rfl
  | str s => rfl

theorem keys_rows (xss : List (List StrBigInt)) : (rows xss).keys = [] :=
  BigJson.keys_arr_map keys_coordinates xss

/-- All keys that are written. -/
theorem RLNPCD.keys_toBigJson (pcd : RLNPCD rln) :
    pcd.toBigJson.keys = ["id", "claim", "x", "epoch", "rlnIdentifier", "yShare", "merkleRoot",
      "internalNullifier", "proof", "proof", "pi_a", "pi_b", "pi_c", "protocol", "curve",
      "externalNullifier", "type"] := by
  simp [RLNPCD.toBigJson, RLNPCDClaim.toBigJson, RLNPCDProof.toBigJson, Proof.toBigJson,
    BigJson.keys, BigJson.keysFields, keys_coordinates, keys_rows]

theorem RLNPCD.allowedKeys (pcd : RLNPCD rln) : ∀ key ∈ pcd.toBigJson.keys, Js.AllowedKey key := by
  rw [pcd.keys_toBigJson]
  decide +kernel

/-! ## What comes back -/

/-- A claim of bigints is compared by a bigint. -/
theorem checkClaimProofMatching_claim (claim : RLNPCDClaim) {proof nullifier : Option BigValue}
    (hnullifier : BigValue.prop proof "externalNullifier" = .ok nullifier) :
    checkClaimProofMatching rln (some claim.toBigJson.asIs) proof
      = if BigValue.strictEq (some (.bigint (rln.genNullifier claim.epoch claim.rlnIdentifier)))
          nullifier then .ok ()
        else (BigValue.templateText nullifier).bind fun actual =>
          .error (mismatch
            (Js.bigIntToString (rln.genNullifier claim.epoch claim.rlnIdentifier)) actual) := by
  have hepoch : BigValue.prop (some claim.toBigJson.asIs) "epoch"
      = .ok (some (.bigint claim.epoch)) := rfl
  have hidentifier : BigValue.prop (some claim.toBigJson.asIs) "rlnIdentifier"
      = .ok (some (.bigint claim.rlnIdentifier)) := rfl
  rw [checkClaimProofMatching, hepoch, hidentifier, hnullifier]
  simp only [bind, Except.bind, rln.genNullifierOf_bigint]
  rfl

/-- On bigints the check is the one of the constructor. -/
theorem checkClaimProofMatching_asIs (id : String) (claim : RLNPCDClaim) (proof : RLNPCDProof) :
    checkClaimProofMatching rln (some claim.toBigJson.asIs) (some proof.toBigJson.asIs)
      = (RLNPCD.new rln id claim proof).map fun _ => () := by
  have hnullifier : BigValue.prop (some proof.toBigJson.asIs) "externalNullifier"
      = .ok (some (.bigint proof.externalNullifier)) := rfl
  rw [checkClaimProofMatching_claim claim hnullifier]
  simp only [BigValue.strictEq_bigint, BigValue.templateText_bigint, decide_eq_true_eq]
  by_cases h : rln.genNullifier claim.epoch claim.rlnIdentifier = proof.externalNullifier
  · rw [if_pos h, RLNPCD.new_of_matching h]
    rfl
  · rw [if_neg h, RLNPCD.new, dif_neg h]
    rfl

/-- The check decides on what was read; no field is converted. -/
theorem deserialize_serialize (lib : JSONBig) (pcd : RLNPCD rln) :
    deserialize lib rln (serialize lib pcd).pcd
      = (checkClaimProofMatching rln (some pcd.claim.toBigJson.reread)
          (some pcd.proof.toBigJson.reread)).map fun _ =>
            { id := some (.str pcd.id), claim := some pcd.claim.toBigJson.reread,
              proof := some pcd.proof.toBigJson.reread } := by
  have hproof : BigValue.prop (some pcd.toBigJson.reread) "proof"
      = .ok (some pcd.proof.toBigJson.reread) := rfl
  have hclaim : BigValue.prop (some pcd.toBigJson.reread) "claim"
      = .ok (some pcd.claim.toBigJson.reread) := rfl
  have hid : BigValue.prop (some pcd.toBigJson.reread) "id" = .ok (some (.str pcd.id)) := rfl
  rw [deserialize, serialize, lib.parse_stringify _ pcd.keysDiffer pcd.allowedKeys]
  simp only [hproof, hclaim, hid]
  rfl

/-- The PCD comes back if and only if all its bigints are long. -/
theorem deserialize_serialize_eq_ok_iff (lib : JSONBig) (pcd : RLNPCD rln) :
    deserialize lib rln (serialize lib pcd).pcd = .ok pcd.toObject ↔
      ∀ n ∈ pcd.bigints, BigJson.Long n := by
  have hlong : (∀ n ∈ pcd.bigints, BigJson.Long n) ↔
      pcd.claim.toBigJson.reread = pcd.claim.toBigJson.asIs ∧
        pcd.proof.toBigJson.reread = pcd.proof.toBigJson.asIs := by
    rw [BigJson.reread_eq_asIs_iff, BigJson.reread_eq_asIs_iff]
    simp only [RLNPCD.mem_bigints, or_imp, forall_and]
  rw [hlong, deserialize_serialize]
  constructor
  · intro h
    cases hcheck : checkClaimProofMatching rln (some pcd.claim.toBigJson.reread)
        (some pcd.proof.toBigJson.reread) with
    | error e =>
        rw [hcheck] at h
        cases h
    | ok _ =>
        rw [hcheck] at h
        have hobject := Except.ok.inj h
        exact ⟨Option.some.inj (congrArg RLNPCDObject.claim hobject),
          Option.some.inj (congrArg RLNPCDObject.proof hobject)⟩
  · rintro ⟨hclaim, hproof⟩
    rw [hclaim, hproof, checkClaimProofMatching_asIs pcd.id, RLNPCD.new_of_matching pcd.matching]
    rfl

/-- A short nullifier is a number then, and never the bigint that is computed from the claim. -/
theorem deserialize_short_externalNullifier (lib : JSONBig) (pcd : RLNPCD rln)
    (hclaim : ∀ n ∈ pcd.claim.toBigJson.bigints, BigJson.Long n)
    (hshort : ¬ BigJson.Long pcd.proof.externalNullifier) :
    deserialize lib rln (serialize lib pcd).pcd
      = .error (mismatch (Js.bigIntToString pcd.proof.externalNullifier)
          (Js.numberToString (.finite pcd.proof.externalNullifier))) := by
  have hnullifier : BigValue.prop (some pcd.proof.toBigJson.reread) "externalNullifier"
      = .ok (some (.num (.finite pcd.proof.externalNullifier))) := by
    rw [← BigJson.rereadInteger_of_not_long hshort]
    rfl
  rw [deserialize_serialize, (BigJson.reread_eq_asIs_iff _).mpr hclaim,
    checkClaimProofMatching_claim _ hnullifier, pcd.matching]
  rfl

/-! ## The conversions -/

/-- A proof comes back with its public signals as bigints, and a PCD comes back if and only if all
    its bigints have more than fifteen characters. -/
theorem conversions_iff (lib : JSONBig) (rln : RLN) :
    (∀ (id : String) (fullProof : RLNFullProof),
      fullProof.snarkProof.publicSignals.externalNullifier.toBigInt
          = .ok (rln.genNullifier fullProof.epoch fullProof.rlnIdentifier) →
        (fromRLNFullProof rln id fullProof).map RLNPCD.toRLNFullProof = fullProof.withBigints) ∧
    ∀ pcd : RLNPCD rln,
      deserialize lib rln (serialize lib pcd).pcd = .ok pcd.toObject ↔
        ∀ n ∈ pcd.bigints, 15 < (Js.bigIntToString n).length :=
  ⟨fun id fullProof h => fromRLNFullProof_map_toRLNFullProof id fullProof h,
    fun pcd => deserialize_serialize_eq_ok_iff lib pcd⟩

/-- A nullifier that is computed without a hash. -/
def RLN.linear : RLN where
  genNullifier epoch rlnIdentifier := 10 ^ 20 * epoch + rlnIdentifier
  genNullifierOf epoch rlnIdentifier := do
    let epoch ← BigValue.toBigInt epoch
    let rlnIdentifier ← BigValue.toBigInt rlnIdentifier
    pure (some (.bigint (10 ^ 20 * epoch + rlnIdentifier)))
  genNullifierOf_bigint _ _ := rfl

/-- The PCD of an application, with everything but the identifier long. -/
def RLNPCD.ofIdentifier (rlnIdentifier : ℤ) : RLNPCD RLN.linear where
  id := "2b7f"
  claim :=
    { x := 10 ^ 20 + 1, epoch := 10 ^ 15, rlnIdentifier, yShare := 10 ^ 20 + 2,
      merkleRoot := 10 ^ 20 + 3, internalNullifier := 10 ^ 20 + 4 }
  proof :=
    { proof :=
        { pi_a := [.str "1", .str "2", .str "1"]
          pi_b := [[.str "3", .str "4"], [.str "5", .str "6"], [.str "1", .str "0"]]
          pi_c := [.str "7", .str "8", .str "1"]
          protocol := "groth16"
          curve := "bn128" }
      externalNullifier := RLN.linear.genNullifier (10 ^ 15) rlnIdentifier }
  matching := rfl

/-- With a long identifier everything comes back, also from a proof whose signals are strings. -/
theorem conversions_long_identifier :
    (fromRLNFullProof RLN.linear "2b7f"
        (RLNPCD.ofIdentifier (10 ^ 20)).toRLNFullProof.withStrings).map RLNPCD.toRLNFullProof
      = (RLNPCD.ofIdentifier (10 ^ 20)).toRLNFullProof.withStrings.withBigints ∧
    deserialize JSONBig.compact RLN.linear
        (serialize JSONBig.compact (RLNPCD.ofIdentifier (10 ^ 20))).pcd
      = .ok (RLNPCD.ofIdentifier (10 ^ 20)).toObject :=
  ⟨(conversions_iff JSONBig.compact RLN.linear).1 _ _ (StrBigInt.toBigInt_toText (.bigint _)),
    ((conversions_iff JSONBig.compact RLN.linear).2 _).mpr (by decide +kernel)⟩

/-- The identifier of the application comes back as a number. -/
theorem conversions_app_identifier :
    ((deserialize JSONBig.compact RLN.linear
        (serialize JSONBig.compact (RLNPCD.ofIdentifier 11231)).pcd).bind fun pcd =>
          BigValue.prop pcd.claim "rlnIdentifier") = .ok (some (.num (.finite 11231))) ∧
    deserialize JSONBig.compact RLN.linear
        (serialize JSONBig.compact (RLNPCD.ofIdentifier 11231)).pcd
      ≠ .ok (RLNPCD.ofIdentifier 11231).toObject := by
  refine ⟨?_, (deserialize_serialize_eq_ok_iff _ _).not.mpr (by decide +kernel)⟩
  rw [deserialize_serialize]
  rfl

end ZkChat.RlnPcd
