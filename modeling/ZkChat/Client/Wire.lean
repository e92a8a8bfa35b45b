import ZkChat.Client.RoomIds
import ZkChat.Js.JsonBig
import ZkChat.Server.EpochTolerance
import ZkChat.Server.MessageHandler

set_option autoImplicit false

/-! # The proof on the wire

The client writes its message with `JSONBig`, which keeps bigints, and the server reads it with
`JSON.parse`, which does not. A proof arrives as it was sent exactly if all numbers that it carries
as bigints are doubles (`survivesWire_iff`). Decimal strings always arrive. -/

namespace ZkChat

open ProfileManager

/-! ## Proofs -/

/-- A decimal string, with or without a sign. -/
structure DecimalString where
  negative : Bool
  digits : List Char
  ne_nil : digits ≠ []
  isDigit : ∀ c ∈ digits, c.isDigit

namespace DecimalString

def text (s : DecimalString) : String :=
  String.ofList (if s.negative then '-' :: s.digits else s.digits)

def value (s : DecimalString) : ℤ :=
  if s.negative then -(Nat.ofDigitChars 10 s.digits 0 : ℕ) else (Nat.ofDigitChars 10 s.digits 0 : ℕ)

theorem bigIntOfText_text (s : DecimalString) : Js.bigIntOfText s.text = .ok s.value := by
  obtain ⟨negative, ds, hne, hdigit⟩ := s
  have hspace : ∀ c ∈ ds, Js.isSpace c = false :=
    fun c hc => Js.not_isSpace_of_isDigit (hdigit c hc)
  rw [Js.bigIntOfText, Js.stringToBigInt, text, value, String.toList_ofList]
  cases negative with
  | false =>
      simp only [Bool.false_eq_true, if_false]
      rw [Js.trim_of_ends hspace, Js.integerLiteral_of_isDigit hne hdigit]
  | true =>
      have hspace' : ∀ c ∈ '-' :: ds, Js.isSpace c = false :=
        List.forall_mem_cons.mpr ⟨by decide, hspace⟩
      simp only [if_true]
      rw [Js.trim_of_ends hspace', Js.integerLiteral, Js.digits_ten_of_isDigit hne hdigit]
      rfl

end DecimalString

/-- The types of `rlnjs`. -/
inductive StrBigInt where
  | bigint (n : ℤ)
  | str (s : DecimalString)

structure Proof where
  pi_a : List String
  pi_b : List (List String)
  pi_c : List String
  protocol : String
  curve : String

structure RLNPublicSignals where
  yShare : StrBigInt
  merkleRoot : StrBigInt
  internalNullifier : StrBigInt
  signalHash : StrBigInt
  externalNullifier : StrBigInt

structure RLNSNARKProof where
  proof : Proof
  publicSignals : RLNPublicSignals

structure RLNFullProof where
  snarkProof : RLNSNARKProof
  epoch : ℕ
  rlnIdentifier : ℕ

/-- `BigInt(signal)`. -/
def StrBigInt.value : StrBigInt → ℤ
  | .bigint n => n
  | .str s => s.value

def StrBigInt.bigints : StrBigInt → List ℤ
  | .bigint n => [n]
  | .str _ => []

def RLNPublicSignals.fields (signals : RLNPublicSignals) : List (String × StrBigInt) :=
  [("yShare", signals.yShare), ("merkleRoot", signals.merkleRoot),
    ("internalNullifier", signals.internalNullifier), ("signalHash", signals.signalHash),
    ("externalNullifier", signals.externalNullifier)]

/-- The numbers of the proof that are not strings. -/
def RLNFullProof.bigints (fullProof : RLNFullProof) : List ℤ :=
  [(fullProof.epoch : ℤ), (fullProof.rlnIdentifier : ℤ)]
    ++ fullProof.snarkProof.publicSignals.fields.flatMap fun signal => signal.2.bigints

/-! ## Their values -/

def StrBigInt.toBigJson : StrBigInt → Js.BigJson
  | .bigint n => .bigint n
  | .str s => .str s.text

def Proof.toBigJson (proof : Proof) : Js.BigJson :=
  let strings (xs : List String) : Js.BigJson := .arr (xs.map .str)
  .obj
    [("pi_a", strings proof.pi_a), ("pi_b", .arr (proof.pi_b.map strings)),
      ("pi_c", strings proof.pi_c), ("protocol", .str proof.protocol), ("curve", .str proof.curve)]

def RLNPublicSignals.toBigJson (signals : RLNPublicSignals) : Js.BigJson :=
  .obj (signals.fields.map fun signal => (signal.1, signal.2.toBigJson))

def RLNSNARKProof.toBigJson (snarkProof : RLNSNARKProof) : Js.BigJson :=
  .obj
    [("proof", snarkProof.proof.toBigJson), ("publicSignals", snarkProof.publicSignals.toBigJson)]

def RLNFullProof.toBigJson (fullProof : RLNFullProof) : Js.BigJson :=
  .obj
    [("snarkProof", fullProof.snarkProof.toBigJson), ("epoch", .bigint fullProof.epoch),
      ("rlnIdentifier", .bigint fullProof.rlnIdentifier)]

theorem StrBigInt.keysDiffer (signal : StrBigInt) : signal.toBigJson.KeysDiffer := by
  cases signal <;> trivial

theorem keysDiffer_strings (xs : List String) : (Js.BigJson.arr (xs.map .str)).KeysDiffer :=
  Js.BigJson.keysDiffer_arr_map (f := .str) (fun _ => trivial) xs

theorem Proof.keysDiffer (proof : Proof) : proof.toBigJson.KeysDiffer :=
  ⟨by simp, keysDiffer_strings _, Js.BigJson.keysDiffer_arr_map keysDiffer_strings _,
    keysDiffer_strings _, trivial, trivial, trivial⟩

theorem RLNFullProof.keysDiffer (fullProof : RLNFullProof) : fullProof.toBigJson.KeysDiffer := by
  have hsignals : fullProof.snarkProof.publicSignals.toBigJson.KeysDiffer :=
    ⟨by simp [RLNPublicSignals.fields], StrBigInt.keysDiffer _, StrBigInt.keysDiffer _,
      StrBigInt.keysDiffer _, StrBigInt.keysDiffer _, StrBigInt.keysDiffer _, trivial⟩
  exact ⟨by simp, ⟨by simp, Proof.keysDiffer _, hsignals, trivial⟩, trivial, trivial, trivial⟩

/-! ## What is sent -/

structure IStorageArtifacts where
  leaves : List String
  depth : ℕ
  leavesPerNode : ℕ

def ChatManager.RLN_IDENTIFIER : ℤ := 11231

/-- The user id is a number that `generateRandomID` has drawn. -/
def ProfileManager.getUserHandle : Option String → Option ℕ → String
  | some username, some user_id => username ++ "#" ++ toString user_id
  | _, _ => "anon"

section

variable (quote : String → List Char) (genSignalHash : String → ℤ)
  (encryptMessageSymmetric : String → String → Except Exn String)
  (proof_generator_callback :
    String → String → IStorageArtifacts → String → Except Exn RLNFullProof)
  (now : TimeValue) (signal : String) (leaves : List String)

/-- What the callback returns. -/
def ChatManager.callProofGenerator : Except Exn RLNFullProof :=
  let storageArtifacts : IStorageArtifacts := { leaves, depth := 16, leavesPerNode := 2 }
  proof_generator_callback (getEpoch now) signal storageArtifacts
    (Js.bigIntToString RLN_IDENTIFIER)

/-- The text that goes to the server, after `checkRootUpToDate`; `signal` is what
    `generateRandomSignal` has drawn. -/
def ChatManager.sendMessage (rooms : IRooms) (senderHandle chat_room_id raw_message : String) :
    Except Exn String := do
  let fullProof ← callProofGenerator proof_generator_callback now signal leaves
  let xShare := Js.bigIntToString (genSignalHash signal)
  let roomData ← getRoomById rooms chat_room_id
  let encryptedMessage ←
    encryptMessageForRoom encryptMessageSymmetric rooms chat_room_id raw_message
  let message : Js.BigJson := .obj
    [("zk_proof", fullProof.toBigJson), ("x_share", .str xShare), ("epoch", .str (getEpoch now)),
      ("chat_type", .str roomData.type), ("message_content", .str encryptedMessage),
      ("sender", .str senderHandle)]
  pure (message.stringify quote)

end

/-- The server accepts the text, and finds the numbers of the proof in it. -/
def SurvivesWire (fullProof : RLNFullProof) (text : String) : Prop :=
  ∃ message, validateFormat text = some message ∧
    (Js.prop message.zk_proof "epoch" >>= Js.bigInt) = .ok (fullProof.epoch : ℤ) ∧
    (Js.prop message.zk_proof "rlnIdentifier" >>= Js.bigInt) = .ok (fullProof.rlnIdentifier : ℤ) ∧
    ∀ signal ∈ fullProof.snarkProof.publicSignals.fields,
      (publicSignal message.zk_proof signal.1 >>= Js.bigInt) = .ok signal.2.value

/-! ## What arrives -/

/-- `BigInt` of what arrives for a public signal. -/
theorem StrBigInt.bigInt_received (signal : StrBigInt) :
    Js.bigInt (some signal.toBigJson.received) = .ok signal.value ↔
      ∀ n ∈ signal.bigints, Js.IsDouble n.natAbs := by
  cases signal with
  | bigint n =>
      rw [StrBigInt.toBigJson, Js.BigJson.received, StrBigInt.value, Js.bigInt_literalNumber]
      simp [StrBigInt.bigints]
  | str s => exact iff_of_true s.bigIntOfText_text (by simp [StrBigInt.bigints])

/-- The signals are found under their names. -/
theorem RLNFullProof.publicSignal_received (fullProof : RLNFullProof) {signal : String × StrBigInt}
    (h : signal ∈ fullProof.snarkProof.publicSignals.fields) :
    publicSignal (some fullProof.toBigJson.received) signal.1
      = .ok (some signal.2.toBigJson.received) := by
  simp only [RLNPublicSignals.fields, List.mem_cons, List.not_mem_nil, or_false] at h
  rcases h with rfl | rfl | rfl | rfl | rfl <;> rfl

section

variable {quote : String → List Char} {genSignalHash : String → ℤ}
  {encryptMessageSymmetric : String → String → Except Exn String}
  {proof_generator_callback :
    String → String → IStorageArtifacts → String → Except Exn RLNFullProof}
  {now : TimeValue} {signal : String} {leaves : List String} {rooms : IRooms}
  {senderHandle chat_room_id raw_message text : String} {fullProof : RLNFullProof}

/-- The server reads the message that is sent, with the proof as it arrives. -/
theorem validateFormat_sendMessage (hquote : Js.QuotesStrings quote)
    (hproof : ChatManager.callProofGenerator proof_generator_callback now signal leaves
      = .ok fullProof)
    (hsent : ChatManager.sendMessage quote genSignalHash encryptMessageSymmetric
      proof_generator_callback now signal leaves rooms senderHandle chat_room_id raw_message
        = .ok text) :
    ∃ roomData encryptedMessage, getRoomById rooms chat_room_id = .ok roomData ∧
      encryptMessageForRoom encryptMessageSymmetric rooms chat_room_id raw_message
        = .ok encryptedMessage ∧
      validateFormat text = some
        { zk_proof := some fullProof.toBigJson.received
          x_share := some (.str (Js.bigIntToString (genSignalHash signal)))
          epoch := some (.str (getEpoch now))
          chat_type := some (.str roomData.type)
          message_content := some (.str encryptedMessage)
          sender := some (.str senderHandle) } := by
  obtain ⟨proof, hgenerated, hsent⟩ := Except.bind_ok_iff.mp hsent
  obtain rfl := Except.ok.inj (hproof.symm.trans hgenerated)
  obtain ⟨roomData, hroom, hsent⟩ := Except.bind_ok_iff.mp hsent
  obtain ⟨encryptedMessage, hencrypt, hsent⟩ := Except.bind_ok_iff.mp hsent
  cases hsent
  refine ⟨roomData, encryptedMessage, hroom, hencrypt, ?_⟩
  rw [validateFormat, Js.jsonParse_stringify hquote]
  · rfl
  · exact ⟨by simp, fullProof.keysDiffer, trivial, trivial, trivial, trivial, trivial, trivial⟩

variable (genSignalHash senderHandle) in
/-- In a room of a profile whose rooms have different ids, it is sent with the type of the room,
    under the key of the room. -/
theorem sendMessage_read (hquote : Js.QuotesStrings quote)
    (hproof : ChatManager.callProofGenerator proof_generator_callback now signal leaves
      = .ok fullProof) (hids : rooms.ids.Nodup) {r : ChatRoom} (hr : r ∈ rooms.all) {c : String}
    (hc : encryptMessageSymmetric raw_message r.symmetric_key = .ok c) :
    ∃ text, ChatManager.sendMessage quote genSignalHash encryptMessageSymmetric
        proof_generator_callback now signal leaves rooms senderHandle r.id raw_message = .ok text ∧
      validateFormat text = some
        { zk_proof := some fullProof.toBigJson.received
          x_share := some (.str (Js.bigIntToString (genSignalHash signal)))
          epoch := some (.str (getEpoch now))
          chat_type := some (.str r.type)
          message_content := some (.str c)
          sender := some (.str senderHandle) } := by
  have hidentify := idsIdentify_iff.mpr hids
  have hroom := hidentify.found r hr
  have hencrypt := (hidentify.used r hr encryptMessageSymmetric raw_message).trans hc
  obtain ⟨text, hsent⟩ : ∃ text, ChatManager.sendMessage quote genSignalHash
      encryptMessageSymmetric proof_generator_callback now signal leaves rooms senderHandle r.id
        raw_message = .ok text := by
    rw [ChatManager.sendMessage, hproof, hroom, hencrypt]
    exact ⟨_, rfl⟩
  obtain ⟨roomData, encryptedMessage, hroom', hencrypt', hformat⟩ :=
    validateFormat_sendMessage hquote hproof hsent
  obtain rfl := Except.ok.inj (hroom.symm.trans hroom')
  obtain rfl := Except.ok.inj (hencrypt.symm.trans hencrypt')
  exact ⟨text, hsent, hformat⟩

/-- What is accepted survives if its bigints are doubles. -/
theorem survivesWire_of_received {message : RLNMessage}
    (hformat : validateFormat text = some message)
    (hzk : message.zk_proof = some fullProof.toBigJson.received) :
    SurvivesWire fullProof text ↔ ∀ n ∈ fullProof.bigints, Js.IsDouble n.natAbs := by
  have hepoch : (Js.prop message.zk_proof "epoch" >>= Js.bigInt) = .ok (fullProof.epoch : ℤ) ↔
      Js.IsDouble (fullProof.epoch : ℤ).natAbs := by
    rw [hzk]
    exact Js.bigInt_literalNumber
  have hrln : (Js.prop message.zk_proof "rlnIdentifier" >>= Js.bigInt)
      = .ok (fullProof.rlnIdentifier : ℤ) ↔ Js.IsDouble (fullProof.rlnIdentifier : ℤ).natAbs := by
    rw [hzk]
    exact Js.bigInt_literalNumber
  have hsignal : ∀ signal ∈ fullProof.snarkProof.publicSignals.fields,
      ((publicSignal message.zk_proof signal.1 >>= Js.bigInt) = .ok signal.2.value ↔
        ∀ n ∈ signal.2.bigints, Js.IsDouble n.natAbs) := by
    intro signal hmem
    rw [hzk, fullProof.publicSignal_received hmem]
    exact signal.2.bigInt_received
  -- the signals that are strings carry no bigints, and survive
  have hall : (∀ n ∈ fullProof.bigints, Js.IsDouble n.natAbs) ↔
      Js.IsDouble (fullProof.epoch : ℤ).natAbs ∧ Js.IsDouble (fullProof.rlnIdentifier : ℤ).natAbs ∧
        ∀ signal ∈ fullProof.snarkProof.publicSignals.fields, ∀ n ∈ signal.2.bigints,
          Js.IsDouble n.natAbs := by
    simp only [RLNFullProof.bigints, List.cons_append, List.nil_append, List.forall_mem_cons,
      List.mem_flatMap, forall_exists_index, and_imp]
    refine and_congr Iff.rfl (and_congr Iff.rfl ⟨fun h signal hmem n hn => h n signal hmem hn,
      fun h n signal hmem hn => h signal hmem n hn⟩)
  rw [hall]
  constructor
  · rintro ⟨message', hformat', he, hr, hs⟩
    obtain rfl : message = message' := Option.some.inj (hformat.symm.trans hformat')
    exact ⟨hepoch.mp he, hrln.mp hr, fun signal hmem => (hsignal signal hmem).mp (hs signal hmem)⟩
  · rintro ⟨he, hr, hs⟩
    exact ⟨message, hformat, hepoch.mpr he, hrln.mpr hr,
      fun signal hmem => (hsignal signal hmem).mpr (hs signal hmem)⟩

/-- The proof survives exactly if the numbers that it carries as bigints are doubles. -/
theorem survivesWire_iff (hquote : Js.QuotesStrings quote)
    (hproof : ChatManager.callProofGenerator proof_generator_callback now signal leaves
      = .ok fullProof)
    (hsent : ChatManager.sendMessage quote genSignalHash encryptMessageSymmetric
      proof_generator_callback now signal leaves rooms senderHandle chat_room_id raw_message
        = .ok text) :
    SurvivesWire fullProof text ↔ ∀ n ∈ fullProof.bigints, Js.IsDouble n.natAbs := by
  obtain ⟨roomData, encryptedMessage, -, -, hformat⟩ :=
    validateFormat_sendMessage hquote hproof hsent
  exact survivesWire_of_received hformat rfl

end

/-! ## Two proofs -/

/-- The proof of the client's tests, but for one of its signals. -/
def proofWithShare (yShare : StrBigInt) : RLNFullProof :=
  let text : StrBigInt := .str ⟨false, ['1', '2', '3'], by decide, List.all_eq_true.mp rfl⟩
  { snarkProof :=
      { proof :=
          { pi_a := ["pi_a"], pi_b := [["pi_b"]], pi_c := ["pi_c"], protocol := "p", curve := "c" }
        publicSignals :=
          { yShare, merkleRoot := text, internalNullifier := text, signalHash := text
            externalNullifier := text } }
    epoch := 123
    rlnIdentifier := 123 }

/-- `-7`. -/
def negativeShare : StrBigInt := .str ⟨true, ['7'], by decide, List.all_eq_true.mp rfl⟩

/-- A message in the lobby. -/
def lobbyText (fullProof : RLNFullProof) : Except Exn String :=
  ChatManager.sendMessage Js.quote (fun _ => 111) (fun message _ => .ok message)
    (fun _ _ _ _ => .ok fullProof) (.ofNat 1639339320000 (by decide)) "0.1" ["1111", "2222"]
    ⟨[defaultChatroom], [], []⟩ "anon" defaultChatroom.id "raw message"

theorem lobbyText_sent (fullProof : RLNFullProof) : ∃ text, lobbyText fullProof = .ok text := by
  have hroom : getRoomById ⟨[defaultChatroom], [], []⟩ defaultChatroom.id
      = .ok (.room defaultChatroom) := by
    simp [getRoomById]
  have henc : ∀ message, encryptMessageForRoom (fun message _ => .ok message)
      ⟨[defaultChatroom], [], []⟩ defaultChatroom.id message = .ok message := by
    simp [encryptMessageForRoom]
  rw [lobbyText, ChatManager.sendMessage, hroom, henc]
  exact ⟨_, rfl⟩

/-- The proof of the tests survives. -/
theorem decimal_proof_survives :
    ∃ text, lobbyText (proofWithShare negativeShare) = .ok text ∧
      SurvivesWire (proofWithShare negativeShare) text := by
  obtain ⟨text, htext⟩ := lobbyText_sent (proofWithShare negativeShare)
  refine ⟨text, htext, (survivesWire_iff Js.quotesStrings_quote rfl htext).mpr ?_⟩
  simp only [proofWithShare, RLNFullProof.bigints, RLNPublicSignals.fields, StrBigInt.bigints,
    negativeShare, List.flatMap_cons, List.flatMap_nil, List.append_nil, List.forall_mem_cons,
    List.not_mem_nil, false_implies, implies_true, and_true]
  exact ⟨Js.isDouble_of_le (by decide), Js.isDouble_of_le (by decide)⟩

/-- A share that is a bigint and has one bit too many. -/
theorem odd_share_is_rounded :
    ¬ ∀ quote, Js.QuotesStrings quote →
      ∀ (genSignalHash : String → ℤ)
        (encryptMessageSymmetric : String → String → Except Exn String)
        (proof_generator_callback :
          String → String → IStorageArtifacts → String → Except Exn RLNFullProof)
        (now : TimeValue) (signal : String) (leaves : List String) (rooms : IRooms)
        (senderHandle chat_room_id raw_message text : String) (fullProof : RLNFullProof),
        ChatManager.callProofGenerator proof_generator_callback now signal leaves = .ok fullProof →
        ChatManager.sendMessage quote genSignalHash encryptMessageSymmetric
          proof_generator_callback now signal leaves rooms senderHandle chat_room_id raw_message
            = .ok text →
        SurvivesWire fullProof text := by
  intro h
  obtain ⟨text, htext⟩ := lobbyText_sent (proofWithShare (.bigint (2 ^ 53 + 1)))
  have hsurvives := h _ Js.quotesStrings_quote _ _ _ _ _ _ _ _ _ _ _ _ rfl htext
  obtain ⟨roomData, encryptedMessage, -, -, hformat⟩ :=
    validateFormat_sendMessage Js.quotesStrings_quote rfl htext
  have hdouble := (survivesWire_of_received hformat rfl).mp hsurvives
  refine Js.not_isDouble_of_odd (by decide) (by decide) (hdouble (2 ^ 53 + 1) ?_)
  simp [proofWithShare, RLNFullProof.bigints, RLNPublicSignals.fields, StrBigInt.bigints]

end ZkChat
