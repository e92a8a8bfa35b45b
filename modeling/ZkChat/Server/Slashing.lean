import ZkChat.Server.Ban
import ZkChat.Server.RateLimit
import Mathlib.Algebra.Field.ZMod
import Mathlib.Tactic.LinearCombination

set_option autoImplicit false

/-! # Whom slashing hits

A message that breaks the spam rule costs a member the leaf. Which member, `getUserFromShares`
computes from two points: rows stored for the nullifier, and the message itself. The points are the
sender's where every x share is the abscissa that its proof is about; then the secret that is
recovered is the one the proof was made with. The x share is a field beside the proof, and no check
compares the two. -/

namespace ZkChat

open Prog

/-! ## Two points of a line -/

/-- The value at zero of the line through two points of `s + x * a`. -/
theorem intercept_of_line {F : Type} [Field F] {s a x₁ x₂ y₁ y₂ r : F} (hne : x₁ ≠ x₂)
    (h₁ : y₁ = s + x₁ * a) (h₂ : y₂ = s + x₂ * a) (hr : r * (x₂ - x₁) = y₁ * x₂ - y₂ * x₁) :
    r = s := by
  refine mul_right_cancel₀ (sub_ne_zero.mpr hne.symm) ?_
  rw [hr, h₁, h₂]
  ring

/-- An element of the field has one representative. -/
theorem eq_of_intCast_eq {q : ℕ} {a b : ℤ} (ha : 0 ≤ a ∧ a < q) (hb : 0 ≤ b ∧ b < q)
    (h : (a : ZMod q) = b) : a = b := by
  have := (ZMod.intCast_eq_intCast_iff' a b q).mp h
  rwa [Int.emod_eq_of_lt ha.1 ha.2, Int.emod_eq_of_lt hb.1 hb.2] at this

theorem Except.mapM_ok {ε α β : Type} {f : α → Except ε β} {g : α → β} {l : List α}
    (h : ∀ a ∈ l, f a = .ok (g a)) : l.mapM f = .ok (l.map g) := by
  induction l with
  | nil => rfl
  | cons a l ih =>
      rw [List.mapM_cons, h a (by simp), ih fun b hb => h b (by simp [hb])]
      rfl

/-! ## What is assumed of the proofs -/

section

variable (q : ℕ) (secretOf : Json → ℤ) (a1 nullifierOf : ℤ → ℤ → ℤ)

/-- An accepted proof was made with the secret `secretOf` of it: its share is the point of that
    member's line at the signal hash, and its nullifier is that member's. Recovery is interpolation
    at zero. -/
structure SoundProofs (lib : Libraries) : Prop where
  secret_range : ∀ p, lib.verifySNARKProof (some p) = .ok true → 0 ≤ secretOf p ∧ secretOf p < q
  sound : ∀ p, lib.verifySNARKProof (some p) = .ok true → ∃ x sh y,
    HasSignal p "externalNullifier" x ∧
    HasSignal p "internalNullifier" (nullifierOf (secretOf p) x) ∧
    HasSignal p "signalHash" sh ∧ HasSignal p "yShare" y ∧
    (y : ZMod q) = secretOf p + sh * a1 (secretOf p) x
  nullifierOf_injective : Function.Injective2 nullifierOf
  recovery : ∀ x₁ x₂ y₁ y₂ : ℤ, (x₁ : ZMod q) ≠ x₂ → ∃ r, lib.shamirRecovery x₁ x₂ y₁ y₂ = .ok r ∧
    (0 ≤ r ∧ r < q) ∧ (r : ZMod q) * (x₂ - x₁) = y₁ * x₂ - y₂ * x₁

/-- What the x share of a row denotes. -/
def IRequestStats.abscissa (row : IRequestStats) : Option ℤ := row.xShare.bind Js.stringToBigInt

namespace IZkProofMetadata

/-- The signal is stored as a text that denotes it. -/
def Faithful (md : IZkProofMetadata) (name : String) : Prop :=
  ∀ v n, publicSignal md.zk_proof name = .ok v → Js.bigInt v = .ok n →
    ∃ t, Js.toText v = .ok t ∧ Js.stringToBigInt t = some n

/-- The request brings the point of its own proof, and no second spelling of a stored point. -/
structure OwnPoint (md : IZkProofMetadata) (db : Db) : Prop where
  nullifier : md.Faithful "internalNullifier"
  yShare : md.Faithful "yShare"
  xShare : ∀ p sh, Js.prop md.zk_proof "snarkProof" = .ok (some p) →
    HasSignal p "signalHash" sh →
      ∃ (x : ℤ) (t : String), Js.bigInt md.x_share = .ok x ∧ (x : ZMod q) = sh ∧
      Mongoose.castString md.x_share = .ok (some t) ∧ Js.stringToBigInt t = some x
  repeated : ∀ row ∈ db.requestStats, ∀ x x' : ℤ, Mongoose.castString md.epoch = .ok row.epoch →
    getNullifierFromFullProof md.zk_proof = .ok row.nullifier → row.abscissa = some x' →
      Js.bigInt md.x_share = .ok x → (x' : ZMod q) = x → RowOf md.zk_proof md.epoch md.x_share row

end IZkProofMetadata

/-- The same for a request, if its proof is valid. -/
def Request.OwnPoint (lib : Libraries) (r : Request) (db : Db) : Prop :=
  ∀ md root, r.metadata = some md → isZkProofValid lib md.zk_proof root = .ok true →
    md.OwnPoint q db

/-! ## The invariant -/

/-- The row is a point of the line of the member with secret `s`, for the external nullifier
    `ext`. -/
structure IRequestStats.PointOf (row : IRequestStats) (s ext x y : ℤ) : Prop where
  nullifier : Js.stringToBigInt row.nullifier = some (nullifierOf s ext)
  abscissa : row.abscissa = some x
  ordinate : Js.stringToBigInt row.yShare = some y
  line : (y : ZMod q) = s + x * a1 s ext

/-- Every row is a point of some member's line, and rows that are counted together have different
    abscissas. -/
structure SharesInv (rows : List IRequestStats) : Prop where
  points : ∀ row ∈ rows, ∃ s ext x y, row.PointOf q a1 nullifierOf s ext x y
  distinct : rows.Pairwise fun a b => a.epoch = b.epoch → a.nullifier = b.nullifier →
    ∀ x x' : ℤ, a.abscissa = some x → b.abscissa = some x' → (x : ZMod q) ≠ x'

end

/-- The states of a run of chat messages from a store without stats; each step satisfies `ok` where
    it starts. -/
inductive ChatRun (lib : Libraries) (config : IZKServerConfig) (ok : Request → Db → Prop) : Db → Prop
  | start {db : Db} (h : db.requestStats = []) : ChatRun lib config ok db
  | message {db : Db} (h : ChatRun lib config ok db) (env : CallEnv) (text : String)
      (hok : ok (.chat text) db) :
      ChatRun lib config ok ((Request.chat text).exec lib config env db).2

/-- The message passes the checks and breaks the spam rule; its proof is `p`. -/
def IsSpam (lib : Libraries) (config : IZKServerConfig) (env : CallEnv) (text : String) (db : Db)
    (p : Json) : Prop :=
  ∃ m, validateFormat text = some m ∧ (Request.chat text).snarkProof = some p ∧
    (checkRules lib config env .RequestStats m.zk_proof m.epoch m.x_share).run db = (.ok true, db)

/-- The message breaks the spam rule, and `user` is recovered from the shares. -/
def Recovers (lib : Libraries) (config : IZKServerConfig) (env : CallEnv) (text : String) (db : Db)
    (user : RecoveredUser) : Prop :=
  ∃ m rows, validateFormat text = some m ∧
    (checkRules lib config env .RequestStats m.zk_proof m.epoch m.x_share).run db = (.ok true, db) ∧
    (StatsModel.RequestStats.getRequestStats lib m.zk_proof m.epoch).run db = (.ok rows, db) ∧
    getUserFromShares lib m.zk_proof m.x_share rows = .ok user

/-- The user with this secret. -/
def member (lib : Libraries) (secret : ℤ) : RecoveredUser :=
  { secret, idCommitment := Js.bigIntToString (lib.poseidon [secret]) }

section

variable {q : ℕ} {secretOf : Json → ℤ} {a1 nullifierOf : ℤ → ℤ → ℤ} {lib : Libraries}
  {config : IZKServerConfig} {env : CallEnv} {db : Db} {md : IZkProofMetadata} {root : String}

/-! ## The point of a request -/

theorem toText_of_faithful {name : String} {p : Json} {n : ℤ} {t : String}
    (hfaith : md.Faithful name) (hp : Js.prop md.zk_proof "snarkProof" = .ok (some p))
    (hsig : HasSignal p name n)
    (ht : (publicSignal md.zk_proof name >>= fun v => Js.toText v) = .ok t) :
    Js.stringToBigInt t = some n := by
  obtain ⟨v, hv, hn⟩ := hsig
  have hpath : publicSignal md.zk_proof name = .ok v := by
    rw [publicSignal_eq, hp]
    exact hv
  obtain ⟨t', ht', hden⟩ := hfaith v n hpath hn
  rw [hpath] at ht
  obtain rfl : t' = t := Except.ok.inj (ht'.symm.trans ht)
  exact hden

/-- The row of a valid request that brings its own point is a point of the maker's line. -/
theorem pointOf_of_rowOf (hsound : SoundProofs q secretOf a1 nullifierOf lib)
    (hown : md.OwnPoint q db) (hvalid : isZkProofValid lib md.zk_proof root = .ok true) {p : Json}
    (hp : Js.prop md.zk_proof "snarkProof" = .ok (some p)) {row : IRequestStats}
    (hrow : RowOf md.zk_proof md.epoch md.x_share row) :
    ∃ ext x y, Js.bigInt md.x_share = .ok x ∧
      row.PointOf q a1 nullifierOf (secretOf p) ext x y := by
  obtain ⟨-, -, p', -, -, hp', -, hverify⟩ := isZkProofValid_true hvalid
  obtain rfl : p = p' := Option.some.inj (Except.ok.inj (hp.symm.trans hp'))
  obtain ⟨ext, sh, y, -, hn, hsh, hy, hline⟩ := hsound.sound p hverify
  obtain ⟨x, t, hx, hxsh, hcast, ht⟩ := hown.xShare p sh hp hsh
  have hxrow : row.xShare = some t := Except.ok.inj (hrow.xShare.symm.trans hcast)
  refine ⟨ext, x, y, hx, ?_, ?_, ?_, ?_⟩
  · exact toText_of_faithful hown.nullifier hp hn hrow.nullifier
  · rw [IRequestStats.abscissa, hxrow, Option.bind_some, ht]
  · exact toText_of_faithful hown.yShare hp hy hrow.yShare
  · rw [hline, hxsh]

/-- A request that is no duplicate has another abscissa than the rows it is counted with. -/
theorem IZkProofMetadata.OwnPoint.abscissa_ne (hown : md.OwnPoint q db)
    (hnew : ∀ row ∈ db.requestStats, ¬ RowOf md.zk_proof md.epoch md.x_share row)
    {row old : IRequestStats} (hrow : RowOf md.zk_proof md.epoch md.x_share row)
    (hold : old ∈ db.requestStats) (hepoch : old.epoch = row.epoch)
    (hnull : old.nullifier = row.nullifier) {x x' : ℤ} (hx : Js.bigInt md.x_share = .ok x)
    (hx' : old.abscissa = some x') : (x' : ZMod q) ≠ x :=
  fun heq => hnew old hold <|
    hown.repeated old hold x x' (hepoch ▸ hrow.epoch) (hnull ▸ hrow.nullifier) hx' hx heq

/-! ## One step -/

theorem SharesInv.exec (hsound : SoundProofs q secretOf a1 nullifierOf lib)
    (h : SharesInv q a1 nullifierOf db.requestStats) {text : String}
    (hown : (Request.chat text).OwnPoint q lib db) :
    SharesInv q a1 nullifierOf
      ((Request.chat text).exec lib config env db).2.requestStats := by
  rcases (Request.chat text).exec_stats lib config env db with ⟨-, hr⟩ | ⟨md, hmd, heff⟩
  · rwa [hr]
  cases heff with
  | refused _ hsame =>
      have hstats : _ = db.requestStats := hsame .RequestStats
      rwa [← hstats] at h
  | @recorded nullifier row hchecked hrow hsame =>
      have hstats : _ = db.requestStats ++ [row] := hsame .RequestStats
      show SharesInv _ _ _ (Db.stats _ .RequestStats)
      rw [hstats]
      obtain ⟨root, hvalid⟩ := hchecked.valid
      obtain ⟨-, -, p, -, -, hp, -⟩ := isZkProofValid_true hvalid
      have hmine := hown md root hmd hvalid
      obtain ⟨ext, x, y, hx, hpoint⟩ := pointOf_of_rowOf hsound hmine hvalid hp hrow
      constructor
      · intro r hr
        rcases List.mem_append.mp hr with hr | hr
        · exact h.points r hr
        · obtain rfl := List.mem_singleton.mp hr
          exact ⟨_, ext, x, y, hpoint⟩
      · refine List.pairwise_append.mpr ⟨h.distinct, List.pairwise_singleton _ _, ?_⟩
        intro old hold r hr hepoch hnull x' x'' hx' hx''
        obtain rfl := List.mem_singleton.mp hr
        obtain rfl : x = x'' := Option.some.inj (hpoint.abscissa.symm.trans hx'')
        exact hmine.abscissa_ne hchecked.new hrow hold hepoch hnull hx hx'

theorem ChatRun.sharesInv (hsound : SoundProofs q secretOf a1 nullifierOf lib)
    (h : ChatRun lib config (fun r db => r.OwnPoint q lib db) db) :
    SharesInv q a1 nullifierOf db.requestStats := by
  induction h with
  | start hnone =>
      rw [hnone]
      exact ⟨by simp, .nil⟩
  | message _ env text hown ih => exact ih.exec hsound hown

/-! ## Recovery -/

/-- Points that are counted together belong to one member. -/
theorem IRequestStats.PointOf.same (hsound : SoundProofs q secretOf a1 nullifierOf lib)
    {a b : IRequestStats} {s s' ext ext' x x' y y' : ℤ}
    (ha : a.PointOf q a1 nullifierOf s ext x y) (hb : b.PointOf q a1 nullifierOf s' ext' x' y')
    (hnull : a.nullifier = b.nullifier) : s = s' ∧ ext = ext' := by
  have := ha.nullifier
  rw [hnull, hb.nullifier, Option.some.injEq] at this
  exact (hsound.nullifierOf_injective this).imp Eq.symm Eq.symm

theorem SoundProofs.recovery_of_points [Fact q.Prime]
    (hsound : SoundProofs q secretOf a1 nullifierOf lib) {s a x₁ x₂ y₁ y₂ : ℤ}
    (hs : 0 ≤ s ∧ s < q) (hne : (x₁ : ZMod q) ≠ x₂) (h₁ : (y₁ : ZMod q) = s + x₁ * a)
    (h₂ : (y₂ : ZMod q) = s + x₂ * a) : lib.shamirRecovery x₁ x₂ y₁ y₂ = .ok s := by
  obtain ⟨r, hr, hrange, hline⟩ := hsound.recovery x₁ x₂ y₁ y₂ hne
  rw [hr, eq_of_intCast_eq hrange hs (intercept_of_line hne h₁ h₂ hline)]

/-- From the rows that are counted with a request, and the request's own point, the maker's secret
    is recovered. -/
theorem getUserFromShares_eq [Fact q.Prime] (hsound : SoundProofs q secretOf a1 nullifierOf lib)
    {row : IRequestStats} {s ext x y : ℤ} (hs : 0 ≤ s ∧ s < q)
    (hrow : RowOf md.zk_proof md.epoch md.x_share row)
    (hpoint : row.PointOf q a1 nullifierOf s ext x y) (hx : Js.bigInt md.x_share = .ok x)
    {rows : List IRequestStats} (hinv : SharesInv q a1 nullifierOf rows) (hne : rows ≠ [])
    (hslot : ∀ r ∈ rows, r.epoch = row.epoch ∧ r.nullifier = row.nullifier)
    (hfresh : ∀ r ∈ rows, ∀ x' : ℤ, r.abscissa = some x' → (x' : ZMod q) ≠ x) :
    getUserFromShares lib md.zk_proof md.x_share rows = .ok (member lib s) := by
  -- rows with one nullifier are points of one line
  have hmine : ∀ r ∈ rows, ∃ x' y', r.PointOf q a1 nullifierOf s ext x' y' := by
    intro r hr
    obtain ⟨s', ext', x', y', hr'⟩ := hinv.points r hr
    obtain ⟨rfl, rfl⟩ := hr'.same hsound hpoint (hslot r hr).2
    exact ⟨x', y', hr'⟩
  have hxs : rows.mapM (fun r => Js.bigIntOfField r.xShare)
      = .ok (rows.map fun r => r.abscissa.getD 0) := by
    refine Except.mapM_ok fun r hr => ?_
    obtain ⟨x', _, hr'⟩ := hmine r hr
    obtain ⟨t, ht, htx⟩ := Option.bind_eq_some_iff.mp hr'.abscissa
    rw [hr'.abscissa, ht, Js.bigIntOfField, bigIntOfText_ok htx, Option.getD_some]
  have hys : rows.mapM (fun r => Js.bigIntOfText r.yShare)
      = .ok (rows.map fun r => (Js.stringToBigInt r.yShare).getD 0) := by
    refine Except.mapM_ok fun r hr => ?_
    obtain ⟨_, y', hr'⟩ := hmine r hr
    rw [hr'.ordinate, bigIntOfText_ok hr'.ordinate, Option.getD_some]
  have hsecret : Hasher.retrieveSecret lib (rows.map (fun r => r.abscissa.getD 0) ++ [x])
      (rows.map (fun r => (Js.stringToBigInt r.yShare).getD 0) ++ [y]) = .ok s := by
    -- the first two points are taken: two rows, or one and the point of the request
    rcases rows with _ | ⟨r, _ | ⟨r', rest⟩⟩
    · exact absurd rfl hne
    · obtain ⟨x', y', hr'⟩ := hmine r (by simp)
      simp only [List.map_cons, List.map_nil, List.singleton_append, Hasher.retrieveSecret,
        hr'.abscissa, hr'.ordinate, Option.getD_some]
      exact hsound.recovery_of_points hs (hfresh r (by simp) x' hr'.abscissa) hr'.line
        hpoint.line
    · obtain ⟨x₁, y₁, h₁⟩ := hmine r (by simp)
      obtain ⟨x₂, y₂, h₂⟩ := hmine r' (by simp)
      have hdist := (List.pairwise_cons.mp hinv.distinct).1 r' (by simp)
        ((hslot r (by simp)).1.trans (hslot r' (by simp)).1.symm)
        ((hslot r (by simp)).2.trans (hslot r' (by simp)).2.symm) x₁ x₂ h₁.abscissa h₂.abscissa
      simp only [List.map_cons, List.cons_append, Hasher.retrieveSecret, h₁.abscissa,
        h₁.ordinate, h₂.abscissa, h₂.ordinate, Option.getD_some]
      exact hsound.recovery_of_points hs hdist h₁.line h₂.line
  unfold getUserFromShares
  rw [hxs, hys, hx, hrow.yShare]
  simp only [Bind.bind, Except.bind, bigIntOfText_ok hpoint.ordinate, hsecret]
  rfl

/-! ## The spam branch -/

/-- No object is a bigint. -/
theorem bigInt_obj (fields : List (String × Json)) (n : ℤ) :
    Js.bigInt (some (.obj fields)) ≠ .ok n := by
  have htext : Js.stringToBigInt "[object Object]" = none := by decide +kernel
  have hbig : Js.bigInt (some (.obj fields))
      = (Js.toText (some (.obj fields))).bind Js.bigIntOfText := rfl
  rw [hbig, Js.toText, Option.bind_some, Js.jsonText]
  split
  · next h =>
      split at h
      · cases h
      · obtain rfl := Option.some.inj h
        simp [Except.bind, Js.bigIntOfText, htext]
  · simp [Except.bind]

/-- Only a message with a string epoch is ever counted. -/
theorem epoch_of_counted {now : ℤ} {delay : ℕ} {epoch : Option Json} {stored : Option String}
    (hfresh : verifyEpoch now epoch delay = .ok true)
    (hmatch : Mongoose.matchField lib epoch stored = true) : ∃ t, epoch = some (.str t) := by
  obtain ⟨n, hn, -⟩ := Except.bind_ok_iff.mp hfresh
  match epoch with
  | some (.str t) => exact ⟨t, rfl⟩
  | none => cases hn
  | some .null => cases hn
  | some (.bool _) => cases hmatch
  | some (.num _) => cases hmatch
  | some (.arr _) => cases hmatch
  | some (.obj fields) => exact absurd hn (bigInt_obj fields n)

/-- The rows that are fetched are those that were counted. -/
theorem run_getRequestStats (lib : Libraries) (t : String) {nullifier : String}
    (zk_proof : Option Json) (db : Db) (hnull : getNullifierFromFullProof zk_proof = .ok nullifier) :
    (StatsModel.RequestStats.getRequestStats lib zk_proof (some (.str t))).run db
      = (.ok (db.requestStats.filter fun r => r.epoch = some t ∧ r.nullifier = nullifier), db) := by
  unfold StatsModel.getRequestStats
  rw [hnull]
  simp only [run_ofExcept_ok_bind, StatsModel.getSharesForEpochForUser, Mongoose.filter,
    Mongoose.castString, Except.map, run_query, Db.stats, Bool.decide_and]

/-- The message that recovers a user ends in the spam branch. -/
theorem Recovers.exec_eq {text : String} {user : RecoveredUser}
    (h : Recovers lib config env text db user) :
    ((Request.chat text).exec lib config env db).2
      = (MessageHandlerService.banRecovered lib config user).exec db := by
  obtain ⟨m, rows, hformat, hcheck, hrows, huser⟩ := h
  simp only [Request.exec, MessageHandlerService.handleChatMessage, hformat,
    MessageHandlerService.handleValid]
  rw [run_bind_of_ok hcheck, if_pos rfl, MessageHandlerService.banSender, run_bind_of_ok hrows,
    huser, run_ofExcept_ok_bind]
  rfl

/-- A recovered user is banned. -/
theorem Recovers.outcome {text : String} {user : RecoveredUser}
    (h : Recovers lib config env text db user) :
    BanOutcome config user db ((Request.chat text).exec lib config env db).2 := by
  rw [h.exec_eq]
  exact banRecovered_outcome lib config user db

/-- In a run whose messages bring their own points, the user recovered from a message that breaks
    the spam rule is the one who made its proof. -/
theorem recovers_maker [Fact q.Prime] (hsound : SoundProofs q secretOf a1 nullifierOf lib)
    (hrun : ChatRun lib config (fun r db => r.OwnPoint q lib db) db) {text : String} {p : Json}
    (hown : (Request.chat text).OwnPoint q lib db) (hspam : IsSpam lib config env text db p) :
    Recovers lib config env text db (member lib (secretOf p)) := by
  obtain ⟨m, hformat, hp, hcheck⟩ := hspam
  obtain ⟨-, nullifier, hchecked⟩ := run_checkRules hcheck
  have hinv := hrun.sharesInv hsound
  have hmd : (Request.chat text).metadata = some ⟨m.zk_proof, m.epoch, m.x_share⟩ := by
    rw [Request.metadata, hformat, Option.map_some]
  obtain ⟨root, hvalid⟩ := hchecked.valid
  set md : IZkProofMetadata := ⟨m.zk_proof, m.epoch, m.x_share⟩
  have hmdvalid : isZkProofValid lib md.zk_proof root = .ok true := hvalid
  have hmine := hown md root hmd hmdvalid
  obtain ⟨-, -, p', -, -, hprop, -, hverify⟩ := isZkProofValid_true hmdvalid
  obtain rfl : p = p' := by
    rw [Request.snarkProof, hmd, Option.bind_some, hprop] at hp
    exact (Option.some.inj hp).symm
  -- something is counted, so the epoch is a string
  obtain ⟨hcount, -⟩ := of_decide_eq_true hchecked.spam.symm
  obtain ⟨old, hold, hcounted⟩ := List.countP_pos_iff.mp (Nat.pos_of_ne_zero hcount)
  obtain ⟨t, ht⟩ := epoch_of_counted hchecked.fresh (Bool.and_eq_true_iff.mp hcounted).1
  -- the row that the message would leave
  obtain ⟨ext, sh, y, -, hn, hsh, hy, -⟩ := hsound.sound p hverify
  obtain ⟨x, s, hx, -, hcast, hs⟩ := hmine.xShare p sh hprop hsh
  obtain ⟨v, hv, hvy⟩ := id hy
  have hpath : publicSignal m.zk_proof "yShare" = .ok v := by
    rw [publicSignal_eq, hprop]
    exact hv
  obtain ⟨yText, hyText, -⟩ := hmine.yShare v y hpath hvy
  have hrow : RowOf m.zk_proof m.epoch m.x_share ⟨nullifier, some t, some s, yText⟩ := by
    refine ⟨hchecked.hasNullifier, ?_, by rw [ht]; rfl, hcast⟩
    rw [getYShareFromFullProof, hpath]
    exact hyText
  obtain ⟨ext', x', y', hx', hpoint⟩ := pointOf_of_rowOf hsound hmine hvalid hprop hrow
  obtain rfl : x = x' := Except.ok.inj (hx.symm.trans hx')
  set rows := db.requestStats.filter fun r => r.epoch = some t ∧ r.nullifier = nullifier with hrows
  have hslot : ∀ r ∈ rows, r ∈ db.requestStats ∧ r.epoch = some t ∧ r.nullifier = nullifier := by
    simp [hrows]
  have huser : getUserFromShares lib m.zk_proof m.x_share rows = .ok (member lib (secretOf p)) := by
    refine getUserFromShares_eq hsound (hsound.secret_range p hverify) hrow hpoint hx ?_ ?_
      (fun r hr => (hslot r hr).2) ?_
    · exact ⟨fun r hr => hinv.points r (hslot r hr).1,
        hinv.distinct.sublist List.filter_sublist⟩
    · rw [ht, counted_eq] at hcounted
      exact List.ne_nil_of_mem (List.mem_filter.mpr ⟨hold, hcounted⟩)
    · intro r hr x' hx'
      obtain ⟨hr, hepoch, hnull⟩ := hslot r hr
      exact hmine.abscissa_ne hchecked.new hrow hr hepoch hnull hx hx'
  refine ⟨m, rows, hformat, hcheck, ?_, huser⟩
  rw [ht, run_getRequestStats _ _ _ _ hchecked.hasNullifier]

/-- In such a run a message that breaks the spam rule bans the member who made its proof, and
    nobody else. -/
theorem spam_bans_maker [Fact q.Prime] (hsound : SoundProofs q secretOf a1 nullifierOf lib)
    (hrun : ChatRun lib config (fun r db => r.OwnPoint q lib db) db) {text : String} {p : Json}
    (hown : (Request.chat text).OwnPoint q lib db) (hspam : IsSpam lib config env text db p) :
    BanOutcome config (member lib (secretOf p)) db
      ((Request.chat text).exec lib config env db).2 :=
  (recovers_maker hsound hrun hown hspam).outcome

end

/-! ## An x share of one's own choice -/

namespace IZkProofMetadata

/-- The proofs that clients serialise store their signals as they are. -/
theorem faithful_internalNullifier (e rln root x n sh y : ℤ) (epoch x_share : Option Json) :
    Faithful ⟨some (fullProof e rln root x n sh y), epoch, x_share⟩ "internalNullifier" := by
  intro v k hv hk
  obtain rfl : some (.str (Js.bigIntToString n)) = v := Except.ok.inj hv
  obtain rfl : n = k := Except.ok.inj ((Js.bigInt_str_bigIntToString n).symm.trans hk)
  exact ⟨_, rfl, Js.stringToBigInt_bigIntToString n⟩

theorem faithful_yShare (e rln root x n sh y : ℤ) (epoch x_share : Option Json) :
    Faithful ⟨some (fullProof e rln root x n sh y), epoch, x_share⟩ "yShare" := by
  intro v k hv hk
  obtain rfl : some (.str (Js.bigIntToString y)) = v := Except.ok.inj hv
  obtain rfl : y = k := Except.ok.inj ((Js.bigInt_str_bigIntToString y).symm.trans hk)
  exact ⟨_, rfl, Js.stringToBigInt_bigIntToString y⟩

end IZkProofMetadata

namespace Demo

instance factPrimeEleven : Fact (Nat.Prime 11) := ⟨by decide +kernel⟩

theorem cast_emod_eleven (n : ℤ) : ((n % 11 : ℤ) : ZMod 11) = n := ZMod.intCast_mod n 11

theorem soundProofs :
    SoundProofs 11 (fun p => maker p) (fun s x => sumHash [s, x]) pair lib where
  secret_range p h := by
    obtain ⟨hlt, -⟩ := signals_of_verify h
    exact ⟨Int.natCast_nonneg _, by exact_mod_cast hlt⟩
  sound p h := by
    obtain ⟨-, x, sh, hx, hn, hsh, hy⟩ := signals_of_verify h
    refine ⟨x, sh, _, hx, hn, hsh, hy, ?_⟩
    rw [share, cast_emod_eleven]
    push_cast
    rfl
  nullifierOf_injective := pair_injective
  recovery x₁ x₂ y₁ y₂ hne := by
    have hfermat : ∀ d : ZMod 11, d ≠ 0 → d ^ 10 = 1 := by decide
    have hd : (x₂ : ZMod 11) - x₁ ≠ 0 := sub_ne_zero.mpr hne.symm
    have hmod : (x₂ - x₁) % 11 ≠ 0 := by
      intro h
      refine hd ?_
      rw [← Int.cast_sub, ZMod.intCast_zmod_eq_zero_iff_dvd]
      exact Int.dvd_of_emod_eq_zero h
    refine ⟨_, if_neg hmod, ⟨Int.emod_nonneg _ (by decide), Int.emod_lt_of_pos _ (by decide)⟩, ?_⟩
    rw [cast_emod_eleven]
    push_cast
    linear_combination (-(x₁ : ZMod 11) * (y₂ - y₁)) * hfermat _ hd

/-- The state after one message of the member with secret 3, for the signal 5. -/
def afterOne (x_share : String) : Db :=
  (MessageHandlerService.handleValid lib (config 1) (env "a") (message 3 0 5 "0" x_share)).exec db

theorem chatRun_afterOne {ok : Request → Db → Prop} {x_share : String} (hx : Js.Unescaped x_share)
    (hok : ok (.chat (chat 3 0 5 "0" x_share)) db) :
    ChatRun lib (config 1) ok (afterOne x_share) := by
  have hstart : ChatRun lib (config 1) ok db := .start (by decide +kernel)
  have hrun := hstart.message (env "a") (chat 3 0 5 "0" x_share) hok
  rwa [exec_chat _ _ _ (by decide +kernel) hx] at hrun

/-- After that, its message for the signal 6 is spam. -/
theorem isSpam_afterOne {x_share : String} {p : Json} (hp : snarkProof 3 0 6 = some p)
    (hspam : ((checkRules lib (config 1) (env "b") .RequestStats (some (proof 3 0 1 6))
      (some (.str "0")) (some (.str "6"))).run (afterOne x_share)).1 = .ok true) :
    IsSpam lib (config 1) (env "b") (chat 3 0 6 "0" "6") (afterOne x_share) p := by
  have hplain : Js.Unescaped "0" ∧ Js.Unescaped "6" := by decide +kernel
  refine ⟨_, validateFormat_chat hplain.1 hplain.2, ?_, Prod.ext hspam ?_⟩
  · rw [snarkProof_chat hplain.1 hplain.2, hp]
  · exact (checkRules_readOnly _ _ _ _ _ _ _).exec_eq _

/-- A message that names the abscissa of its proof, where no stored point has that one. -/
theorem ownPoint_chat {signalHash : ℤ} {x : String} (hx : Js.stringToBigInt x = some signalHash)
    (hplain : Js.Unescaped x) {db : Db} (hrep : ∀ row ∈ db.requestStats, ∀ x' : ℤ,
      row.abscissa = some x' → (x' : ZMod 11) ≠ signalHash) :
    (Request.chat (chat 3 0 signalHash "0" x)).OwnPoint 11 lib db := by
  intro md root hmd _
  rw [metadata_chat (by decide +kernel) hplain] at hmd
  obtain rfl := Option.some.inj hmd
  have hbig : Js.bigInt (some (.str x)) = .ok signalHash := bigIntOfText_ok hx
  refine ⟨?_, ?_, ?_, ?_⟩
  · exact IZkProofMetadata.faithful_internalNullifier _ _ _ _ _ _ _ _ _
  · exact IZkProofMetadata.faithful_yShare _ _ _ _ _ _ _ _ _
  · intro p sh hp hsh
    have hsig : HasSignal p "signalHash" signalHash := by
      obtain rfl := Option.some.inj (Except.ok.inj hp)
      exact ⟨_, rfl, Js.bigInt_str_bigIntToString signalHash⟩
    obtain rfl := hsig.unique hsh
    exact ⟨signalHash, x, hbig, rfl, rfl, hx⟩
  · intro row hrow x₁ x' _ _ hx' hx₁ heq
    obtain rfl : signalHash = x₁ := Except.ok.inj (hbig.symm.trans hx₁)
    exact absurd heq (hrep row hrow x' hx')

end Demo

/-- The member with secret 3 names an x share that its proof is not about; with its next message
    the server recovers the secret of the other member, and bans that one. -/
theorem slashing_another_member :
    ¬ ∀ (q : ℕ) [Fact q.Prime] (secretOf : Json → ℤ) (a1 nullifierOf : ℤ → ℤ → ℤ) (lib : Libraries)
      (config : IZKServerConfig), SoundProofs q secretOf a1 nullifierOf lib →
      1 ≤ config.spamThreshold → ∀ (env : CallEnv) (db : Db) (text : String) (p : Json),
        ChatRun lib config (fun _ _ => True) db → IsSpam lib config env text db p →
          BanOutcome config (member lib (secretOf p)) db
            ((Request.chat text).exec lib config env db).2 := by
  intro h
  have hplain : Js.Unescaped "0" ∧ Js.Unescaped "2" ∧ Js.Unescaped "6" := by decide +kernel
  obtain ⟨h0, h2, h6⟩ := hplain
  obtain ⟨p, hp⟩ : ∃ p, Demo.snarkProof 3 0 6 = some p :=
    Option.isSome_iff_exists.mp (by decide +kernel)
  have hmaker : (Demo.snarkProof 3 0 6).map Demo.maker = some 3 := by decide +kernel
  rw [hp, Option.map_some, Option.some.injEq] at hmaker
  have hout := h 11 _ _ _ Demo.lib (Demo.config 1) Demo.soundProofs le_rfl (Demo.env "b") _ _ p
    (Demo.chatRun_afterOne h2 trivial) (Demo.isSpam_afterOne hp (by decide +kernel))
  have hnone : (Demo.afterOne "2").bannedUsers = [] := by decide +kernel
  have hbanned : ((Request.chat (Demo.chat 3 0 6 "0" "6")).exec Demo.lib (Demo.config 1)
      (Demo.env "b") (Demo.afterOne "2")).2.bannedUsers.map (·.secret) = ["4"] := by
    rw [Demo.exec_chat _ _ _ h0 h6]
    decide +kernel
  cases hout with
  | unknown _ heq =>
      rw [heq, hnone] at hbanned
      cases hbanned
  | conflict _ hb _ _ =>
      rw [hnone] at hb
      cases hb
  | banned _ _ heq _ =>
      have hsecret : ∀ i, ((member Demo.lib (3 : ℕ)).row i).secret = "3" := fun _ => rfl
      rw [heq, hnone, hmaker, List.nil_append, List.map_singleton, hsecret] at hbanned
      exact absurd hbanned (by decide)

/-- With the x shares of its proofs, the same two messages ban the sender. -/
theorem spam_bans_sender : ∃ p, Demo.snarkProof 3 0 6 = some p ∧
    BanOutcome (Demo.config 1) (member Demo.lib (Demo.maker p)) (Demo.afterOne "5")
      ((Request.chat (Demo.chat 3 0 6 "0" "6")).exec Demo.lib (Demo.config 1) (Demo.env "b")
        (Demo.afterOne "5")).2 := by
  obtain ⟨p, hp⟩ : ∃ p, Demo.snarkProof 3 0 6 = some p :=
    Option.isSome_iff_exists.mp (by decide +kernel)
  refine ⟨p, hp, spam_bans_maker Demo.soundProofs (Demo.chatRun_afterOne (by decide +kernel) ?_) ?_
    (Demo.isSpam_afterOne hp (by decide +kernel))⟩
  · refine Demo.ownPoint_chat (by decide +kernel) (by decide +kernel) ?_
    have hnone : Demo.db.requestStats = [] := by decide +kernel
    simp [hnone]
  · refine Demo.ownPoint_chat (by decide +kernel) (by decide +kernel) ?_
    have hone : (Demo.afterOne "5").requestStats.map (·.abscissa) = [some 5] := by decide +kernel
    intro row hrow x' hx' heq
    have hmem := List.mem_map_of_mem (f := (·.abscissa)) hrow
    rw [hone, List.mem_singleton, hx', Option.some.injEq] at hmem
    subst hmem
    exact absurd heq (by decide)

end ZkChat
