import ZkChat.Server.Slashing
import Mathlib.Tactic.FieldSimp

set_option autoImplicit false

/-! # Recovering a secret

Messages of one nullifier and one epoch string whose shares are points of one line, written
canonically. The duplicate check compares texts, and canonical texts are equal only for equal
points; so the abscissas of the stored rows stay distinct (`PointsOf`). Two shares are taken for the
recovery: the first two rows, or the only row and the message itself. In both cases the secret of the
line comes out (`secret_recovered`), and the handler is such a sequence of steps
(`chat_recovers_secret`). -/

namespace ZkChat

open Prog

/-! ## Lines -/

section

variable {F : Type} [Field F]

/-- The value at zero of the line through two points. -/
def lineAtZero (x₁ x₂ y₁ y₂ : F) : F := y₁ - (y₂ - y₁) / (x₂ - x₁) * x₁

theorem lineAtZero_eq {s a x₁ x₂ : F} (hne : x₁ ≠ x₂) :
    lineAtZero x₁ x₂ (s + a * x₁) (s + a * x₂) = s := by
  have hsub : x₂ - x₁ ≠ 0 := sub_ne_zero.mpr hne.symm
  unfold lineAtZero
  field_simp
  ring

end

variable {q : ℕ}

/-- The canonical decimal string of a field element. -/
def fieldText (x : ZMod q) : String := Js.bigIntToString x.val

theorem bigIntOfText_fieldText (x : ZMod q) : Js.bigIntOfText (fieldText x) = .ok (x.val : ℤ) :=
  Js.bigIntOfText_bigIntToString _

/-- `RLN._shamirRecovery` is interpolation at zero. -/
def Interpolates (q : ℕ) [Fact q.Prime] (lib : Libraries) : Prop :=
  ∀ x₁ x₂ y₁ y₂ : ZMod q, x₁ ≠ x₂ → lib.shamirRecovery x₁.val x₂.val y₁.val y₂.val
    = .ok ((lineAtZero x₁ x₂ y₁ y₂).val : ℤ)

/-! ## Messages that are points -/

/-- The row of the point of the line at `x`, for a nullifier and an epoch string. -/
def pointRow (secret slope : ZMod q) (n t : String) (x : ZMod q) : IRequestStats :=
  { nullifier := n, epoch := some t, xShare := some (fieldText x)
    yShare := fieldText (secret + slope * x) }

/-- The message of that nullifier and epoch string brings the point of the line at `x`. -/
structure IZkProofMetadata.IsPoint (secret slope : ZMod q) (n t : String) (x : ZMod q)
    (m : IZkProofMetadata) : Prop where
  nullifier : getNullifierFromFullProof m.zk_proof = .ok n
  epoch : m.epoch = some (.str t)
  xShare : m.x_share = some (.str (fieldText x))
  yShare : getYShareFromFullProof m.zk_proof = .ok (fieldText (secret + slope * x))

/-- The rows of that nullifier and epoch string. -/
def Db.sharesOf (t n : String) (db : Db) : List IRequestStats :=
  db.requestStats.filter fun r => r.epoch = some t ∧ r.nullifier = n

/-- They are points of the line, and no two have the same abscissa. -/
def PointsOf (secret slope : ZMod q) (n t : String) (db : Db) : Prop :=
  ∃ xs : List (ZMod q), xs.Nodup ∧ db.sharesOf t n = xs.map (pointRow secret slope n t)

/-! ## The three steps -/

inductive Handled where
  | duplicate
  | spam
  | saved
deriving DecidableEq

/-- The duplicate check, the spam check and `saveMessage`, as `handleChatMessage` has them. -/
def handleShares (lib : Libraries) (spamThreshold : ℕ) (m : IZkProofMetadata) : Server Handled := do
  let duplicate ← StatsModel.RequestStats.isDuplicate lib m.zk_proof m.epoch m.x_share
  if duplicate then pure .duplicate
  else do
    let spam ← StatsModel.RequestStats.isSpam lib m.zk_proof m.epoch spamThreshold
    -- a message that is spam is not saved
    if spam then pure .spam
    else do
      StatsModel.RequestStats.saveMessage m.zk_proof m.epoch m.x_share
      pure .saved

/-- The store after a sequence of messages. -/
def handleAll (lib : Libraries) (spamThreshold : ℕ) (ms : List IZkProofMetadata) (db : Db) : Db :=
  ms.foldl (fun db m => (handleShares lib spamThreshold m).exec db) db

section

variable {secret slope x : ZMod q} {n t : String} {lib : Libraries} {m : IZkProofMetadata} {db : Db}

theorem IZkProofMetadata.IsPoint.rowOf (h : m.IsPoint secret slope n t x) :
    RowOf m.zk_proof m.epoch m.x_share (pointRow secret slope n t x) where
  nullifier := h.nullifier
  yShare := h.yShare
  epoch := by
    rw [h.epoch]
    rfl
  xShare := by
    rw [h.xShare]
    rfl

/-- A message that is a point is a duplicate when its row is there. -/
theorem run_isDuplicate_of_isPoint (h : m.IsPoint secret slope n t x) :
    (StatsModel.RequestStats.isDuplicate lib m.zk_proof m.epoch m.x_share).run db
      = (.ok (decide (pointRow secret slope n t x ∈ db.requestStats)), db) := by
  unfold StatsModel.isDuplicate
  rw [h.nullifier, h.yShare, h.epoch, h.xShare]
  simp only [run_ofExcept_ok_bind, StatsModel.isDuplicateRequest, Mongoose.filter,
    Mongoose.castString, Except.map, run_query, Db.stats, Prod.mk.injEq, Except.ok.injEq, and_true]
  rw [Bool.eq_iff_iff, List.any_eq_true, decide_eq_true_eq]
  constructor
  · rintro ⟨r, hr, heq⟩
    simp only [Bool.and_eq_true, decide_eq_true_eq] at heq
    obtain ⟨⟨⟨hepoch, hnull⟩, hx⟩, hy⟩ := heq
    have hrow : r = pointRow secret slope n t x := by
      cases r
      simp only at hepoch hnull hx hy
      subst hepoch hnull hx hy
      rfl
    exact hrow ▸ hr
  · intro hmem
    exact ⟨_, hmem, by simp [pointRow]⟩

theorem run_isSpam_of_isPoint (h : m.IsPoint secret slope n t x) (spamThreshold : ℕ) :
    (StatsModel.RequestStats.isSpam lib m.zk_proof m.epoch spamThreshold).run db
      = (.ok (decide ((db.sharesOf t n).length ≠ 0 ∧ spamThreshold ≤ (db.sharesOf t n).length)),
        db) := by
  unfold StatsModel.isSpam
  rw [h.nullifier, h.epoch, run_ofExcept_ok_bind, StatsModel.isSpamRequest, run_query, counted_eq,
    List.countP_eq_length_filter]
  rfl

theorem run_saveMessage_of_isPoint (h : m.IsPoint secret slope n t x) :
    (StatsModel.RequestStats.saveMessage m.zk_proof m.epoch m.x_share).run db
      = (.ok (), db.createStats (pointRow secret slope n t x) .RequestStats) :=
  run_saveMessage_of_rowOf h.rowOf

/-! ## The invariant -/

/-- What is stored of the slot when one more row comes in. -/
theorem sharesOf_append {row : IRequestStats} {db' : Db}
    (h : db'.requestStats = db.requestStats ++ [row]) :
    db'.sharesOf t n
      = db.sharesOf t n ++ if row.epoch = some t ∧ row.nullifier = n then [row] else [] := by
  rw [Db.sharesOf, Db.sharesOf, h, List.filter_append, List.filter_singleton]
  simp only [Bool.cond_decide]

/-- A new point is stored. -/
theorem PointsOf.append (h : PointsOf secret slope n t db) {db' : Db}
    (hdb : db'.requestStats = db.requestStats ++ [pointRow secret slope n t x])
    (hnew : pointRow secret slope n t x ∉ db.requestStats) : PointsOf secret slope n t db' := by
  obtain ⟨xs, hnodup, hxs⟩ := h
  refine ⟨xs ++ [x], ?_, ?_⟩
  · refine List.nodup_append.mpr ⟨hnodup, List.nodup_singleton x, ?_⟩
    rintro a ha b hb rfl
    obtain rfl := List.mem_singleton.mp hb
    have hmem : pointRow secret slope n t a ∈ db.sharesOf t n :=
      hxs ▸ List.mem_map_of_mem ha
    exact hnew (List.mem_filter.mp hmem).1
  · rw [sharesOf_append hdb, hxs, if_pos ⟨rfl, rfl⟩, List.map_append]
    rfl

/-- One message. -/
theorem PointsOf.handleShares (h : PointsOf secret slope n t db)
    (hm : m.IsPoint secret slope n t x) (spamThreshold : ℕ) :
    PointsOf secret slope n t ((handleShares lib spamThreshold m).exec db) := by
  unfold ZkChat.handleShares
  rw [exec, run_bind_of_ok (run_isDuplicate_of_isPoint hm)]
  split
  · exact h
  next hnew =>
  rw [run_bind_of_ok (run_isSpam_of_isPoint hm spamThreshold)]
  split
  · exact h
  rw [run_bind_of_ok (run_saveMessage_of_isPoint hm)]
  exact h.append rfl (by simpa using hnew)

/-- A sequence of messages. -/
theorem PointsOf.handleAll {ms : List IZkProofMetadata} (h : PointsOf secret slope n t db)
    (hms : ∀ m ∈ ms, ∃ x : ZMod q, m.IsPoint secret slope n t x) (spamThreshold : ℕ) :
    PointsOf secret slope n t (handleAll lib spamThreshold ms db) := by
  induction ms generalizing db with
  | nil => exact h
  | cons m ms ih =>
      obtain ⟨x, hx⟩ := hms m List.mem_cons_self
      exact ih (h.handleShares hx spamThreshold) fun m' hm' => hms m' (List.mem_cons_of_mem m hm')

theorem PointsOf.empty (h : db.sharesOf t n = []) : PointsOf secret slope n t db :=
  ⟨[], List.nodup_nil, h⟩

/-! ## Recovery -/

/-- From distinct stored points and one more, the secret is recovered. -/
theorem getUserFromShares_of_points [Fact q.Prime] (hlib : Interpolates q lib)
    (hm : m.IsPoint secret slope n t x) {xs : List (ZMod q)} (hne : xs ≠ []) (hnodup : xs.Nodup)
    (hnew : x ∉ xs) :
    getUserFromShares lib m.zk_proof m.x_share (xs.map (pointRow secret slope n t))
      = .ok (member lib secret.val) := by
  have hxs : (xs.map (pointRow secret slope n t)).mapM (fun r => Js.bigIntOfField r.xShare)
      = .ok (xs.map fun x' => (x'.val : ℤ)) := by
    rw [List.mapM_map]
    refine Except.mapM_ok fun x' _ => ?_
    rw [Function.comp_apply]
    exact bigIntOfText_fieldText x'
  have hys : (xs.map (pointRow secret slope n t)).mapM (fun r => Js.bigIntOfText r.yShare)
      = .ok (xs.map fun x' => ((secret + slope * x').val : ℤ)) := by
    rw [List.mapM_map]
    refine Except.mapM_ok fun x' _ => ?_
    rw [Function.comp_apply]
    exact bigIntOfText_fieldText (secret + slope * x')
  have hx : Js.bigInt m.x_share = .ok (x.val : ℤ) := by
    rw [hm.xShare]
    exact Js.bigInt_str_bigIntToString _
  have hsecret : Hasher.retrieveSecret lib ((xs.map fun x' => (x'.val : ℤ)) ++ [(x.val : ℤ)])
      ((xs.map fun x' => ((secret + slope * x').val : ℤ)) ++ [((secret + slope * x).val : ℤ)])
      = .ok (secret.val : ℤ) := by
    -- the first two points are taken: two rows, or one and the point of the message
    rcases xs with _ | ⟨x₁, _ | ⟨x₂, rest⟩⟩
    · exact absurd rfl hne
    · have hdist : x₁ ≠ x := fun heq => hnew (heq ▸ List.mem_singleton_self x₁)
      have hline := hlib x₁ x (secret + slope * x₁) (secret + slope * x) hdist
      rwa [lineAtZero_eq hdist] at hline
    · have hdist : x₁ ≠ x₂ := fun heq =>
        (List.nodup_cons.mp hnodup).1 (heq ▸ List.mem_cons_self)
      have hline := hlib x₁ x₂ (secret + slope * x₁) (secret + slope * x₂) hdist
      rwa [lineAtZero_eq hdist] at hline
  unfold getUserFromShares
  rw [hxs, hys, hx, hm.yShare]
  simp only [Bind.bind, Except.bind, bigIntOfText_fieldText, hsecret]
  rfl

/-- The two abscissas that are used, the first ones of the rows and the message, are different. -/
def DistinctAbscissas (q : ℕ) (rows : List IRequestStats) (x_share : Option Json) : Prop :=
  ∃ (x₁ x₂ : ZMod q) (rest : List Json), x₁ ≠ x₂ ∧
    (rows.filterMap fun r => r.xShare.map Json.str) ++ x_share.toList
      = .str (fieldText x₁) :: .str (fieldText x₂) :: rest

theorem distinctAbscissas_of_points (hm : m.IsPoint secret slope n t x) {xs : List (ZMod q)}
    (hne : xs ≠ []) (hnodup : xs.Nodup) (hnew : x ∉ xs) :
    DistinctAbscissas q (xs.map (pointRow secret slope n t)) m.x_share := by
  rw [hm.xShare]
  rcases xs with _ | ⟨x₁, _ | ⟨x₂, rest⟩⟩
  · exact absurd rfl hne
  · exact ⟨x₁, x, [], fun heq => hnew (heq ▸ List.mem_singleton_self x₁), rfl⟩
  · exact ⟨x₁, x₂, _, fun heq => (List.nodup_cons.mp hnodup).1 (heq ▸ List.mem_cons_self), rfl⟩

/-- A message that is no duplicate and breaks the spam rule, from the invariant. -/
theorem PointsOf.recovers [Fact q.Prime] (h : PointsOf secret slope n t db)
    (hlib : Interpolates q lib) (hm : m.IsPoint secret slope n t x)
    (hnew : pointRow secret slope n t x ∉ db.requestStats) (hrows : db.sharesOf t n ≠ []) :
    DistinctAbscissas q (db.sharesOf t n) m.x_share ∧
      getUserFromShares lib m.zk_proof m.x_share (db.sharesOf t n)
        = .ok (member lib secret.val) := by
  obtain ⟨xs, hnodup, hxs⟩ := h
  have hne : xs ≠ [] := by
    rintro rfl
    exact hrows hxs
  have hx : x ∉ xs := by
    intro hmem
    have : pointRow secret slope n t x ∈ db.sharesOf t n := hxs ▸ List.mem_map_of_mem hmem
    exact hnew (List.mem_filter.mp this).1
  rw [hxs]
  exact ⟨distinctAbscissas_of_points hm hne hnodup hx,
    getUserFromShares_of_points hlib hm hne hnodup hx⟩

end

/-- Secret recovery: after any sequence of messages of one nullifier and one epoch string that are
    points of one line, a message that is no duplicate and breaks the spam rule recovers the line's
    secret, from shares with different abscissas. -/
theorem secret_recovered {q : ℕ} [Fact q.Prime] {lib : Libraries} (hlib : Interpolates q lib)
    (spamThreshold : ℕ) (secret slope : ZMod q) {n t : String} {start : Db}
    (hstart : start.sharesOf t n = []) {ms : List IZkProofMetadata}
    (hms : ∀ m ∈ ms, ∃ x : ZMod q, m.IsPoint secret slope n t x) {m : IZkProofMetadata} {x : ZMod q}
    (hm : m.IsPoint secret slope n t x) {db : Db} (hdb : db = handleAll lib spamThreshold ms start)
    (hnew : (StatsModel.RequestStats.isDuplicate lib m.zk_proof m.epoch m.x_share).run db
      = (.ok false, db))
    (hspam : (StatsModel.RequestStats.isSpam lib m.zk_proof m.epoch spamThreshold).run db
      = (.ok true, db)) :
    ∃ rows, (StatsModel.RequestStats.getRequestStats lib m.zk_proof m.epoch).run db = (.ok rows, db) ∧
      DistinctAbscissas q rows m.x_share ∧
      getUserFromShares lib m.zk_proof m.x_share rows = .ok (member lib secret.val) := by
  have hpoints : PointsOf secret slope n t db := by
    rw [hdb]
    exact (PointsOf.empty hstart).handleAll hms spamThreshold
  rw [run_isDuplicate_of_isPoint hm] at hnew
  rw [run_isSpam_of_isPoint hm] at hspam
  have hstored : pointRow secret slope n t x ∉ db.requestStats := by
    simpa using hnew
  have hrows : db.sharesOf t n ≠ [] := by
    intro hnil
    simp [hnil] at hspam
  refine ⟨db.sharesOf t n, ?_, hpoints.recovers hlib hm hstored hrows⟩
  rw [hm.epoch]
  exact run_getRequestStats lib t m.zk_proof db hm.nullifier

/-! ## The handler -/

/-- The request has another nullifier or another epoch than the slot. -/
def Request.OutsideSlot (t n : String) (r : Request) : Prop :=
  ∀ md, r.metadata = some md → ¬ (Mongoose.castString md.epoch = .ok (some t) ∧
    getNullifierFromFullProof md.zk_proof = .ok n)

/-- The request is a point of the line, or has nothing to do with the slot. -/
def Request.PointOrOutside (secret slope : ZMod q) (n t : String) (r : Request) : Prop :=
  (∃ md x, r.metadata = some md ∧ md.IsPoint secret slope n t x) ∨ r.OutsideSlot t n

section

variable {secret slope : ZMod q} {n t : String} {lib : Libraries} {config : IZKServerConfig} {db : Db}

/-- A call of the handler, whatever comes of it. -/
theorem PointsOf.chat (h : PointsOf secret slope n t db) (env : CallEnv) {text : String}
    (hok : (Request.chat text).PointOrOutside secret slope n t) :
    PointsOf secret slope n t ((Request.chat text).exec lib config env db).2 := by
  have same : ∀ {db' : Db}, db'.requestStats = db.requestStats → PointsOf secret slope n t db' := by
    intro db' heq
    obtain ⟨xs, hnodup, hxs⟩ := h
    exact ⟨xs, hnodup, by rwa [Db.sharesOf, heq]⟩
  rcases (Request.chat text).exec_stats lib config env db with ⟨-, hr⟩ | ⟨md, hmd, heff⟩
  · exact same (by rw [hr])
  cases heff with
  | refused _ hsame => exact same (hsame .RequestStats)
  | @recorded nullifier row hchecked hrow hsame =>
      have hstats : ((Request.chat text).exec lib config env db).2.requestStats
          = db.requestStats ++ [row] := hsame .RequestStats
      rcases hok with ⟨md', x, hmd', hm⟩ | hout
      · obtain rfl := Option.some.inj (hmd.symm.trans hmd')
        obtain rfl : row = pointRow secret slope n t x := hrow.unique hm.rowOf
        exact h.append hstats fun hmem => hchecked.new _ hmem hrow
      · obtain ⟨xs, hnodup, hxs⟩ := h
        refine ⟨xs, hnodup, ?_⟩
        rw [sharesOf_append hstats, if_neg, List.append_nil, hxs]
        rintro ⟨hepoch, hnull⟩
        exact hout md hmd ⟨hepoch ▸ hrow.epoch, hnull ▸ hrow.nullifier⟩

theorem ChatRun.pointsOf (h : ChatRun lib config (fun r _ => r.PointOrOutside secret slope n t) db) :
    PointsOf secret slope n t db := by
  induction h with
  | start hnone =>
      refine .empty ?_
      rw [Db.sharesOf, hnone]
      rfl
  | message _ env text hok ih => exact ih.chat env hok

/-- In a run of the handler whose messages of the slot are points of one line, a message of the slot
    that breaks the spam rule recovers the line's secret. -/
theorem chat_recovers_secret [Fact q.Prime] (hlib : Interpolates q lib)
    (hrun : ChatRun lib config (fun r _ => r.PointOrOutside secret slope n t) db) {env : CallEnv}
    {text : String} {md : IZkProofMetadata} {x : ZMod q} {p : Json}
    (hmd : (Request.chat text).metadata = some md) (hm : md.IsPoint secret slope n t x)
    (hspam : IsSpam lib config env text db p) :
    Recovers lib config env text db (member lib secret.val) := by
  obtain ⟨m, hformat, -, hcheck⟩ := hspam
  obtain rfl : ⟨m.zk_proof, m.epoch, m.x_share⟩ = md := by
    rw [Request.metadata, hformat] at hmd
    exact Option.some.inj hmd
  obtain ⟨-, nullifier, hchecked⟩ := run_checkRules hcheck
  obtain rfl : nullifier = n := Except.ok.inj (hchecked.hasNullifier.symm.trans hm.nullifier)
  have hstored : pointRow secret slope nullifier t x ∉ db.requestStats :=
    fun hmem => hchecked.new _ hmem hm.rowOf
  have hrows : db.sharesOf t nullifier ≠ [] := by
    intro hnil
    have hepoch : m.epoch = some (.str t) := hm.epoch
    have hfilter : (db.stats .RequestStats).filter
      (fun r => r.epoch = some t ∧ r.nullifier = nullifier) = [] := hnil
    have hcount := hchecked.spam
    rw [hepoch, counted_eq, List.countP_eq_length_filter, hfilter] at hcount
    simp at hcount
  refine ⟨m, db.sharesOf t nullifier, hformat, hcheck, ?_, (hrun.pointsOf.recovers hlib hm hstored
    hrows).2⟩
  have hepoch : m.epoch = some (.str t) := hm.epoch
  rw [hepoch]
  exact run_getRequestStats lib t m.zk_proof db hm.nullifier

end

/-! ## Two points of a line -/

namespace Demo

theorem interpolates : Interpolates 11 lib := by
  intro x₁ x₂ y₁ y₂ hne
  have hcast : ∀ x : ZMod 11, ((x.val : ℤ) : ZMod 11) = x := fun x => by simp
  obtain ⟨r, hr, hrange, hline⟩ := soundProofs.recovery x₁.val x₂.val y₁.val y₂.val
    (by rwa [hcast, hcast])
  rw [hcast, hcast, hcast, hcast] at hline
  have hsub : x₂ - x₁ ≠ 0 := sub_ne_zero.mpr hne.symm
  have hr' : (r : ZMod 11) = lineAtZero x₁ x₂ y₁ y₂ := by
    refine mul_right_cancel₀ hsub (hline.trans ?_)
    unfold lineAtZero
    field_simp
    ring
  rw [hr]
  refine congrArg Except.ok (eq_of_intCast_eq hrange ?_ (hr'.trans (hcast _).symm))
  exact ⟨Int.natCast_nonneg _, by exact_mod_cast ZMod.val_lt (lineAtZero x₁ x₂ y₁ y₂)⟩

/-- A message with nullifier 7 for the epoch string "0", with the point of `3 + 4 * x` at `x`. -/
def pointMessage (x : ZMod 11) : IZkProofMetadata where
  zk_proof := some (fullProof 0 1 0 0 7 0 (3 + 4 * x : ZMod 11).val)
  epoch := some (.str "0")
  x_share := some (.str (fieldText x))

theorem isPoint_pointMessage (x : ZMod 11) : (pointMessage x).IsPoint 3 4 "7" "0" x :=
  ⟨rfl, rfl, rfl, rfl⟩

end Demo

/-- The second message breaks the rule of one message, and the secret is 3. -/
theorem secret_three_recovered :
    let m := Demo.pointMessage 6
    let db := handleAll Demo.lib 1 [Demo.pointMessage 5] {}
    ∃ rows, (StatsModel.RequestStats.getRequestStats Demo.lib m.zk_proof m.epoch).run db
        = (.ok rows, db) ∧
      DistinctAbscissas 11 rows m.x_share ∧
      getUserFromShares Demo.lib m.zk_proof m.x_share rows
        = .ok (member Demo.lib (3 : ZMod 11).val) := by
  refine secret_recovered Demo.interpolates 1 3 4 (rfl : Db.sharesOf "0" "7" {} = []) ?_
    (Demo.isPoint_pointMessage 6) rfl ?_ ?_
  · intro m hm
    obtain rfl := List.mem_singleton.mp hm
    exact ⟨5, Demo.isPoint_pointMessage 5⟩
  · rw [run_isDuplicate_of_isPoint (Demo.isPoint_pointMessage 6)]
    exact congrArg (fun b => (Except.ok b, _)) (by decide +kernel)
  · rw [run_isSpam_of_isPoint (Demo.isPoint_pointMessage 6)]
    exact congrArg (fun b => (Except.ok b, _)) (by decide +kernel)

end ZkChat
