import ZkChat.Server.Replay

set_option autoImplicit false

/-! # What the stored shares give away

`Hasher.retrieveSecret` recovers a secret from two points of one member and one external
nullifier. Such a pair of points is in the store as soon as the member signed two signals and both
requests were recorded, which the spam rule allows unless its threshold is one and counts both. At a
threshold of one, the first recorded request closes its collection, epoch text and nullifier text
for every other one (`Request.Guarded`). -/

namespace ZkChat

open Prog

/-- The stored point of a row. -/
def IRequestStats.point (row : IRequestStats) : Option ℤ × Option ℤ :=
  (row.xShare.bind Js.stringToBigInt, Js.stringToBigInt row.yShare)

namespace Db

/-- The rows of both collections whose nullifier denotes `n`. -/
def shares (db : Db) (n : ℤ) : List IRequestStats :=
  (db.stats .RequestStats ++ db.stats .KeyExchangeRequestStats).filter
    (Js.stringToBigInt ·.nullifier = some n)

/-- At most one point is stored for the nullifier. -/
def OnePoint (db : Db) (n : ℤ) : Prop :=
  ∀ row ∈ db.shares n, ∀ row' ∈ db.shares n, row.point = row'.point

instance (db : Db) (n : ℤ) : Decidable (db.OnePoint n) :=
  inferInstanceAs (Decidable (∀ row ∈ db.shares n, ∀ row' ∈ db.shares n, _))

end Db

/-- The signal that the x share denotes. -/
def IZkProofMetadata.signal (md : IZkProofMetadata) : Option ℤ :=
  match md.x_share with
  | some (.str s) => Js.stringToBigInt s
  | _ => none

namespace Request

/-- The request carries the nullifier `n`. -/
def HasNullifier (n : ℤ) (md : IZkProofMetadata) : Prop :=
  ∃ t, getNullifierFromFullProof md.zk_proof = .ok t ∧ Js.stringToBigInt t = some n

/-- A request with the nullifier `n` is honest: its shares are a point of the member's line. -/
def Honest (n : ℤ) (line : ℤ → ℤ) (r : Request) : Prop :=
  ∀ md, r.metadata = some md → HasNullifier n md → ∃ s x y, md.x_share = some (.str s) ∧
    Js.stringToBigInt s = some x ∧ getYShareFromFullProof md.zk_proof = .ok y ∧
      Js.stringToBigInt y = some (line x)

/-- The rows that the spam rule counts for one of the requests include the row of the other: they go
    to one collection with one epoch text and one nullifier text. -/
structure CountedTogether (a b : Request) (mda mdb : IZkProofMetadata) : Prop where
  model : a.model = b.model
  epoch : ∃ t, mda.epoch = some (.str t) ∧ mdb.epoch = some (.str t)
  nullifier : getNullifierFromFullProof mda.zk_proof = getNullifierFromFullProof mdb.zk_proof

/-- Two requests with the nullifier `n` that cannot give two points away: they are about one signal,
    or the threshold is one and they are counted together. -/
def Guarded (config : IZKServerConfig) (n : ℤ) (a b : Request) : Prop :=
  ∀ mda mdb, a.metadata = some mda → b.metadata = some mdb → HasNullifier n mda →
    HasNullifier n mdb → mda.signal = mdb.signal ∨
      config.spamThreshold ≤ 1 ∧ CountedTogether a b mda mdb

end Request

/-- The states of a run of requests in which those with the nullifier `n` are honest, from a store
    that has no share for `n`; each step satisfies `ok` where it starts. -/
inductive ShareRun (lib : Libraries) (config : IZKServerConfig) (n : ℤ) (line : ℤ → ℤ)
    (ok : CallEnv → Request → Db → Prop) : Db → Prop
  | start {db : Db} (h : db.shares n = []) : ShareRun lib config n line ok db
  | request {db : Db} (h : ShareRun lib config n line ok db) (env : CallEnv) (r : Request)
      (hhonest : r.Honest n line) (hok : ok env r db) :
      ShareRun lib config n line ok (r.exec lib config env db).2

section

variable {lib : Libraries} {config : IZKServerConfig} {env : CallEnv} {n : ℤ} {line : ℤ → ℤ}
  {db db' : Db} {P : Request → Prop}

/-! ## The rows of a nullifier -/

theorem mem_shares {row : IRequestStats} :
    row ∈ db.shares n ↔
      (∃ model, row ∈ db.stats model) ∧ Js.stringToBigInt row.nullifier = some n := by
  rw [Db.shares, List.mem_filter, List.mem_append, decide_eq_true_eq]
  refine and_congr_left fun _ => ⟨?_, ?_⟩
  · rintro (h | h)
    · exact ⟨_, h⟩
    · exact ⟨_, h⟩
  · rintro ⟨model, h⟩
    cases model with
    | RequestStats => exact Or.inl h
    | KeyExchangeRequestStats => exact Or.inr h

/-- The row of an honest request is the point that its signal has on the line. -/
theorem Request.Honest.point {a : Request} (h : a.Honest n line) {row : IRequestStats}
    (hrow : a.HasRow row) (hn : Js.stringToBigInt row.nullifier = some n) :
    ∃ md x, a.metadata = some md ∧ RowOf md.zk_proof md.epoch md.x_share row ∧
      Request.HasNullifier n md ∧ md.signal = some x ∧ row.point = (some x, some (line x)) := by
  obtain ⟨md, hmd, hof⟩ := hrow
  have hnull : Request.HasNullifier n md := ⟨_, hof.nullifier, hn⟩
  obtain ⟨s, x, y, hs, hx, hy, hline⟩ := h md hmd hnull
  refine ⟨md, x, hmd, hof, hnull, by rw [IZkProofMetadata.signal, hs]; exact hx, ?_⟩
  have hxShare := hof.xShare
  rw [hs] at hxShare
  rw [IRequestStats.point, ← Except.ok.inj hxShare, Option.bind_some, hx,
    ← Except.ok.inj (hy.symm.trans hof.yShare), hline]

/-- At a threshold of one, nothing that is counted together with a stored row passes the checks. -/
theorem not_checked_of_counted {model : StatsModel} {mda md : IZkProofMetadata} {N : String}
    {row : IRequestStats} (hthreshold : config.spamThreshold ≤ 1) (hrow : row ∈ db.stats model)
    (hof : RowOf mda.zk_proof mda.epoch mda.x_share row)
    (hepoch : ∃ t, mda.epoch = some (.str t) ∧ md.epoch = some (.str t))
    (hnull : getNullifierFromFullProof mda.zk_proof = getNullifierFromFullProof md.zk_proof) :
    ¬ Checked lib config env model md.zk_proof md.epoch md.x_share db N false := by
  intro hchecked
  obtain ⟨t, hta, ht⟩ := hepoch
  have hrowepoch := hof.epoch
  rw [hta] at hrowepoch
  have hcounted : StatsModel.counted lib md.epoch N row = true := by
    rw [StatsModel.counted, ht, ← Except.ok.inj hrowepoch,
      Except.ok.inj ((hof.nullifier.symm.trans hnull).trans hchecked.hasNullifier)]
    simp [Mongoose.matchField]
  have hpos := List.countP_pos_iff.mpr ⟨row, hrow, hcounted⟩
  have hspam := of_decide_eq_false hchecked.spam.symm
  omega

/-! ## The invariant -/

/-- The rows for `n` were left by honest requests that satisfy `P`, and are one point. -/
structure OnLine (P : Request → Prop) (n : ℤ) (line : ℤ → ℤ) (db : Db) : Prop where
  origin : ∀ model, ∀ row ∈ db.stats model, Js.stringToBigInt row.nullifier = some n →
    ∃ a, P a ∧ a.Honest n line ∧ a.model = model ∧ a.HasRow row
  onePoint : db.OnePoint n

theorem OnLine.congr (h : OnLine P n line db) (hsame : SameStats db db') : OnLine P n line db' := by
  have hmem : ∀ row, row ∈ db'.shares n → row ∈ db.shares n := by
    intro row hrow
    rw [mem_shares] at hrow ⊢
    obtain ⟨⟨model, hrow⟩, hn⟩ := hrow
    exact ⟨⟨model, hsame model ▸ hrow⟩, hn⟩
  exact ⟨fun model row hrow hn => h.origin model row (hsame model ▸ hrow) hn,
    fun row hrow row' hrow' => h.onePoint row (hmem row hrow) row' (hmem row' hrow')⟩

/-- A request that passes the checks has the point that is stored. -/
theorem OnLine.point_eq (h : OnLine P n line db) (hP : ∀ a b, P a → P b → a.Guarded config n b)
    {r : Request} (hr : P r) (hhonest : r.Honest n line) {md : IZkProofMetadata} {N : String}
    (hmd : r.metadata = some md)
    (hchecked : Checked lib config env r.model md.zk_proof md.epoch md.x_share db N false)
    {new : IRequestStats} (hnew : RowOf md.zk_proof md.epoch md.x_share new)
    (hn : Js.stringToBigInt new.nullifier = some n) :
    ∀ row ∈ db.shares n, row.point = new.point := by
  intro row hrow
  obtain ⟨⟨model, hrow⟩, hrown⟩ := mem_shares.mp hrow
  obtain ⟨a, ha, hhonesta, rfl, hrowa⟩ := h.origin model row hrow hrown
  obtain ⟨mda, x, hmda, hof, hnulla, hx, hpoint⟩ := hhonesta.point hrowa hrown
  obtain ⟨md', x', hmd', -, hnull, hx', hpoint'⟩ := hhonest.point ⟨md, hmd, hnew⟩ hn
  obtain rfl := Option.some.inj (hmd.symm.trans hmd')
  rcases hP a r ha hr mda md hmda hmd hnulla hnull with hsignal | ⟨hthreshold, htogether⟩
  · obtain rfl : x = x' := Option.some.inj (hx.symm.trans (hsignal.trans hx'))
    rw [hpoint, hpoint']
  · exact absurd hchecked (not_checked_of_counted hthreshold (htogether.model ▸ hrow) hof
      htogether.epoch htogether.nullifier)

/-- One request keeps the invariant. -/
theorem OnLine.exec (h : OnLine P n line db) (hP : ∀ a b, P a → P b → a.Guarded config n b)
    (env : CallEnv) {r : Request} (hhonest : r.Honest n line) (hr : P r) :
    OnLine P n line (r.exec lib config env db).2 := by
  rcases r.exec_stats lib config env db with ⟨-, hexec⟩ | ⟨md, hmd, heff⟩
  · rwa [hexec]
  cases heff with
  | refused _ hsame => exact h.congr hsame
  | @recorded _ new hchecked hnew hsame =>
      suffices hcreated : OnLine P n line (db.createStats new r.model) from hcreated.congr hsame
      have hstats : ∀ model, ∀ row ∈ (db.createStats new r.model).stats model,
          row ∈ db.stats model ∨ model = r.model ∧ row = new := by
        intro model row hrow
        rw [Db.stats_createStats, List.mem_append] at hrow
        rcases hrow with hrow | hrow
        · exact Or.inl hrow
        · split at hrow
          · next hmodel => exact Or.inr ⟨hmodel, List.mem_singleton.mp hrow⟩
          · cases hrow
      have hshares : ∀ row ∈ (db.createStats new r.model).shares n,
          row ∈ db.shares n ∨ row = new ∧ Js.stringToBigInt new.nullifier = some n := by
        intro row hrow
        obtain ⟨⟨model, hrow⟩, hn⟩ := mem_shares.mp hrow
        rcases hstats model row hrow with hrow | ⟨-, rfl⟩
        · exact Or.inl (mem_shares.mpr ⟨⟨model, hrow⟩, hn⟩)
        · exact Or.inr ⟨rfl, hn⟩
      have heq := fun hn => h.point_eq hP hr hhonest hmd hchecked hnew hn
      refine ⟨fun model row hrow hn => ?_, fun row hrow row' hrow' => ?_⟩
      · rcases hstats model row hrow with hrow | ⟨rfl, rfl⟩
        · exact h.origin model row hrow hn
        · exact ⟨r, hr, hhonest, rfl, md, hmd, hnew⟩
      · rcases hshares row hrow with hold | ⟨hnew, hn⟩
        · rcases hshares row' hrow' with hold' | ⟨hnew', hn'⟩
          · exact h.onePoint row hold row' hold'
          · rw [heq hn' row hold, hnew']
        · rcases hshares row' hrow' with hold' | ⟨hnew', -⟩
          · rw [heq hn row' hold', hnew]
          · rw [hnew, hnew']

/-- Where any two requests of the run are guarded, one point is stored. -/
theorem shareRun_onePoint (hP : ∀ a b, P a → P b → a.Guarded config n b)
    (h : ShareRun lib config n line (fun _ r _ => P r) db) : db.OnePoint n := by
  suffices hline : OnLine P n line db from hline.onePoint
  induction h with
  | start hnone =>
      refine ⟨fun model row hrow hn => ?_, fun row hrow => ?_⟩
      · have := mem_shares.mpr ⟨⟨model, hrow⟩, hn⟩
        rw [hnone] at this
        cases this
      · rw [hnone] at hrow
        cases hrow
  | request _ env r hhonest hr ih => exact ih.exec hP env hhonest hr

end

/-! ## Thresholds above one -/

section

variable {lib : Libraries} {env : CallEnv} {zk_proof epoch x_share : Option Json} {db : Db}

/-- After a program that only reads, two continuations that agree there agree as a whole. -/
theorem Prog.Within.run_bind_congr {σ ε α β : Type} {p : Prog σ ε α} {f g : α → Prog σ ε β} {s : σ}
    (hp : Within (· = ·) p) (h : ∀ a, (f a).run s = (g a).run s) :
    (p >>= f).run s = (p >>= g).run s := by
  have hs : (p.run s).2 = s := hp.exec_eq s
  rw [run_bind, run_bind]
  cases hrun : p.run s with
  | mk out s' =>
      obtain rfl : s' = s := by rwa [hrun] at hs
      cases out with
      | ok a => exact h a
      | error e => rfl

/-- Two thresholds above the number of stored rows decide alike. -/
theorem run_checkRules_congr (config config' : IZKServerConfig) (model : StatsModel)
    (hdelay : config.epochAllowedDelayThreshold = config'.epochAllowedDelayThreshold)
    (hT : (db.stats model).length < config.spamThreshold)
    (hT' : (db.stats model).length < config'.spamThreshold) :
    (checkRules lib config env model zk_proof epoch x_share).run db
      = (checkRules lib config' env model zk_proof epoch x_share).run db := by
  rw [checkRules, checkRules, hdelay]
  refine Within.run_bind_congr (.ofExcept _) fun epochValid => ?_
  split
  · rfl
  refine Within.run_bind_congr (isDuplicate_readOnly ..) fun duplicate => ?_
  split
  · rfl
  refine Within.run_bind_congr getRoot_readOnly fun root =>
    Within.run_bind_congr (.ofExcept _) fun valid => ?_
  split
  · rfl
  refine Within.run_bind_congr (.ofExcept _) fun nullifier => ?_
  have hle := List.countP_le_length (p := StatsModel.counted lib epoch nullifier)
    (l := db.stats model)
  rw [StatsModel.isSpamRequest, StatsModel.isSpamRequest, run_query, run_query,
    decide_eq_false (by omega), decide_eq_false (by omega)]

theorem exec_deletion_congr (config config' : IZKServerConfig)
    (hdelay : config.epochAllowedDelayThreshold = config'.epochAllowedDelayThreshold)
    (hT : db.keyExchangeRequestStats.length < config.spamThreshold)
    (hT' : db.keyExchangeRequestStats.length < config'.spamThreshold) (m : IDeleteBundlesMessage) :
    (Request.deleteBundles m).exec lib config env db
      = (Request.deleteBundles m).exec lib config' env db := by
  rw [Request.exec, Request.exec, KeyExchangeService.deleteBundles,
    KeyExchangeService.deleteBundles, KeyExchangeService.validateMessageRules,
    KeyExchangeService.validateMessageRules, Prog.run_bind, Prog.run_bind, Prog.run_bind,
    Prog.run_bind, run_checkRules_congr config config' .KeyExchangeRequestStats hdelay hT hT']

end

/-! ## Two signals below the threshold -/

namespace Demo

/-- The external nullifier of the epoch 0, and the internal nullifier of the member with
    secret 3. -/
def nullifier : ℤ := pair 3 (pair 0 1)

/-- The member's line for that external nullifier. -/
def line : ℤ → ℤ := share 3 (pair 0 1)

theorem honest_deletion {signalHash : ℤ} {epochField x : String}
    (hx : Js.stringToBigInt x = some signalHash) :
    (deletion 3 0 signalHash epochField x).Honest nullifier line := by
  intro md hmd _
  cases hmd
  exact ⟨x, signalHash, _, rfl, hx, rfl, Js.stringToBigInt_bigIntToString _⟩

theorem honest_chat {signalHash : ℤ} {epochField x : String} (hepoch : Js.Unescaped epochField)
    (hescaped : Js.Unescaped x) (hx : Js.stringToBigInt x = some signalHash) :
    (Request.chat (chat 3 0 signalHash epochField x)).Honest nullifier line := by
  intro md hmd _
  rw [metadata_chat hepoch hescaped] at hmd
  cases hmd
  exact ⟨x, signalHash, _, rfl, hx, rfl, Js.stringToBigInt_bigIntToString _⟩

/-- The runs in which every request is accepted. -/
abbrev AcceptedRun (config : IZKServerConfig) (db : Db) : Prop :=
  ShareRun lib config nullifier line (fun env r db => (r.exec lib config env db).1 = true) db

theorem acceptedRun_start (config : IZKServerConfig) : AcceptedRun config db :=
  .start (by decide +kernel)

end Demo

/-- With the default threshold of two, two signals of one member are accepted for one external
    nullifier, and both points are stored. -/
theorem two_points_below_threshold :
    ¬ ∀ (lib : Libraries) (config : IZKServerConfig) (n : ℤ) (line : ℤ → ℤ) (db : Db),
      1 ≤ config.spamThreshold →
      ShareRun lib config n line (fun env r db => (r.exec lib config env db).1 = true) db →
        db.OnePoint n := by
  intro h
  have hone := (Demo.acceptedRun_start (Demo.config 2)).request (Demo.env "")
    (Demo.deletion 3 0 5 "0" "5") (Demo.honest_deletion (by decide +kernel)) (by decide +kernel)
  have htwo := hone.request (Demo.env "") (Demo.deletion 3 0 6 "0" "6")
    (Demo.honest_deletion (by decide +kernel)) (by decide +kernel)
  exact absurd (h _ _ _ _ _ (by decide) htwo) (by decide +kernel)

/-- So they are with every other threshold above one, although they are counted together. -/
theorem two_points_above_one {T : ℕ} (hT : 2 ≤ T) :
    ∃ db, Demo.AcceptedRun (Demo.config T) db ∧ ¬ db.OnePoint Demo.nullifier := by
  have hexec : ∀ (db : Db) (signalHash : ℤ) (x : String), db.keyExchangeRequestStats.length ≤ 1 →
      (Demo.deletion 3 0 signalHash "0" x).exec Demo.lib (Demo.config T) (Demo.env "") db
        = (Demo.deletion 3 0 signalHash "0" x).exec Demo.lib (Demo.config 2) (Demo.env "") db :=
    fun db signalHash x hlen => exec_deletion_congr (Demo.config T) (Demo.config 2) rfl
      (lt_of_le_of_lt hlen hT) (Nat.lt_succ_of_le hlen) _
  have hfirst := hexec Demo.db 5 "5" (by decide +kernel)
  have hone := (Demo.acceptedRun_start (Demo.config T)).request (Demo.env "")
    (Demo.deletion 3 0 5 "0" "5") (Demo.honest_deletion (by decide +kernel))
    ((congrArg Prod.fst hfirst).trans (by decide +kernel))
  rw [hfirst] at hone
  have hsecond := hexec ((Demo.deletion 3 0 5 "0" "5").exec Demo.lib (Demo.config 2) (Demo.env "")
    Demo.db).2 6 "6" (by decide +kernel)
  have htwo := hone.request (Demo.env "") (Demo.deletion 3 0 6 "0" "6")
    (Demo.honest_deletion (by decide +kernel))
    ((congrArg Prod.fst hsecond).trans (by decide +kernel))
  refine ⟨_, htwo, ?_⟩
  rw [hsecond]
  decide +kernel

/-- At a threshold of one, a second epoch text or the second collection is enough for them. -/
theorem two_points_at_one :
    (∃ db, Demo.AcceptedRun (Demo.config 1) db ∧ ¬ db.OnePoint Demo.nullifier ∧
        db.requestStats = []) ∧
      ∃ db, Demo.AcceptedRun (Demo.config 1) db ∧ ¬ db.OnePoint Demo.nullifier ∧
        db.requestStats.length = 1 := by
  have hone := (Demo.acceptedRun_start (Demo.config 1)).request (Demo.env "")
    (Demo.deletion 3 0 5 "0" "5") (Demo.honest_deletion (by decide +kernel)) (by decide +kernel)
  have hunescaped : Js.Unescaped "0" ∧ Js.Unescaped "6" := by decide +kernel
  refine ⟨⟨_, hone.request (Demo.env "") (Demo.deletion 3 0 6 "00" "6")
      (Demo.honest_deletion (by decide +kernel)) (by decide +kernel), by decide +kernel,
      by decide +kernel⟩,
    ⟨_, hone.request (Demo.env "u") (.chat (Demo.chat 3 0 6 "0" "6"))
      (Demo.honest_chat hunescaped.1 hunescaped.2 (by decide +kernel)) ?_, ?_⟩⟩
  all_goals
    rw [Demo.exec_chat (Demo.config 1) _ _ hunescaped.1 hunescaped.2]
    decide +kernel

/-- At a threshold of one, the second of two signals that are counted together is refused. -/
theorem one_point_for_one_signal :
    ((Demo.deletion 3 0 6 "0" "6").exec Demo.lib (Demo.config 1) (Demo.env "")
      ((Demo.deletion 3 0 5 "0" "5").exec Demo.lib (Demo.config 1) (Demo.env "")
        Demo.db).2).2.OnePoint Demo.nullifier := by
  refine shareRun_onePoint
    (P := fun r => r ∈ [Demo.deletion 3 0 5 "0" "5", Demo.deletion 3 0 6 "0" "6"]) ?_
    (((ShareRun.start (by decide +kernel)).request _ _
      (Demo.honest_deletion (by decide +kernel)) (by simp)).request _ _
      (Demo.honest_deletion (by decide +kernel)) (by simp))
  intro a b ha hb mda mdb hmda hmdb _ _
  have hread : ∀ r ∈ [Demo.deletion 3 0 5 "0" "5", Demo.deletion 3 0 6 "0" "6"], ∀ md,
      r.metadata = some md → r.model = .KeyExchangeRequestStats ∧ md.epoch = some (.str "0") ∧
        getNullifierFromFullProof md.zk_proof = .ok (Js.bigIntToString Demo.nullifier) := by
    intro r hr md hmd
    rcases List.mem_pair.mp hr with rfl | rfl
    all_goals
      cases hmd
      exact ⟨rfl, rfl, rfl⟩
  obtain ⟨hmodela, hepocha, hnulla⟩ := hread a ha mda hmda
  obtain ⟨hmodelb, hepochb, hnullb⟩ := hread b hb mdb hmdb
  exact Or.inr ⟨le_rfl, hmodela.trans hmodelb.symm, ⟨"0", hepocha, hepochb⟩,
    hnulla.trans hnullb.symm⟩

end ZkChat
