import ZkChat.Server.Slashing

set_option autoImplicit false

/-! # The counters and their key

`isDuplicate`, `isSpam`, `getRequestStats` and `saveMessage` are about the same rows, but the epoch
reaches them in different ways: `find` and `create` cast it to a string, `aggregate` does not, and
`verifyEpoch` reads the integer that it denotes. They agree for messages that write the epoch as one
and the same string (`countersAgree_iff`). An integer that is sent as a number is stored as a string
that no message is counted by, and another spelling of the integer is counted on its own. -/

namespace ZkChat

open Prog

namespace IZkProofMetadata

/-- `verifyEpoch` accepts the epoch at some time. -/
def EpochAccepted (m : IZkProofMetadata) : Prop :=
  ∃ now allowedDelay, verifyEpoch now m.epoch allowedDelay = .ok true

/-- The message has this nullifier, and its epoch denotes the integer. -/
def InEpoch (ν : String) (n : ℤ) (m : IZkProofMetadata) : Prop :=
  getNullifierFromFullProof m.zk_proof = .ok ν ∧ Js.bigInt m.epoch = .ok n

instance (ν : String) (n : ℤ) : DecidablePred (InEpoch ν n) :=
  fun _ => inferInstanceAs (Decidable (_ ∧ _))

/-- The fields can be stored, and the x share is no object with an operator. -/
structure Storable (m : IZkProofMetadata) : Prop where
  row : ∃ row, RowOf m.zk_proof m.epoch m.x_share row
  plain : ∀ fields, m.x_share = some (.obj fields) → fields.any (Mongoose.isOperator ·.1) = false

/-- The epoch of `m` is the string that is stored for the epoch of `s`. -/
def SpelledAs (s m : IZkProofMetadata) : Prop :=
  ∃ t, m.epoch = some (.str t) ∧ Mongoose.castString s.epoch = .ok (some t)

instance (s m : IZkProofMetadata) : Decidable (s.SpelledAs m) :=
  decidable_of_iff ((match m.epoch with
    | some (.str t) => decide (Mongoose.castString s.epoch = .ok (some t))
    | _ => false) = true) <| by
    unfold SpelledAs
    cases m.epoch with
    | none => simp
    | some v => cases v <;> simp

end IZkProofMetadata

/-- The messages are saved one after another. -/
def saveAll : List IZkProofMetadata → Server Unit
  | [] => pure ()
  | m :: ms => do
      StatsModel.RequestStats.saveMessage m.zk_proof m.epoch m.x_share
      saveAll ms

/-- After the messages `ms` have been saved: each of them is a duplicate; a message `m` with the
    nullifier `ν` and an epoch that denotes `n` has all rows of such messages counted and fetched;
    and it breaks the spam rule for their number, but not for one more. -/
structure CountersAgree (lib : Libraries) (ms : List IZkProofMetadata) (m : IZkProofMetadata)
    (ν : String) (n : ℤ) (db : Db) : Prop where
  saved : (saveAll ms).run db = (.ok (), (saveAll ms).exec db)
  duplicate : ∀ s ∈ ms, ((StatsModel.RequestStats.isDuplicate lib s.zk_proof s.epoch s.x_share).run
    ((saveAll ms).exec db)).1 = .ok true
  counted : ∀ s ∈ ms, s.InEpoch ν n → ∃ row rows, RowOf s.zk_proof s.epoch s.x_share row ∧
    StatsModel.counted lib m.epoch ν row = true ∧
    ((StatsModel.RequestStats.getRequestStats lib m.zk_proof m.epoch).run
      ((saveAll ms).exec db)).1 = .ok rows ∧ row ∈ rows
  threshold : 1 ≤ ms.countP (·.InEpoch ν n) →
    ((StatsModel.RequestStats.isSpam lib m.zk_proof m.epoch (ms.countP (·.InEpoch ν n))).run
      ((saveAll ms).exec db)).1 = .ok true ∧
    ((StatsModel.RequestStats.isSpam lib m.zk_proof m.epoch (ms.countP (·.InEpoch ν n) + 1)).run
      ((saveAll ms).exec db)).1 = .ok false

/-- Where there are such messages, they are those of the nullifier whose stored epoch is the string
    that `m` has. -/
def OneSpelling (ms : List IZkProofMetadata) (m : IZkProofMetadata) (ν : String) (n : ℤ) : Prop :=
  (∃ s ∈ ms, s.InEpoch ν n) → ∀ s ∈ ms, getNullifierFromFullProof s.zk_proof = .ok ν →
    (Js.bigInt s.epoch = .ok n ↔ s.SpelledAs m)

section

variable {lib : Libraries} {ms : List IZkProofMetadata} {m s : IZkProofMetadata} {ν : String} {n : ℤ}
  {db : Db} {row : IRequestStats}

/-! ## Saving -/

/-- The messages whose fields can be stored leave their rows, in order. -/
theorem run_saveAll (h : ∀ s ∈ ms, ∃ row, RowOf s.zk_proof s.epoch s.x_share row) (db : Db) :
    (saveAll ms).run db = (.ok (), (saveAll ms).exec db) ∧
      ∃ rows, List.Forall₂ (fun s row => RowOf s.zk_proof s.epoch s.x_share row) ms rows ∧
        ((saveAll ms).exec db).requestStats = db.requestStats ++ rows := by
  induction ms generalizing db with
  | nil => exact ⟨rfl, [], .nil, (List.append_nil _).symm⟩
  | cons s ms ih =>
      obtain ⟨row, hrow⟩ := h s List.mem_cons_self
      obtain ⟨hrun, rows, hrows, hdb⟩ := ih (fun s' hs' => h s' (List.mem_cons_of_mem s hs'))
        (db.createStats row .RequestStats)
      have hstep : (saveAll (s :: ms)).run db
          = (saveAll ms).run (db.createStats row .RequestStats) :=
        run_bind_of_ok (run_saveMessage_of_rowOf hrow)
      refine ⟨?_, row :: rows, .cons hrow hrows, ?_⟩
      · rw [exec, hstep, hrun]
      · rw [exec, hstep]
        show ((saveAll ms).exec _).requestStats = _
        rw [hdb]
        exact List.append_assoc db.requestStats [row] rows

/-- Where all are saved, all can be stored. -/
theorem rowOf_of_run_saveAll (h : ((saveAll ms).run db).1 = .ok ()) :
    ∀ s ∈ ms, ∃ row, RowOf s.zk_proof s.epoch s.x_share row := by
  induction ms generalizing db with
  | nil => exact fun s hs => absurd hs List.not_mem_nil
  | cons s ms ih =>
      rcases run_saveMessage (Prod.eta _ : (StatsModel.RequestStats.saveMessage s.zk_proof s.epoch
        s.x_share).run db = _).symm with ⟨e, he, -⟩ | ⟨row, hok, hrow, hdb⟩
      · rw [saveAll, run_bind_of_error (Prod.ext he rfl)] at h
        cases h
      · rw [saveAll, run_bind_of_ok (Prod.ext hok rfl)] at h
        intro s' hs'
        rcases List.mem_cons.mp hs' with rfl | hs'
        · exact ⟨row, hrow⟩
        · exact ih h s' hs'

/-! ## Duplicates -/

/-- An accepted epoch is no object. -/
theorem IZkProofMetadata.EpochAccepted.not_obj (h : s.EpochAccepted) (fields : List (String × Json)) :
    s.epoch ≠ some (.obj fields) := by
  intro hobj
  obtain ⟨now, delay, hfresh⟩ := h
  obtain ⟨k, hk, -⟩ := Except.bind_ok_iff.mp hfresh
  exact bigInt_obj fields k (hobj ▸ hk)

theorem isDuplicate_of_mem (hs : s.EpochAccepted) (hstorable : s.Storable)
    (hrow : RowOf s.zk_proof s.epoch s.x_share row) (hmem : row ∈ db.requestStats) :
    ((StatsModel.RequestStats.isDuplicate lib s.zk_proof s.epoch s.x_share).run db).1
      = .ok true := by
  obtain ⟨p, hp⟩ := Mongoose.filter_ok_of_castString lib hrow.epoch
    fun fields hobj => absurd hobj (hs.not_obj fields)
  obtain ⟨p', hp'⟩ := Mongoose.filter_ok_of_castString lib hrow.xShare hstorable.plain
  unfold StatsModel.isDuplicate StatsModel.isDuplicateRequest
  rw [hrow.nullifier, hrow.yShare, hp, hp']
  simp only [run_ofExcept_ok_bind, run_query, Except.ok.injEq, List.any_eq_true]
  refine ⟨row, hmem, ?_⟩
  simp [Mongoose.filter_of_castString hrow.epoch hp, Mongoose.filter_of_castString hrow.xShare hp']

theorem plain_of_isDuplicate (hrow : RowOf s.zk_proof s.epoch s.x_share row)
    (h : ((StatsModel.RequestStats.isDuplicate lib s.zk_proof s.epoch s.x_share).run db).1
      = .ok true) :
    ∀ fields, s.x_share = some (.obj fields) → fields.any (Mongoose.isOperator ·.1) = false := by
  have hrun : (StatsModel.RequestStats.isDuplicate lib s.zk_proof s.epoch s.x_share).run db
      = (.ok true, _) := Prod.ext h rfl
  unfold StatsModel.isDuplicate StatsModel.isDuplicateRequest at hrun
  obtain ⟨_, -, hrun⟩ := run_ofExcept_bind_ok_iff.mp hrun
  obtain ⟨_, -, hrun⟩ := run_ofExcept_bind_ok_iff.mp hrun
  obtain ⟨_, -, hrun⟩ := run_ofExcept_bind_ok_iff.mp hrun
  obtain ⟨p, hp, -⟩ := run_ofExcept_bind_ok_iff.mp hrun
  intro fields hobj
  have hcast := hrow.xShare
  rw [hobj] at hcast hp
  exact Mongoose.plain_of_filter_ok hcast hp

/-! ## Counting -/

variable (lib) in
/-- Rows are counted for `m` by their nullifier and the string their epoch is stored as. -/
theorem counted_iff_of_rowOf (hm : m.EpochAccepted) (hrow : RowOf s.zk_proof s.epoch s.x_share row) :
    StatsModel.counted lib m.epoch ν row = true ↔
      getNullifierFromFullProof s.zk_proof = .ok ν ∧ s.SpelledAs m := by
  rw [hrow.nullifier, Except.ok.injEq, StatsModel.counted, Bool.and_eq_true, decide_eq_true_eq]
  constructor
  · rintro ⟨hmatch, hnull⟩
    obtain ⟨now, delay, hfresh⟩ := hm
    obtain ⟨t, ht⟩ := epoch_of_counted hfresh hmatch
    rw [ht, Mongoose.matchField, decide_eq_true_eq] at hmatch
    exact ⟨hnull, t, ht, hmatch ▸ hrow.epoch⟩
  · rintro ⟨hnull, t, ht, hcast⟩
    refine ⟨?_, hnull⟩
    rw [ht, Mongoose.matchField, decide_eq_true_eq]
    exact Except.ok.inj (hrow.epoch.symm.trans hcast)

theorem countP_rows (hm : m.EpochAccepted) {rows : List IRequestStats}
    (hrows : List.Forall₂ (fun s row => RowOf s.zk_proof s.epoch s.x_share row) ms rows) :
    rows.countP (StatsModel.counted lib m.epoch ν)
      = ms.countP fun s => getNullifierFromFullProof s.zk_proof = .ok ν ∧ s.SpelledAs m := by
  induction hrows with
  | nil => rfl
  | @cons s row ms rows hrow _ ih =>
      have hiff := counted_iff_of_rowOf lib (ν := ν) hm hrow
      rw [List.countP_cons, List.countP_cons, ih]
      simp only [hiff, decide_eq_true_eq]

/-- A predicate that holds as often as one that implies it, implies it. -/
theorem imp_of_countP_eq {α : Type} {p q : α → Bool} {l : List α}
    (h : ∀ a ∈ l, p a = true → q a = true) (hcount : l.countP p = l.countP q) :
    ∀ a ∈ l, q a = true → p a = true := by
  have hfilter : (l.filter q).filter p = l.filter q := by
    refine List.filter_sublist.eq_of_length ?_
    have hpq : (l.filter q).filter p = l.filter p := by
      rw [List.filter_filter]
      refine List.filter_congr fun a ha => ?_
      cases hp : p a with
      | true => rw [h a ha hp]; rfl
      | false => rfl
    rw [hpq, ← List.countP_eq_length_filter, ← List.countP_eq_length_filter, hcount]
  intro a ha hq
  exact List.filter_eq_self.mp hfilter a (List.mem_filter.mpr ⟨ha, hq⟩)

theorem run_isSpam_of_countP (hν : getNullifierFromFullProof m.zk_proof = .ok ν) {k : ℕ}
    (hcount : db.requestStats.countP (StatsModel.counted lib m.epoch ν) = k) (spamThreshold : ℕ) :
    ((StatsModel.RequestStats.isSpam lib m.zk_proof m.epoch spamThreshold).run db).1
      = .ok (decide (k ≠ 0 ∧ spamThreshold ≤ k)) := by
  unfold StatsModel.isSpam
  rw [hν, run_ofExcept_ok_bind, StatsModel.isSpamRequest, run_query]
  simp only [Db.stats, hcount]

end

/-! ## The four together -/

section

variable {lib : Libraries} {ms : List IZkProofMetadata} {m : IZkProofMetadata} {ν : String} {n : ℤ}
  {start : Db}

variable (lib) in
/-- The rows that are counted for `m` once the messages are saved. -/
theorem countP_saveAll (hm : m.EpochAccepted) (hstart : ∀ row ∈ start.requestStats, row.nullifier ≠ ν)
    (hrows : ∀ s ∈ ms, ∃ row, RowOf s.zk_proof s.epoch s.x_share row) :
    ((saveAll ms).exec start).requestStats.countP (StatsModel.counted lib m.epoch ν)
      = ms.countP fun s => getNullifierFromFullProof s.zk_proof = .ok ν ∧ s.SpelledAs m := by
  obtain ⟨-, rows, hall, hdb⟩ := run_saveAll hrows start
  have hnone : start.requestStats.countP (StatsModel.counted lib m.epoch ν) = 0 := by
    rw [List.countP_eq_zero]
    intro row hrow hcounted
    rw [StatsModel.counted, Bool.and_eq_true, decide_eq_true_eq] at hcounted
    exact hstart row hrow hcounted.2
  rw [hdb, List.countP_append, hnone, Nat.zero_add, countP_rows hm hall]

theorem mem_saveAll (hrows : ∀ s ∈ ms, ∃ row, RowOf s.zk_proof s.epoch s.x_share row)
    {s : IZkProofMetadata} (hs : s ∈ ms) {row : IRequestStats}
    (hrow : RowOf s.zk_proof s.epoch s.x_share row) :
    row ∈ ((saveAll ms).exec start).requestStats := by
  obtain ⟨-, rows, hall, hdb⟩ := run_saveAll hrows start
  rw [hdb]
  refine List.mem_append_right _ ?_
  clear hrows hdb
  induction hall with
  | nil => exact absurd hs List.not_mem_nil
  | @cons s' row' ms rows hrow' _ ih =>
      rcases List.mem_cons.mp hs with rfl | hs
      · exact hrow.unique hrow' ▸ List.mem_cons_self
      · exact List.mem_cons_of_mem _ (ih hs)

/-- A row that is found by the duplicate check can be stored. -/
theorem CountersAgree.storable (h : CountersAgree lib ms m ν n start) : ∀ s ∈ ms, s.Storable := by
  intro s hs
  obtain ⟨row, hrow⟩ := rowOf_of_run_saveAll (congrArg Prod.fst h.saved) s hs
  exact ⟨⟨row, hrow⟩, plain_of_isDuplicate hrow (h.duplicate s hs)⟩

/-- Every message of the epoch is counted, and the threshold says that no other one is. -/
theorem CountersAgree.oneSpelling (h : CountersAgree lib ms m ν n start) (hm : m.EpochAccepted)
    (hν : getNullifierFromFullProof m.zk_proof = .ok ν)
    (hstart : ∀ row ∈ start.requestStats, row.nullifier ≠ ν) : OneSpelling ms m ν n := by
  rintro ⟨s₀, hs₀, hin⟩
  have hcount := countP_saveAll lib hm hstart fun s hs => (h.storable s hs).row
  have himp : ∀ s ∈ ms, s.InEpoch ν n →
      getNullifierFromFullProof s.zk_proof = .ok ν ∧ s.SpelledAs m := by
    intro s hs hs'
    obtain ⟨row, _, hrow, hcounted, -⟩ := h.counted s hs hs'
    exact (counted_iff_of_rowOf lib hm hrow).mp hcounted
  -- the threshold at the number of messages of the epoch, and above it, fixes what is counted
  have hpos : 1 ≤ ms.countP (·.InEpoch ν n) :=
    List.countP_pos_iff.mpr ⟨s₀, hs₀, decide_eq_true hin⟩
  obtain ⟨hyes, hno⟩ := h.threshold hpos
  rw [run_isSpam_of_countP hν hcount, Except.ok.injEq] at hyes hno
  have hge := (of_decide_eq_true hyes).2
  have hlt := of_decide_eq_false hno
  have heq : ms.countP (·.InEpoch ν n)
      = ms.countP fun s => getNullifierFromFullProof s.zk_proof = .ok ν ∧ s.SpelledAs m := by
    omega
  intro s hs hnull
  constructor
  · exact fun hn => (himp s hs ⟨hnull, hn⟩).2
  · intro hspelled
    have hin := imp_of_countP_eq (fun s hs hp => decide_eq_true (himp s hs (of_decide_eq_true hp)))
      heq s hs (decide_eq_true ⟨hnull, hspelled⟩)
    exact (of_decide_eq_true hin).2

theorem OneSpelling.countP_eq (h : OneSpelling ms m ν n) (hpos : 1 ≤ ms.countP (·.InEpoch ν n)) :
    ms.countP (fun s => getNullifierFromFullProof s.zk_proof = .ok ν ∧ s.SpelledAs m)
      = ms.countP (·.InEpoch ν n) := by
  obtain ⟨s₀, hs₀, hin⟩ := List.countP_pos_iff.mp hpos
  refine List.countP_congr fun s hs => ?_
  rw [decide_eq_true_eq, decide_eq_true_eq]
  have hiff := h ⟨s₀, hs₀, of_decide_eq_true hin⟩ s hs
  exact ⟨fun h => ⟨h.1, (hiff h.1).mpr h.2⟩, fun h => ⟨h.1, (hiff h.1).mp h.2⟩⟩

/-- The counters agree on one key exactly when the messages can be stored, those of the epoch are
    spelled as the message that asks, and those of other epochs are not. -/
theorem countersAgree_iff (hms : ∀ s ∈ ms, s.EpochAccepted) (hm : m.EpochAccepted)
    (hν : getNullifierFromFullProof m.zk_proof = .ok ν)
    (hstart : ∀ row ∈ start.requestStats, row.nullifier ≠ ν) :
    CountersAgree lib ms m ν n start ↔ (∀ s ∈ ms, s.Storable) ∧ OneSpelling ms m ν n := by
  constructor
  · exact fun h => ⟨h.storable, h.oneSpelling hm hν hstart⟩
  · rintro ⟨hstorable, hone⟩
    have hrows : ∀ s ∈ ms, ∃ row, RowOf s.zk_proof s.epoch s.x_share row :=
      fun s hs => (hstorable s hs).row
    refine ⟨(run_saveAll hrows start).1, ?_, ?_, ?_⟩
    · intro s hs
      obtain ⟨row, hrow⟩ := hrows s hs
      exact isDuplicate_of_mem (hms s hs) (hstorable s hs) hrow (mem_saveAll hrows hs hrow)
    · intro s hs hin
      obtain ⟨row, hrow⟩ := hrows s hs
      have hspelled := (hone ⟨s, hs, hin⟩ s hs hin.1).mp hin.2
      obtain ⟨t, ht, hcast⟩ := hspelled
      have hfetch := congrArg Prod.fst
        (run_getRequestStats lib t m.zk_proof ((saveAll ms).exec start) hν)
      refine ⟨row, _, hrow, (counted_iff_of_rowOf lib hm hrow).mpr ⟨hin.1, t, ht, hcast⟩, ht ▸ hfetch,
        List.mem_filter.mpr ⟨mem_saveAll hrows hs hrow, decide_eq_true ⟨?_, ?_⟩⟩⟩
      · exact Except.ok.inj (hrow.epoch.symm.trans hcast)
      · exact Except.ok.inj (hrow.nullifier.symm.trans hin.1)
    · intro hpos
      have hcount := (countP_saveAll lib hm hstart hrows).trans (hone.countP_eq hpos)
      rw [run_isSpam_of_countP hν hcount, run_isSpam_of_countP hν hcount]
      refine ⟨congrArg _ (decide_eq_true ⟨by omega, le_rfl⟩), congrArg _ (decide_eq_false ?_)⟩
      omega

end

/-! ## The epoch as a number -/

namespace Demo

/-- A message with nullifier 7 and this epoch. -/
def statsMessage (epoch : Json) : IZkProofMetadata where
  zk_proof := some (fullProof 0 1 0 0 7 0 5)
  epoch := some epoch
  x_share := some (.str "5")

theorem epochAccepted_zero : (statsMessage (.num (.finite 0))).EpochAccepted :=
  ⟨0, 20, by decide +kernel⟩

theorem epochAccepted_text : (statsMessage (.str "0")).EpochAccepted := ⟨0, 20, by decide +kernel⟩

end Demo

/-- One message whose epoch is a number is saved, and is not counted. -/
theorem number_is_not_counted :
    ¬ ∀ (lib : Libraries) (ms : List IZkProofMetadata) (m : IZkProofMetadata) (ν : String) (n : ℤ)
      (start : Db), (∀ s ∈ ms, s.EpochAccepted) → m.EpochAccepted →
      getNullifierFromFullProof m.zk_proof = .ok ν → Js.bigInt m.epoch = .ok n →
      start.requestStats = [] → CountersAgree lib ms m ν n start := by
  intro h
  have hagree := h Demo.lib [Demo.statsMessage (.num (.finite 0))]
    (Demo.statsMessage (.num (.finite 0))) "7" 0 {} ?_ Demo.epochAccepted_zero rfl
    (by decide +kernel) rfl
  · obtain ⟨_, _, -, hcounted, -⟩ := hagree.counted _ (List.mem_singleton_self _)
      (by decide +kernel)
    cases hcounted
  · intro s hs
    obtain rfl := List.mem_singleton.mp hs
    exact Demo.epochAccepted_zero

namespace Demo

/-- Two messages of the nullifier 7 for the epoch 0, and beside them one of another nullifier and one
    for another epoch. -/
def savedMessages : List IZkProofMetadata :=
  [{ statsMessage (.str "0") with x_share := some (.str "1") },
    { statsMessage (.str "0") with zk_proof := some (fullProof 0 1 0 0 8 0 5) },
    statsMessage (.str "0"), statsMessage (.str "10000")]

theorem savedMessages_accepted : ∀ s ∈ savedMessages, s.EpochAccepted := by
  have h₀ : verifyEpoch 0 (some (.str "0")) 20 = .ok true := by decide +kernel
  have h₁ : verifyEpoch 0 (some (.str "10000")) 20 = .ok true := by decide +kernel
  intro s hs
  simp only [savedMessages, List.mem_cons, List.not_mem_nil, or_false] at hs
  rcases hs with rfl | rfl | rfl | rfl
  · exact ⟨0, 20, h₀⟩
  · exact ⟨0, 20, h₀⟩
  · exact ⟨0, 20, h₀⟩
  · exact ⟨0, 20, h₁⟩

end Demo

/-- Messages whose epochs are strings are counted, two of the four for the message that asks. -/
theorem text_is_counted : CountersAgree Demo.lib Demo.savedMessages
    (Demo.statsMessage (.str "0")) "7" 0 {} := by
  refine (countersAgree_iff Demo.savedMessages_accepted Demo.epochAccepted_text rfl
    (by simp)).mpr ⟨?_, ?_⟩
  · intro s hs
    simp only [Demo.savedMessages, List.mem_cons, List.not_mem_nil, or_false] at hs
    rcases hs with rfl | rfl | rfl | rfl
    · exact ⟨⟨⟨"7", some "0", some "1", "5"⟩, rfl, rfl, rfl, rfl⟩, fun _ h => by cases h⟩
    · exact ⟨⟨⟨"8", some "0", some "5", "5"⟩, rfl, rfl, rfl, rfl⟩, fun _ h => by cases h⟩
    · exact ⟨⟨⟨"7", some "0", some "5", "5"⟩, rfl, rfl, rfl, rfl⟩, fun _ h => by cases h⟩
    · exact ⟨⟨⟨"7", some "10000", some "5", "5"⟩, rfl, rfl, rfl, rfl⟩, fun _ h => by cases h⟩
  · intro _ s hs hnull
    simp only [Demo.savedMessages, List.mem_cons, List.not_mem_nil, or_false] at hs
    rcases hs with rfl | rfl | rfl | rfl
    · exact ⟨fun _ => ⟨"0", rfl, rfl⟩, fun _ => by decide +kernel⟩
    · exact absurd hnull (by decide +kernel)
    · exact ⟨fun _ => ⟨"0", rfl, rfl⟩, fun _ => by decide +kernel⟩
    · -- another epoch, and another spelling
      refine ⟨fun h => absurd h (by decide +kernel), ?_⟩
      rintro ⟨t, ht, hcast⟩
      obtain rfl : "0" = t := Json.str.inj (Option.some.inj ht)
      exact absurd hcast (by decide +kernel)

end ZkChat
