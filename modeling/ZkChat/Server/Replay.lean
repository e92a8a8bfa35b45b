import ZkChat.Server.Requests

set_option autoImplicit false

/-! # Replays

Whether a proof can be accepted twice. Duplicates are looked for by row: no two accepted requests
leave the same row in the same collection (`Request.accepted_rows_distinct`). A row is not made
from the proof alone, though: the epoch and the x share beside it are in it, and each entry point
has its own collection. Where requests with one proof agree in these, no proof is accepted twice. -/

namespace ZkChat

open Prog

/-! ## What a proof is -/

/-- A number, or a value that cannot be read as one. -/
abbrev ProofValue := ℤ ⊕ Option Json

/-- The points and the public signals of a `snarkProof`. -/
structure ProofValues where
  pi_a : List ProofValue ⊕ Option Json
  pi_b : List (List ProofValue ⊕ Option Json) ⊕ Option Json
  pi_c : List ProofValue ⊕ Option Json
  yShare : ProofValue
  merkleRoot : ProofValue
  internalNullifier : ProofValue
  signalHash : ProofValue
  externalNullifier : ProofValue

namespace ProofValues

def readNumber (v : Option Json) : ProofValue :=
  match Js.bigInt v with
  | .ok n => .inl n
  | .error _ => .inr v

def readList {α : Type} (read : Option Json → α) : Option Json → List α ⊕ Option Json
  | some (.arr xs) => .inl (xs.map fun x => read (some x))
  | v => .inr v

/-- Read from a `snarkProof`, whatever else is in it and however the numbers are written. -/
def read (snarkProof : Json) : ProofValues :=
  let proof (name : String) := (Js.path (some snarkProof) ["proof", name]).toOption.join
  let signal (name : String) := (Js.path (some snarkProof) ["publicSignals", name]).toOption.join
  { pi_a := readList readNumber (proof "pi_a")
    pi_b := readList (readList readNumber) (proof "pi_b")
    pi_c := readList readNumber (proof "pi_c")
    yShare := readNumber (signal "yShare")
    merkleRoot := readNumber (signal "merkleRoot")
    internalNullifier := readNumber (signal "internalNullifier")
    signalHash := readNumber (signal "signalHash")
    externalNullifier := readNumber (signal "externalNullifier") }

end ProofValues

namespace Request

/-- The `snarkProof` of the request: proof points and public signals. -/
def snarkProof (r : Request) : Option Json :=
  r.metadata.bind fun md => match Js.prop md.zk_proof "snarkProof" with
    | .ok p => p
    | .error _ => none

/-- The requests carry one proof: the same points and the same public signals. -/
def SameProof (a b : Request) : Prop :=
  ∃ p q, a.snarkProof = some p ∧ b.snarkProof = some q ∧ ProofValues.read p = ProofValues.read q

/-- The row that the request would leave. -/
def HasRow (r : Request) (row : IRequestStats) : Prop :=
  ∃ md, r.metadata = some md ∧ RowOf md.zk_proof md.epoch md.x_share row

/-- If both requests can be stored, then as one row of one collection: with the same text of epoch,
    x share, nullifier and y share. -/
def SameSlot (a b : Request) : Prop :=
  ∀ row row', a.HasRow row → b.HasRow row' → a.model = b.model ∧ row = row'

/-- The requests would leave one row in one collection. -/
def Collide (a b : Request) : Prop :=
  a.model = b.model ∧ ∃ row, a.HasRow row ∧ b.HasRow row

/-- The requests of a sequence of calls that were accepted. -/
def accepted (lib : Libraries) (config : IZKServerConfig) : List (CallEnv × Request) → Db →
    List Request
  | [], _ => []
  | (env, r) :: calls, db =>
      if (r.exec lib config env db).1 then
        r :: accepted lib config calls (r.exec lib config env db).2
      else accepted lib config calls (r.exec lib config env db).2

/-- The row of the request is in its collection. -/
def Stored (r : Request) (db : Db) : Prop := ∃ row ∈ db.stats r.model, r.HasRow row

variable {lib : Libraries} {config : IZKServerConfig} {env : CallEnv} {db : Db}

/-! ## One step -/

/-- No request removes a row. -/
theorem mem_stats_exec (r : Request) {row : IRequestStats} {model : StatsModel}
    (h : row ∈ db.stats model) : row ∈ (r.exec lib config env db).2.stats model := by
  rcases r.exec_stats lib config env db with ⟨-, hr⟩ | ⟨md, -, heff⟩
  · rwa [hr]
  · cases heff with
    | refused _ hsame => rwa [hsame model]
    | recorded _ _ hsame =>
        rw [hsame model, Db.stats_createStats]
        exact List.mem_append_left _ h

/-- An accepted request has passed the checks and was recorded. -/
theorem recorded_of_accepted {r : Request} (h : (r.exec lib config env db).1 = true) :
    ∃ md nullifier row, r.metadata = some md ∧
      Checked lib config env r.model md.zk_proof md.epoch md.x_share db nullifier false ∧
      RowOf md.zk_proof md.epoch md.x_share row ∧
      SameStats (db.createStats row r.model) (r.exec lib config env db).2 := by
  rcases r.exec_stats lib config env db with ⟨-, hr⟩ | ⟨md, hmd, heff⟩
  · rw [hr] at h
    cases h
  · cases heff with
    | refused hacc _ =>
        rw [h] at hacc
        cases hacc
    | @recorded nullifier row hchecked hrow hsame =>
        exact ⟨md, nullifier, row, hmd, hchecked, hrow, hsame⟩

/-- An accepted request has left its row. -/
theorem stored_of_accepted {r : Request} (h : (r.exec lib config env db).1 = true) :
    r.Stored (r.exec lib config env db).2 := by
  obtain ⟨md, -, row, hmd, -, hrow, hsame⟩ := recorded_of_accepted h
  refine ⟨row, ?_, md, hmd, hrow⟩
  rw [hsame r.model, Db.stats_createStats, if_pos rfl]
  simp

theorem Stored.exec {a : Request} (h : a.Stored db) (lib : Libraries) (config : IZKServerConfig)
    (env : CallEnv) (r : Request) :
    a.Stored (r.exec lib config env db).2 := by
  obtain ⟨row, hrow, hof⟩ := h
  exact ⟨row, r.mem_stats_exec hrow, hof⟩

/-- A request whose row is stored already is refused. -/
theorem refused_of_mem {r : Request} {row : IRequestStats} (hmem : row ∈ db.stats r.model)
    (hrow : r.HasRow row) : (r.exec lib config env db).1 = false := by
  cases hacc : (r.exec lib config env db).1 with
  | false => rfl
  | true =>
      obtain ⟨md, _, _, hmd, hchecked, -⟩ := recorded_of_accepted hacc
      obtain ⟨md', hmd', hof⟩ := hrow
      obtain rfl := Option.some.inj (hmd.symm.trans hmd')
      exact absurd hof (hchecked.new row hmem)

/-! ## Runs -/

theorem accepted_sublist (calls : List (CallEnv × Request)) (db : Db) :
    (accepted lib config calls db).Sublist (calls.map Prod.snd) := by
  induction calls generalizing db with
  | nil => exact .slnil
  | cons call calls ih =>
      rw [accepted]
      split
      · exact (ih _).cons_cons _
      · exact (ih _).cons _

theorem hasRow_of_mem_accepted {calls : List (CallEnv × Request)} {r : Request}
    (h : r ∈ accepted lib config calls db) : ∃ row, r.HasRow row := by
  induction calls generalizing db with
  | nil => cases h
  | cons call calls ih =>
      rw [accepted] at h
      split at h
      · next hacc =>
          rcases List.mem_cons.mp h with rfl | h
          · obtain ⟨row, -, hrow⟩ := stored_of_accepted hacc
            exact ⟨row, hrow⟩
          · exact ih h
      · exact ih h

/-- Once a row is stored, no later call that would leave it is accepted. -/
theorem Stored.not_accepted {a : Request} {calls : List (CallEnv × Request)} (h : a.Stored db) :
    ∀ b ∈ accepted lib config calls db, ¬ a.Collide b := by
  induction calls generalizing db with
  | nil => intro b hb; cases hb
  | cons call calls ih =>
      obtain ⟨env, r⟩ := call
      have hrest := ih (h.exec lib config env r)
      intro b hb
      rw [accepted] at hb
      split at hb
      · next hacc =>
          rcases List.mem_cons.mp hb with rfl | hb
          · rintro ⟨hmodel, row, ⟨md, hmd, hrow⟩, hrowb⟩
            obtain ⟨stored, hmem, md', hmd', hstored⟩ := h
            obtain rfl := Option.some.inj (hmd.symm.trans hmd')
            obtain rfl := hstored.unique hrow
            rw [refused_of_mem (hmodel ▸ hmem) hrowb] at hacc
            cases hacc
          · exact hrest b hb
      · exact hrest b hb

/-- No row is stored twice, from whatever state the run starts. -/
theorem accepted_rows_distinct (calls : List (CallEnv × Request)) (db : Db) :
    (accepted lib config calls db).Pairwise fun a b => ¬ a.Collide b := by
  induction calls generalizing db with
  | nil => exact .nil
  | cons call calls ih =>
      rw [accepted]
      split
      · next hacc => exact List.pairwise_cons.mpr ⟨(stored_of_accepted hacc).not_accepted, ih _⟩
      · exact ih _

/-- Where any two calls with one proof are stored as one row, no proof is accepted twice. -/
theorem accepted_proofs_distinct {calls : List (CallEnv × Request)}
    (hslot : calls.Pairwise fun a b => a.2.SameProof b.2 → a.2.SameSlot b.2) (db : Db) :
    (accepted lib config calls db).Pairwise fun a b => ¬ a.SameProof b := by
  have hslot' : (accepted lib config calls db).Pairwise fun a b => a.SameProof b → a.SameSlot b :=
    (List.pairwise_map.mpr hslot).sublist (accepted_sublist calls db)
  refine (hslot'.and (accepted_rows_distinct calls db)).imp_of_mem ?_
  rintro a b ha hb ⟨hsame, hrows⟩ hproof
  obtain ⟨row, hrow⟩ := hasRow_of_mem_accepted ha
  obtain ⟨row', hrow'⟩ := hasRow_of_mem_accepted hb
  obtain ⟨hmodel, rfl⟩ := hsame hproof row row' hrow hrow'
  exact hrows ⟨hmodel, row, hrow, hrow'⟩

/-! ## One proof, two requests -/

/-- The proof with one property more in its `snarkProof`. -/
def withNote : Json → Json
  | .obj ((key, .obj fields) :: rest) =>
      .obj ((key, .obj (("note", .str "again") :: fields)) :: rest)
  | proof => proof

/-- A deletion with its proof, and one with the same proof and a note. -/
def sentTwice (x x' : String) : List (CallEnv × Request) :=
  [(Demo.env "", Demo.deletion 3 0 5 "0" x),
    (Demo.env "", .deleteBundles
      { zk_proof := some (withNote (Demo.proof 3 0 1 5)), epoch := some (.str "0")
        x_share := some (.str x'), bundles := some (.arr []) })]

theorem sameProof_sentTwice (x x' : String) : (sentTwice x x').Pairwise fun a b =>
    a.2.SameProof b.2 := by
  rw [sentTwice, List.pairwise_pair]
  exact ⟨_, _, rfl, rfl, rfl⟩

/-- With two x shares one proof is accepted twice. -/
theorem replay_with_other_x_share :
    ¬ ∀ (lib : Libraries) (config : IZKServerConfig) (calls : List (CallEnv × Request)) (db : Db),
      (accepted lib config calls db).Pairwise fun a b => ¬ a.SameProof b := by
  intro h
  have hpair := h Demo.lib (Demo.config 2) (sentTwice "5" "6") Demo.db
  have hacc : accepted Demo.lib (Demo.config 2) (sentTwice "5" "6") Demo.db
      = (sentTwice "5" "6").map Prod.snd := by
    rw [sentTwice, accepted, if_pos (by decide +kernel), accepted, if_pos (by decide +kernel),
      accepted]
    rfl
  rw [hacc, List.pairwise_map] at hpair
  exact (List.pairwise_cons.mp hpair).1 _ List.mem_cons_self
    ((List.pairwise_cons.mp (sameProof_sentTwice "5" "6")).1 _ List.mem_cons_self)

/-- With one x share the second request is refused, with its note. -/
theorem replay_with_same_x_share :
    (sentTwice "5" "5").Pairwise (fun a b => a.2.SameProof b.2) ∧
      (accepted Demo.lib (Demo.config 2) (sentTwice "5" "5") Demo.db).Pairwise
        fun a b => ¬ a.SameProof b := by
  refine ⟨sameProof_sentTwice "5" "5", accepted_proofs_distinct ?_ Demo.db⟩
  rw [sentTwice, List.pairwise_pair]
  rintro - row row' ⟨_, hmd, hrow⟩ ⟨_, hmd', hrow'⟩
  cases hmd
  cases hmd'
  exact ⟨rfl, hrow.unique ⟨hrow'.nullifier, hrow'.yShare, hrow'.epoch, hrow'.xShare⟩⟩

end Request

end ZkChat
