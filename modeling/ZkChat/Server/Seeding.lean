import ZkChat.Lib.Pool
import ZkChat.Server.Append

set_option autoImplicit false

/-! # Seeding that is cut off

A server that stops while `seedZeros` runs leaves the documents that were saved so far
(`after_seedZeros`), and the next start calls `seedZeros` again. The guard there asks only whether
anything is stored, so the second run adds nothing to an incomplete chain
(`seedZeros_restart_iff`), and an append to the new tree throws at the first level whose zero hash
is missing (`appendUser_short`). -/

namespace ZkChat

open HashTree Prog UserService

variable {poseidon : List ℤ → ℤ} {zeroValue : ℤ} {treeLevels : ℕ} {db : Db}

/-- The zero documents are the levels below `treeLevels` in order, each once. The hash of level `0`
    is that of the zero value, and each hash above is that of the two nodes below. -/
structure ZeroChain (poseidon : List ℤ → ℤ) (zeroValue : ℤ) (treeLevels : ℕ)
    (zeros : List IMerkleTreeZero) : Prop where
  levels : zeros.map (·.level) = List.range treeLevels
  first : ∀ zero, zeros[0]? = some zero → zero.hash = Js.bigIntToString zeroValue
  next : ∀ l below zero, zeros[l]? = some below → zeros[l + 1]? = some zero →
    ∃ v, Js.stringToBigInt below.hash = some v ∧ zero.hash = Js.bigIntToString (poseidon [v, v])

namespace ZeroChain

theorem length {zeros : List IMerkleTreeZero} (h : ZeroChain poseidon zeroValue treeLevels zeros) :
    zeros.length = treeLevels := by
  simpa using congrArg List.length h.levels

/-- The hashes are determined from the first one on. -/
theorem hash {zeros : List IMerkleTreeZero} (h : ZeroChain poseidon zeroValue treeLevels zeros)
    (l : ℕ) : ∀ zero, zeros[l]? = some zero →
      zero.hash = Js.bigIntToString (zeroHash (pairHash poseidon) zeroValue l) := by
  induction l with
  | zero => exact h.first
  | succ l ih =>
      intro zero hzero
      obtain ⟨hlt, -⟩ := List.getElem?_eq_some_iff.mp hzero
      have hbelow := List.getElem?_eq_getElem (Nat.lt_of_succ_lt hlt)
      obtain ⟨v, hv, hnext⟩ := h.next l _ zero hbelow hzero
      rw [ih _ hbelow, Js.stringToBigInt_bigIntToString, Option.some_inj] at hv
      rw [hnext, ← hv, zeroHash, pairHash]

theorem level {zeros : List IMerkleTreeZero} (h : ZeroChain poseidon zeroValue treeLevels zeros)
    {l : ℕ} {zero : IMerkleTreeZero} (hzero : zeros[l]? = some zero) : zero.level = l := by
  have hlevel : (zeros.map (·.level))[l]? = some zero.level := by
    rw [List.getElem?_map, hzero, Option.map_some]
  rw [h.levels] at hlevel
  obtain ⟨hlt, hl⟩ := List.getElem?_eq_some_iff.mp hlevel
  rw [← hl, List.getElem_range]

theorem eq_map {zeros : List IMerkleTreeZero}
    (h : ZeroChain poseidon zeroValue treeLevels zeros) :
    zeros = (List.range treeLevels).map (zeroRow poseidon zeroValue) := by
  have hrow : ∀ zero ∈ zeros, zero = zeroRow poseidon zeroValue zero.level := by
    intro zero hmem
    obtain ⟨l, hzero⟩ := List.mem_iff_getElem?.mp hmem
    rw [h.level hzero, zeroRow, ← h.hash l zero hzero, ← h.level hzero]
  rw [← h.levels, List.map_map]
  exact (List.map_id zeros).symm.trans (List.map_congr_left hrow)

theorem of_map :
    ZeroChain poseidon zeroValue treeLevels
      ((List.range treeLevels).map (zeroRow poseidon zeroValue)) := by
  have hrow : ∀ {l zero},
      ((List.range treeLevels).map (zeroRow poseidon zeroValue))[l]? = some zero →
        zero = zeroRow poseidon zeroValue l := by
    intro l zero hzero
    rw [List.getElem?_map, Option.map_eq_some_iff] at hzero
    obtain ⟨i, hi, rfl⟩ := hzero
    obtain ⟨-, rfl⟩ := List.getElem?_eq_some_iff.mp hi
    rw [List.getElem_range]
  refine ⟨by simp [Function.comp_def, zeroRow], ?_, ?_⟩
  · intro zero hzero
    rw [hrow hzero, zeroRow, zeroHash]
  · intro l below zero hbelow hzero
    rw [hrow hbelow, hrow hzero]
    exact ⟨_, Js.stringToBigInt_bigIntToString _, by rw [zeroRow, zeroHash, pairHash]⟩

/-- There is one such list. -/
theorem iff_eq_map {zeros : List IMerkleTreeZero} :
    ZeroChain poseidon zeroValue treeLevels zeros ↔
      zeros = (List.range treeLevels).map (zeroRow poseidon zeroValue) := by
  constructor
  · exact eq_map
  · rintro rfl
    exact of_map

end ZeroChain

/-! ## The two starts -/

/-- The loop, cut off after `a` of its iterations. -/
theorem after_seedLevels (a k level : ℕ) (z zeroValue : ℤ) (db : Db)
    (hz : level ≠ 0 → z = zeroHash (pairHash poseidon) zeroValue (level - 1))
    (hz' : level = 0 → z = zeroValue) (hfree : ∀ r ∈ db.treeZeros, r.level < level) :
    (seedLevels poseidon k level z).after a db = { db with
      treeZeros := db.treeZeros ++
        (List.range' level (min a k)).map (zeroRow poseidon zeroValue) } := by
  induction k generalizing a level z db with
  | zero => simp [seedLevels, pure]
  | succ k ih =>
      cases a with
      | zero => simp
      | succ a =>
          rw [seedLevels, seedLevels_hash hz hz', MerkleTreeZero.create,
            after_await_bind_succ a _ (Db.createZero_of_free hfree _),
            ih a (level + 1) _ _ (fun _ => by simp) (by simp) (free_append hfree _),
            Nat.succ_min_succ]
          simp [List.range'_succ, zeroRow]

/-- A first start that stops after `a` actions: one query, then one document an action. -/
theorem after_seedZeros (a : ℕ) (hnew : db.treeZeros = []) :
    (seedZeros poseidon zeroValue treeLevels).after a db = { db with
      treeZeros := (List.range (min (a - 1) treeLevels)).map (zeroRow poseidon zeroValue) } := by
  cases a with
  | zero =>
      rw [after_zero, Nat.zero_sub, Nat.zero_min, List.range_zero, List.map_nil, ← hnew]
  | succ a =>
      rw [seedZeros, MerkleTreeZero.findZeros, after_query_bind_succ, hnew, if_pos List.length_nil,
        after_seedLevels a treeLevels 0 zeroValue zeroValue db (absurd rfl) (fun _ => rfl)
          (by simp [hnew]), hnew, List.nil_append, List.range_eq_range', Nat.add_sub_cancel]

/-- Every number of saved documents is where some first start stops. -/
theorem length_after_seedZeros {k : ℕ} (hk : k ≤ treeLevels) (hnew : db.treeZeros = []) :
    ((seedZeros poseidon zeroValue treeLevels).after (k + 1) db).treeZeros.length = k := by
  simp [after_seedZeros _ hnew, hk]

/-- A start of a server that has zero hashes changes nothing. -/
theorem run_seedZeros_of_ne_nil (h : db.treeZeros ≠ []) :
    (seedZeros poseidon zeroValue treeLevels).run db = (.ok (), db) := by
  rw [seedZeros, MerkleTreeZero.findZeros, run_query_bind,
    if_neg (by simpa using h), run_pure]

/-- A start of a server that has none stores them all. -/
theorem run_seedZeros_of_nil (h : db.treeZeros = []) :
    (seedZeros poseidon zeroValue treeLevels).run db = (.ok (), { db with
      treeZeros := (List.range treeLevels).map (zeroRow poseidon zeroValue) }) := by
  rw [seedZeros, MerkleTreeZero.findZeros, run_query_bind, h, if_pos List.length_nil,
    run_seedLevels treeLevels 0 zeroValue zeroValue db (absurd rfl) (fun _ => rfl) (by simp [h]),
    h, List.nil_append, List.range_eq_range']

/-- A first start stops after it has saved `k` of the documents, and the next one runs to its end:
    the zero hashes are complete when nothing or everything had been saved, and at no other `k`. -/
theorem seedZeros_restart_iff (poseidon : List ℤ → ℤ) (zeroValue : ℤ) (treeLevels k a : ℕ)
    (db : Db) (hnew : db.treeZeros = [])
    (hsaved : ((seedZeros poseidon zeroValue treeLevels).after a db).treeZeros.length = k) :
    (∃ db', (seedZeros poseidon zeroValue treeLevels).run
        ((seedZeros poseidon zeroValue treeLevels).after a db) = (.ok (), db') ∧
      ZeroChain poseidon zeroValue treeLevels db'.treeZeros) ↔ k = 0 ∨ k = treeLevels := by
  rw [after_seedZeros a hnew] at hsaved ⊢
  rw [List.length_map, List.length_range] at hsaved
  rw [hsaved]
  rcases Nat.eq_zero_or_pos k with rfl | hpos
  · -- nothing was saved, so the guard lets the loop run
    refine iff_of_true ⟨_, run_seedZeros_of_nil rfl, ZeroChain.iff_eq_map.mpr rfl⟩ (Or.inl rfl)
  · rw [run_seedZeros_of_ne_nil (by simp [hpos.ne'])]
    constructor
    · rintro ⟨_, hrun, hchain⟩
      cases hrun
      exact Or.inr (by simpa using hchain.length)
    · rintro (h | rfl)
      · exact absurd h hpos.ne'
      · exact ⟨_, rfl, ZeroChain.iff_eq_map.mpr rfl⟩

/-- Stopped before the first document of two, and after the second one. -/
theorem seedZeros_restart_nothing_saved :
    (∃ db', (seedZeros sumHash 5 2).run ((seedZeros sumHash 5 2).after 1 {})
      = (.ok (), db') ∧ ZeroChain sumHash 5 2 db'.treeZeros) ∧
    ∃ db', (seedZeros sumHash 5 2).run ((seedZeros sumHash 5 2).after 3 {})
      = (.ok (), db') ∧ ZeroChain sumHash 5 2 db'.treeZeros :=
  ⟨(seedZeros_restart_iff sumHash 5 2 0 1 {} rfl rfl).mpr (Or.inl rfl),
    (seedZeros_restart_iff sumHash 5 2 2 3 {} rfl rfl).mpr (Or.inr rfl)⟩

/-- Stopped after the first document of two: the second one is never written. -/
theorem seedZeros_restart_incomplete :
    ((seedZeros (fun _ => 7) 5 2).after 2 {}).treeZeros = [{ level := 0, hash := "5" }] ∧
    ¬ ∃ db', (seedZeros (fun _ => 7) 5 2).run ((seedZeros (fun _ => 7) 5 2).after 2 {})
      = (.ok (), db') ∧ ZeroChain (fun _ => 7) 5 2 db'.treeZeros := by
  refine ⟨by decide, ?_⟩
  rintro ⟨db', hrun, hchain⟩
  have hzeros : db'.treeZeros = [{ level := 0, hash := "5" }] :=
    (congrArg (·.2.treeZeros) hrun).symm.trans (by decide)
  simpa [hzeros] using hchain.length

/-! ## What an append meets -/

theorem appendLeft_short {zeros : List IMerkleTreeZero} {level : ℕ} (h : zeros.length ≤ level)
    (groupId : String) (i : ℕ) (d : NodeDoc) (db : Db) :
    (appendLeft poseidon zeros groupId level i d).run db = (.error .typeError, db) := by
  rw [appendLeft, List.getElem?_eq_none h]
  rfl

/-- The walk from the leftmost leaf takes a zero hash at every level. -/
theorem appendLevels_short {zeros : List IMerkleTreeZero} (groupId : String) (n level : ℕ)
    (hle : level ≤ zeros.length) (hshort : zeros.length < level + n) (d : NodeDoc) (db : Db) :
    ∃ e, ((appendLevels poseidon zeros groupId n level 0 d).run db).1 = .error e := by
  induction n generalizing level d db with
  | zero => omega
  | succ n ih =>
      rw [appendLevels, run_bind, appendLevel, if_pos rfl]
      rcases hle.eq_or_lt with heq | hlt
      · rw [appendLeft_short heq.ge]
        exact ⟨_, rfl⟩
      · rcases (appendLeft poseidon zeros groupId level 0 d).run db with ⟨e | parent, db'⟩
        · exact ⟨e, rfl⟩
        · exact ih (level + 1) hlt (by omega) parent db'

/-- On an incomplete chain the first member of a tree cannot be appended. -/
theorem appendUser_short {config : IZKServerConfig} {zeros : List IMerkleTreeZero}
    (hshort : zeros.length < config.merkleTreeLevels) (hnodes : db.treeNodes = [])
    (groupId : String) (user : IGroupMember) :
    ∃ e, ((appendUser poseidon config zeros groupId user).run db).1 = .error e := by
  have hcount : db.getTotalNumberOfLeaves = 0 := by simp [Db.getTotalNumberOfLeaves, hnodes]
  rw [run_appendUser_of_room hcount (Nat.two_pow_pos _)]
  exact appendLevels_short groupId _ 0 (Nat.zero_le _) (by omega) _ _

end ZkChat
