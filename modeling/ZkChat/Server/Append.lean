import ZkChat.Server.TreeFrame

set_option autoImplicit false

/-! # What `appendUsers` does to a tree at rest

A member that is not in the tree yet becomes the leaf after the last one (`TreeInv.appendUser`); a
list of members extends the leaf sequence until the list or the room ends
(`TreeInv.appendMembers`). Before anything is appended, the zero hashes are those of `seedZeros`
(`seedZeros_seeded`). -/

namespace ZkChat

open HashTree Prog UserService

variable {poseidon : List ℤ → ℤ} {config : IZKServerConfig} {n : ℕ} {leaf : ℕ → ℤ}
  {stale : ℕ → ℕ → Prop} {db : Db}

/-! ## Seeding -/

/-- The hash that an iteration of the loop writes. -/
theorem seedLevels_hash {level : ℕ} {z zeroValue : ℤ}
    (hz : level ≠ 0 → z = zeroHash (pairHash poseidon) zeroValue (level - 1))
    (hz' : level = 0 → z = zeroValue) :
    (if level = 0 then z else poseidon [z, z])
      = zeroHash (pairHash poseidon) zeroValue level := by
  split
  · next h => rw [hz' h, h, zeroHash]
  · next h => rw [hz h, ← Nat.sub_one_add_one h, Nat.add_sub_cancel, zeroHash, pairHash]

/-- Above every stored level there is room for a document. -/
theorem Db.createZero_of_free {level : ℕ} (hfree : ∀ r ∈ db.treeZeros, r.level < level)
    (s : String) : db.createZero { level, hash := s }
      = (.ok (), { db with treeZeros := db.treeZeros ++ [{ level, hash := s }] }) := by
  refine if_neg ?_
  simp only [List.any_eq_true, decide_eq_true_eq, not_exists, not_and]
  intro r hr
  exact (hfree r hr).ne

theorem free_append {rows : List IMerkleTreeZero} {level : ℕ}
    (hfree : ∀ r ∈ rows, r.level < level) (s : String) :
    ∀ r ∈ rows ++ [{ level, hash := s }], r.level < level + 1 := by
  intro r hr
  rcases List.mem_append.mp hr with hr | hr
  · exact Nat.lt_succ_of_lt (hfree r hr)
  · rw [List.mem_singleton.mp hr]
    exact Nat.lt_succ_self level

theorem run_seedLevels (k level : ℕ) (z zeroValue : ℤ) (db : Db)
    (hz : level ≠ 0 → z = zeroHash (pairHash poseidon) zeroValue (level - 1))
    (hz' : level = 0 → z = zeroValue) (hfree : ∀ r ∈ db.treeZeros, r.level < level) :
    (seedLevels poseidon k level z).run db = (.ok (), { db with
      treeZeros := db.treeZeros ++ (List.range' level k).map (zeroRow poseidon zeroValue) }) := by
  induction k generalizing level z db with
  | zero => simp [seedLevels]
  | succ k ih =>
      have hcreate : ∀ s, (MerkleTreeZero.create { level, hash := s }).run db
          = (.ok (), { db with treeZeros := db.treeZeros ++ [{ level, hash := s }] }) :=
        fun s => (run_await _ _).trans (Db.createZero_of_free hfree s)
      rw [seedLevels, seedLevels_hash hz hz', run_bind_of_ok (hcreate _),
        ih (level + 1) _ _ (fun _ => by simp) (by simp) (free_append hfree _)]
      simp [List.range'_succ, zeroRow]

/-- Seeding an empty store gives the chain of zero hashes and touches nothing else. -/
theorem seedZeros_seeded (poseidon : List ℤ → ℤ) (config : IZKServerConfig) :
    ∃ db, (seedZeros poseidon config.zeroValue config.merkleTreeLevels).run {} = (.ok (), db) ∧
      Seeded poseidon config db ∧ db.treeNodes = [] := by
  refine ⟨_, run_seedLevels config.merkleTreeLevels 0 config.zeroValue config.zeroValue {}
    (absurd rfl) (fun _ => rfl) (by simp), ?_, rfl⟩
  simp [Seeded, List.range_eq_range']

/-- The empty tree is at rest. -/
theorem TreeInv.empty (hseeded : Seeded poseidon config db) (hnodes : db.treeNodes = []) :
    TreeInv poseidon config 0 (fun _ => config.zeroValue) stale db := by
  have hno : ∀ {id r}, ¬ db.HasNode id r := by
    intro id r h
    simp [Db.HasNode, hnodes] at h
  refine ⟨⟨?_, ?_, ?_, ?_, ?_⟩, ?_, ?_, Nat.zero_le _, fun _ _ => rfl, hseeded⟩
  · exact fun ⟨_, h, _⟩ => absurd h hno
  · intro l i
    simp only [shape, Nat.not_lt_zero, and_false, false_iff, not_exists]
    exact fun _ ⟨_, h, _⟩ => hno h
  · exact fun h => absurd h hno
  · exact fun h => absurd h hno
  · exact fun h => absurd h hno
  · exact fun _ _ h => absurd h hno
  · simp [Db.getTotalNumberOfLeaves, hnodes]

/-! ## One member -/

/-- Creating the leaf starts the walk. -/
theorem TreeInv.walk (h : TreeInv poseidon config n leaf stale db) {r : IMerkleTreeNode} {v : ℤ}
    (hlevel : r.key.level = 0) (hindex : r.key.index = n) (hlink : r.parent = none)
    (hv : Js.stringToBigInt r.hash = some v) :
    Walk (pairHash poseidon) config.merkleTreeLevels n 0 leaf (Function.update leaf n v) stale
      ⟨db.treeNodes.length, r, r⟩ (db.createNode r) := by
  refine ⟨?_, ?_, Db.hasNode_createNode.mpr (Or.inr ⟨rfl, rfl⟩), rfl, hlevel, by simpa using hindex⟩
  · refine (h.layout.createNode ?_ hlink ?_ ?_ (fun _ _ _ => False.elim) ?_).congr ?_
      (fun _ _ _ => rfl) (fun _ _ _ _ => id)
    · simp [shape, hlevel, hindex]
    · rw [hlevel, hindex, hv]
      simp [walkVal]
    · intro k i hk
      rw [hlevel, hindex] at hk
      rw [walkVal, if_neg]
      rintro ⟨hk0, hi⟩
      obtain rfl : k = 0 := by omega
      exact hk ⟨rfl, by simpa using hi⟩
    · intro _
      exact ⟨hlevel, by simpa using hindex⟩
    · intro k i
      rw [walkOcc, hlevel, hindex, Nat.le_zero]
      refine or_congr_right (and_congr_right ?_)
      rintro rfl
      simp
  · refine h.caches.createNode ?_ ?_ (fun _ _ _ => Or.inl)
    · exact fun _ => Or.inr ⟨hlevel, by simpa using hindex⟩
    · intro k i _ _
      rw [walkSib, if_neg (by omega)]

/-- The walk ends in a tree at rest. -/
theorem Walk.treeInv {v : ℤ} {d : NodeDoc} {db' : Db}
    (hw : Walk (pairHash poseidon) config.merkleTreeLevels n config.merkleTreeLevels leaf
      (Function.update leaf n v) stale d db')
    (hroom : n < 2 ^ config.merkleTreeLevels) (hcount : db'.getTotalNumberOfLeaves = n + 1)
    (hbeyond : ∀ j, n ≤ j → leaf j = config.zeroValue) (hseeded : Seeded poseidon config db') :
    TreeInv poseidon config (n + 1) (Function.update leaf n v) stale db' := by
  refine ⟨hw.layout.congr ?_ ?_ ?_, hw.caches.mono ?_ ?_, hcount, hroom, ?_, hseeded⟩
  · exact fun _ _ => walkOcc_top
  · intro k i hocc
    unfold walkVal
    split
    · rfl
    · next hne =>
        refine (subtree_update_of_ne fun hi => hne ⟨?_, hi⟩).symm
        exact hocc.elim (·.1) (·.1)
  · intro k i _ hlt hp
    exact absurd hp.1 (by omega)
  · intro k i hlt _
    rw [walkSib, if_pos hlt]
  · rintro k i hlt (hs | hp)
    · exact hs
    · exact absurd hp.1 (by omega)
  · intro j hj
    rw [Function.update_of_ne (by omega), hbeyond j (by omega)]

/-- A member whose commitment denotes `v` becomes leaf `n`. -/
theorem TreeInv.appendUser (h : TreeInv poseidon config n leaf stale db) (groupId : String)
    {user : IGroupMember} {v : ℤ} (hroom : n < 2 ^ config.merkleTreeLevels)
    (hv : Js.stringToBigInt user.identityCommitment = some v) :
    ∃ db', (appendUser poseidon config db.treeZeros groupId user).run db = (.ok (), db') ∧
      TreeInv poseidon config (n + 1) (Function.update leaf n v) stale db' ∧
      db'.leafRows = db.leafRows ++
        [({ groupId, level := 0, indexInGroup := user.index, index := n },
          user.identityCommitment)] ∧
      OnlyTree db db' := by
  set r := newLeaf groupId user n
  have hw := h.walk (r := r) rfl rfl rfl hv
  obtain ⟨d', db', hrun, hw'⟩ := hw.appendLevels groupId
    (fun k hk => h.seeded.zero hk) h.beyond config.merkleTreeLevels (Nat.zero_add _)
  rw [pow_zero, Nat.div_one] at hrun
  have hrun' : (UserService.appendUser poseidon config db.treeZeros groupId user).run db
      = (.ok (), db') := (run_appendUser_of_room h.count hroom).trans hrun
  have hrows := appendUser_leafRows poseidon db.treeZeros groupId user (h.count.symm ▸ hroom)
  rw [wp, hrun', h.count] at hrows
  have honly : OnlyTree db
      ((UserService.appendUser poseidon config db.treeZeros groupId user).exec db) :=
    (appendUser_onlyTree _ _ _).exec_onlyTree db
  rw [exec, hrun'] at honly
  have hcount : db'.getTotalNumberOfLeaves = n + 1 := by
    rw [getTotalNumberOfLeaves_eq, hrows, List.length_append, ← getTotalNumberOfLeaves_eq, h.count,
      List.length_singleton]
  exact ⟨db', hrun', hw'.treeInv hroom hcount h.beyond (honly.treeZeros.trans h.seeded), hrows,
    honly⟩

theorem hashPair_eq_ok {a b x : String} (h : hashPair poseidon a b = .ok x) :
    (∃ v, Js.stringToBigInt a = some v) ∧ ∃ v, Js.stringToBigInt b = some v := by
  unfold hashPair Js.bigIntOfText at h
  cases ha : Js.stringToBigInt a with
  | none => simp only [ha] at h; cases h
  | some v =>
      cases hb : Js.stringToBigInt b with
      | none => simp only [ha, hb] at h; cases h
      | some w => exact ⟨⟨v, rfl⟩, ⟨w, rfl⟩⟩

/-- An iteration that returns has hashed the node in hand. -/
theorem appendLevel_numeric (zeros : List IMerkleTreeZero) (groupId : String) (level index : ℕ)
    (d : NodeDoc) (db : Db) : (appendLevel poseidon zeros groupId level index d).wp
      (fun r _ => ∀ d', r = .ok d' → ∃ v, Js.stringToBigInt d.cur.hash = some v) db := by
  unfold appendLevel
  split
  · obtain ⟨e, hrun⟩ | ⟨zero, x, -, hhash⟩ :=
      appendLeft_cases poseidon zeros groupId level index d db
    · refine wp_of_run hrun ?_
      intro _ h
      cases h
    · exact fun _ _ => (hashPair_eq_ok hhash).1
  · obtain ⟨e, hrun⟩ | ⟨s, x, p, -, hhash, -⟩ := appendRight_cases poseidon level index d db
    · refine wp_of_run hrun ?_
      intro _ h
      cases h
    · exact fun _ _ => (hashPair_eq_ok hhash).2

/-- Where there are levels above the leaves, an append that returns had a commitment that `BigInt`
    accepts. -/
theorem appendUser_numeric (poseidon : List ℤ → ℤ) (hlevels : 0 < config.merkleTreeLevels)
    (zeros : List IMerkleTreeZero) (groupId : String) (user : IGroupMember) (db : Db) :
    (UserService.appendUser poseidon config zeros groupId user).wp
      (fun r _ => r = .ok () → ∃ v, Js.stringToBigInt user.identityCommitment = some v) db := by
  obtain ⟨k, hk⟩ := Nat.exists_eq_succ_of_ne_zero hlevels.ne'
  rcases Nat.lt_or_ge db.getTotalNumberOfLeaves (2 ^ config.merkleTreeLevels) with hroom | hfull
  · refine wp_of_run_eq (run_appendUser_of_room rfl hroom) ?_
    rw [hk, appendLevels, wp_bind]
    refine wp_mono (appendLevel_numeric zeros groupId _ _ _ _) ?_
    rintro (e | d) db' hnum
    · intro h
      cases h
    · exact fun _ => hnum d rfl
  · refine wp_of_run (run_appendUser_full hfull) fun h => ?_
    cases h

/-- No room: the append throws and nothing has changed. -/
theorem TreeInv.appendUser_full (h : TreeInv poseidon config n leaf stale db)
    (zeros : List IMerkleTreeZero) (groupId : String) (user : IGroupMember)
    (hfull : 2 ^ config.merkleTreeLevels ≤ n) :
    (UserService.appendUser poseidon config zeros groupId user).run db
      = (.error (.text "The tree is full"), db) := by
  exact run_appendUser_full (hfull.trans_eq h.count.symm)

/-! ## A list of members -/

/-- The commitments that `BigInt` accepts. -/
def IGroupMember.Numeric (user : IGroupMember) : Prop :=
  ∃ v, Js.stringToBigInt user.identityCommitment = some v

instance : DecidablePred IGroupMember.Numeric := fun _ =>
  decidable_of_iff _ Option.isSome_iff_exists

/-- Whatever the outcome of one member, the tree is at rest again. -/
theorem TreeInv.appendMember (h : TreeInv poseidon config n leaf stale db) (groupId : String)
    {user : IGroupMember} (huser : user.Numeric) :
    ∃ r db' n' leaf',
      (UserService.appendMember poseidon config db.treeZeros groupId user).run db = (r, db') ∧
      n ≤ n' ∧ TreeInv poseidon config n' leaf' stale db' ∧ db'.treeZeros = db.treeZeros := by
  unfold UserService.appendMember MerkleTreeNode.findLeafByGroupIdAndIndexInGroup
  simp only [run_query_bind]
  cases db.findLeafByGroupIdAndIndexInGroup groupId user.index with
  | some d => exact ⟨_, db, n, leaf, rfl, le_rfl, h, rfl⟩
  | none =>
      obtain ⟨v, hv⟩ := huser
      rcases Nat.lt_or_ge n (2 ^ config.merkleTreeLevels) with hroom | hfull
      · obtain ⟨db', hrun, h', -, honly⟩ := h.appendUser groupId hroom hv
        exact ⟨_, db', n + 1, _, hrun, Nat.le_succ n, h', honly.treeZeros⟩
      · exact ⟨_, db, n, leaf, h.appendUser_full _ groupId user hfull, le_rfl, h, rfl⟩

theorem TreeInv.appendMembers (groupId : String) {users : List IGroupMember}
    (husers : ∀ user ∈ users, user.Numeric) (h : TreeInv poseidon config n leaf stale db) :
    ∃ n' leaf', n ≤ n' ∧ TreeInv poseidon config n' leaf' stale
      ((UserService.appendMembers poseidon config db.treeZeros groupId users).exec db) := by
  induction users generalizing n leaf db with
  | nil => exact ⟨n, leaf, le_rfl, h⟩
  | cons user users ih =>
      obtain ⟨r, db₁, n₁, leaf₁, hrun, hle, h₁, hzeros⟩ :=
        h.appendMember groupId (husers user (by simp))
      cases r with
      | error e =>
          rw [exec, UserService.appendMembers, run_bind_of_error hrun]
          exact ⟨n₁, leaf₁, hle, h₁⟩
      | ok _ =>
          rw [exec, UserService.appendMembers, run_bind_of_ok hrun, ← hzeros]
          obtain ⟨n', leaf', hle', h'⟩ := ih (fun u hu => husers u (by simp [hu])) h₁
          exact ⟨n', leaf', hle.trans hle', h'⟩

theorem TreeInv.appendUsers (groupId : String) {users : List IGroupMember}
    (husers : ∀ user ∈ users, user.Numeric) (h : TreeInv poseidon config n leaf stale db) :
    ∃ n' leaf', n ≤ n' ∧ TreeInv poseidon config n' leaf' stale
      ((UserService.appendUsers poseidon config users groupId).exec db) := by
  have hsame : ∃ n' leaf', n ≤ n' ∧ TreeInv poseidon config n' leaf' stale db :=
    ⟨n, leaf, le_rfl, h⟩
  show (UserService.appendUsers poseidon config users groupId).wp
    (fun _ db' => ∃ n' leaf', n ≤ n' ∧ TreeInv poseidon config n' leaf' stale db') db
  exact wp_appendUsers (fun _ => hsame) (fun _ => hsame) (h.appendMembers groupId husers)

end ZkChat
