import ZkChat.Server.RootRefinement

set_option autoImplicit false

/-! # Appending a list of members

Of a list of members, `appendUsers` appends the first occurrence of each index that the group does
not have yet (`run_appendMembers`). On a tree at rest these become the leaves after the last one, as
far as there is room (`TreeInv.appendNewMembers`), and a second call finds nothing new
(`appendUsers_exact`).

The leaf is created before its commitment is hashed for the first time. So a commitment that `BigInt`
rejects leaves a leaf without a parent, which counts as a leaf and as a root from then on
(`TreeInv.appendNew_malformed`); every other exception leaves the tree as good as it was
(`failed_append_safe_iff`). -/

namespace ZkChat

open HashTree Prog UserService

/-! ## The new members of a list -/

/-- The first occurrence of each index that is not taken yet, in the order of the list. -/
def newMembers : List ℤ → List IGroupMember → List IGroupMember
  | _, [] => []
  | taken, user :: users =>
      if user.index ∈ taken then newMembers taken users
      else user :: newMembers (taken ++ [user.index]) users

/-- The positions of a group that have a leaf, in insertion order. -/
def Db.groupIndexes (groupId : String) (db : Db) : List ℤ :=
  (db.leafRows.filter fun row => row.1.groupId = groupId).map fun row => row.1.indexInGroup

/-- The leaves of new members, from the tree index `n` on. -/
def newRows (groupId : String) : ℕ → List IGroupMember → List (IMerkleTreeNodeKey × String)
  | _, [] => []
  | n, user :: users =>
      ({ groupId, level := 0, indexInGroup := user.index, index := n }, user.identityCommitment) ::
        newRows groupId (n + 1) users

theorem newMembers_sublist (taken : List ℤ) (users : List IGroupMember) :
    (newMembers taken users).Sublist users := by
  induction users generalizing taken with
  | nil => exact List.Sublist.refl []
  | cons user users ih =>
      unfold newMembers
      split
      · exact (ih taken).cons user
      · exact (ih _).cons_cons user

/-- Every index of the list is taken, or is the index of a new member. -/
theorem index_mem_newMembers {taken : List ℤ} {users : List IGroupMember} {user : IGroupMember}
    (h : user ∈ users) : user.index ∈ taken ++ (newMembers taken users).map (·.index) := by
  induction users generalizing taken with
  | nil => simp at h
  | cons v users ih =>
      unfold newMembers
      rcases List.mem_cons.mp h with rfl | h
      · split
        · next htaken => exact List.mem_append_left _ htaken
        · simp
      · split
        · exact ih h
        · have := @ih (taken ++ [v.index]) h
          simpa using this

theorem newMembers_eq_nil {taken : List ℤ} {users : List IGroupMember}
    (h : ∀ user ∈ users, user.index ∈ taken) : newMembers taken users = [] := by
  induction users with
  | nil => rfl
  | cons user users ih =>
      rw [newMembers, if_pos (h user (by simp)), ih fun u hu => h u (by simp [hu])]

theorem hasMember_iff {db : Db} {groupId : String} {i : ℤ} :
    db.HasMember groupId i ↔ i ∈ db.groupIndexes groupId := by
  simp only [Db.HasMember, Db.groupIndexes, List.mem_map, List.mem_filter, decide_eq_true_eq,
    and_assoc]

@[simp] theorem groupIndexes_newRows (groupId : String) (n : ℕ) (users : List IGroupMember) :
    ((newRows groupId n users).filter fun row => row.1.groupId = groupId).map
      (fun row => row.1.indexInGroup) = users.map (·.index) := by
  induction users generalizing n with
  | nil => rfl
  | cons user users ih => simp [newRows, ih]

theorem groupIndexes_of_leafRows {db db' : Db} {groupId : String} {n : ℕ}
    {users : List IGroupMember} (h : db'.leafRows = db.leafRows ++ newRows groupId n users) :
    db'.groupIndexes groupId = db.groupIndexes groupId ++ users.map (·.index) := by
  rw [Db.groupIndexes, h, List.filter_append, List.map_append, groupIndexes_newRows]
  rfl

/-! ## The loop without its lookups -/

section

variable (poseidon : List ℤ → ℤ) (config : IZKServerConfig)

/-- `appendMembers` for members that are known to be new. -/
def appendNew (zeros : List IMerkleTreeZero) (groupId : String) :
    List IGroupMember → Server String
  | [] => pure "Done"
  | user :: users => do
      appendUser poseidon config zeros groupId user
      appendNew zeros groupId users

end

variable {poseidon : List ℤ → ℤ} {config : IZKServerConfig} {n : ℕ} {leaf : ℕ → ℤ}
  {stale : ℕ → ℕ → Prop} {db : Db}

/-- An appended member takes its position in the group. -/
theorem appendUser_groupIndexes (poseidon : List ℤ → ℤ) (config : IZKServerConfig)
    (zeros : List IMerkleTreeZero) (groupId : String) (user : IGroupMember) (db : Db) :
    (appendUser poseidon config zeros groupId user).wp (fun r db' => r = .ok () →
      db'.groupIndexes groupId = db.groupIndexes groupId ++ [user.index]) db := by
  rcases Nat.lt_or_ge db.getTotalNumberOfLeaves (2 ^ config.merkleTreeLevels) with hroom | hfull
  · refine wp_mono (appendUser_leafRows poseidon zeros groupId user hroom) fun _ _ hrows _ => ?_
    exact groupIndexes_of_leafRows (show _ = _ ++ newRows _ _ [user] from hrows)
  · refine wp_of_run (run_appendUser_full hfull) fun h => ?_
    cases h

/-- Only the new members of the list matter. -/
theorem run_appendMembers (zeros : List IMerkleTreeZero) (groupId : String)
    (users : List IGroupMember) (db : Db) :
    (appendMembers poseidon config zeros groupId users).run db
      = (appendNew poseidon config zeros groupId
          (newMembers (db.groupIndexes groupId) users)).run db := by
  induction users generalizing db with
  | nil => rfl
  | cons user users ih =>
      unfold appendMembers newMembers
      split
      · next htaken =>
          rw [run_bind_of_ok (run_appendMember_taken (hasMember_iff.mpr htaken)), ih]
      · next hfree =>
          have hindexes := appendUser_groupIndexes poseidon config zeros groupId user db
          have hmember : (appendMember poseidon config zeros groupId user).run db
              = (appendUser poseidon config zeros groupId user).run db :=
            run_appendMember_free (mt hasMember_iff.mp hfree)
          rw [wp] at hindexes
          rw [appendNew, run_bind, run_bind, hmember]
          cases hrun : (appendUser poseidon config zeros groupId user).run db with
          | mk r db₁ =>
              rw [hrun] at hindexes
              cases r with
              | error e => rfl
              | ok _ =>
                  rw [← hindexes rfl]
                  exact ih db₁

/-! ## On a tree at rest -/

theorem hashPair_error_left {a b : String} (ha : Js.stringToBigInt a = none) :
    hashPair poseidon a b = .error .syntaxError := by
  simp only [hashPair, Js.bigIntOfText, ha]
  rfl

theorem hashPair_error_right {a b : String} {v : ℤ} (ha : Js.stringToBigInt a = some v)
    (hb : Js.stringToBigInt b = none) : hashPair poseidon a b = .error .syntaxError := by
  simp only [hashPair, Js.bigIntOfText, ha, hb]
  rfl

/-- Beside a new leaf at an odd index its sibling is still found. -/
theorem TreeInv.find_sibling_createNode (h : TreeInv poseidon config n leaf stale db)
    {r : IMerkleTreeNode} (hodd : ¬ n % 2 = 0) (hindex : r.key.index = n) :
    ∃ d, (db.createNode r).findByLevelAndIndex 0 (n - 1) = some d ∧
      ∃ v, Js.stringToBigInt d.cur.hash = some v := by
  obtain ⟨id, hid⟩ := (h.layout.occupied 0 (n - 1)).mp ⟨Nat.zero_le _, by omega⟩
  obtain ⟨d, hd⟩ := Db.findByLevelAndIndex_isSome (hid.createNode (r := r))
  obtain ⟨hnode, -, -, hi⟩ := Db.findByLevelAndIndex_eq_some hd
  rcases Db.hasNode_createNode.mp hnode with hnode | ⟨-, hr⟩
  · exact ⟨d, hd, _, h.layout.hash hnode⟩
  · rw [hr, hindex] at hi
    omega

/-- With well-formed commitments the new members extend the tree until it is full. -/
theorem TreeInv.appendNewMembers (h : TreeInv poseidon config n leaf stale db) (groupId : String)
    {new : List IGroupMember}
    (hnum : ∀ user ∈ new.take (2 ^ config.merkleTreeLevels - n), user.Numeric) :
    ∃ leaf' db', (appendNew poseidon config db.treeZeros groupId new).run db
        = (if n + new.length ≤ 2 ^ config.merkleTreeLevels then .ok "Done"
            else .error (.text "The tree is full"), db') ∧
      TreeInv poseidon config (n + (new.take (2 ^ config.merkleTreeLevels - n)).length) leaf' stale
        db' ∧
      db'.leafRows = db.leafRows ++
        newRows groupId n (new.take (2 ^ config.merkleTreeLevels - n)) := by
  induction new generalizing n leaf db with
  | nil =>
      refine ⟨leaf, db, ?_, by simpa using h, by simp [newRows]⟩
      rw [if_pos (by simpa using h.room)]
      rfl
  | cons user new ih =>
      rcases h.room.lt_or_eq with hroom | hfull
      · obtain ⟨k, hk⟩ : ∃ k, 2 ^ config.merkleTreeLevels - n = k + 1 :=
          ⟨_, (Nat.sub_one_add_one (Nat.sub_ne_zero_of_lt hroom)).symm⟩
        have hk' : 2 ^ config.merkleTreeLevels - (n + 1) = k := by omega
        rw [hk, List.take_succ_cons] at hnum ⊢
        obtain ⟨v, hv⟩ := hnum user (by simp)
        obtain ⟨db₁, hrun, h₁, hrows, honly⟩ := h.appendUser groupId hroom hv
        obtain ⟨leaf', db', hrest, h', hrows'⟩ :=
          ih h₁ (by rw [hk']; exact fun u hu => hnum u (by simp [hu]))
        rw [hk'] at h' hrows'
        refine ⟨leaf', db', ?_, ?_, ?_⟩
        · rw [appendNew, run_bind_of_ok hrun, ← honly.treeZeros, hrest, List.length_cons,
            Nat.add_right_comm, Nat.add_assoc]
        · rwa [List.length_cons, Nat.add_comm _ 1, ← Nat.add_assoc]
        · rw [hrows', hrows, List.append_assoc]
          rfl
      · refine ⟨leaf, db, ?_, by simpa [hfull] using h, by simp [hfull, newRows]⟩
        rw [appendNew, run_bind_of_error (h.appendUser_full _ groupId user hfull.ge),
          if_neg (by rw [List.length_cons]; omega)]

/-- A malformed commitment throws in the first hash, when its leaf is already there. -/
theorem TreeInv.appendUser_malformed (h : TreeInv poseidon config n leaf stale db)
    (hlevels : 0 < config.merkleTreeLevels) (groupId : String) {user : IGroupMember}
    (hroom : n < 2 ^ config.merkleTreeLevels) (huser : ¬ user.Numeric) :
    (UserService.appendUser poseidon config db.treeZeros groupId user).run db
      = (.error .syntaxError, db.createNode
          { key := { index := n, groupId, level := 0, indexInGroup := user.index }
            hash := user.identityCommitment }) := by
  have hnone : Js.stringToBigInt user.identityCommitment = none := by
    rw [Option.eq_none_iff_forall_ne_some]
    exact fun v hv => huser ⟨v, hv⟩
  obtain ⟨k, hk⟩ := Nat.exists_eq_succ_of_ne_zero hlevels.ne'
  set r := newLeaf groupId user n
  have hlevel : (appendLevel poseidon db.treeZeros groupId 0 n ⟨db.treeNodes.length, r, r⟩).run
      (db.createNode r) = (.error .syntaxError, db.createNode r) := by
    unfold appendLevel
    split
    · obtain ⟨zero, hzero, -⟩ := h.seeded.zero hlevels
      exact run_appendLeft_error hzero (hashPair_error_left hnone)
    · next hodd =>
        obtain ⟨s, hs, v, hv⟩ := h.find_sibling_createNode (r := r) hodd rfl
        exact run_appendRight_error hs (hashPair_error_right hv hnone)
  rw [run_appendUser_of_room h.count hroom, hk]
  exact run_bind_of_error hlevel

/-- Among the new members that there is room for, the first malformed one ends the append with a leaf
    that has no parent. -/
theorem TreeInv.appendNewMembers_malformed (h : TreeInv poseidon config n leaf stale db)
    (hlevels : 0 < config.merkleTreeLevels) (groupId : String) {new : List IGroupMember}
    (hbad : ¬ ∀ user ∈ new.take (2 ^ config.merkleTreeLevels - n), user.Numeric) :
    ∃ db' id r, (appendNew poseidon config db.treeZeros groupId new).run db
        = (.error .syntaxError, db') ∧
      db'.HasNode id r ∧ r.key.level = 0 ∧ r.parent = none := by
  induction new generalizing n leaf db with
  | nil => simp at hbad
  | cons user new ih =>
      rcases h.room.lt_or_eq with hroom | hfull
      · by_cases huser : user.Numeric
        · obtain ⟨v, hv⟩ := huser
          obtain ⟨db₁, hrun, h₁, -, honly⟩ := h.appendUser groupId hroom hv
          obtain ⟨db', id, r, hrest, horphan⟩ := ih h₁ (by
            intro hall
            rw [show 2 ^ config.merkleTreeLevels - n
              = 2 ^ config.merkleTreeLevels - (n + 1) + 1 by omega, List.take_succ_cons] at hbad
            exact hbad (List.forall_mem_cons.mpr ⟨⟨v, hv⟩, hall⟩))
          refine ⟨db', id, r, ?_, horphan⟩
          rw [appendNew, run_bind_of_ok hrun, ← honly.treeZeros, hrest]
        · have hthrow := h.appendUser_malformed hlevels groupId hroom huser
          exact ⟨_, _, _, run_bind_of_error hthrow,
            Db.hasNode_createNode.mpr (Or.inr ⟨rfl, rfl⟩), rfl, rfl⟩
      · simp [hfull] at hbad

/-! ## The whole list -/

/-- `appendUsers` on a seeded store: the outcome of the list is that of its new members. -/
theorem run_appendUsers_new {groupId : String} {users : List IGroupMember} (hne : users ≠ [])
    (hzeros : db.treeZeros ≠ []) : (appendUsers poseidon config users groupId).run db
      = (appendNew poseidon config db.treeZeros groupId
          (newMembers (db.groupIndexes groupId) users)).run db := by
  rw [run_appendUsers hne hzeros, run_appendMembers]

/-- The tree has one leaf more for each new member, in list order; the old leaves and all that makes
    it a tree stay, and a second call changes nothing. -/
theorem appendUsers_exact (h : TreeInv poseidon config n leaf (fun _ _ => False) db)
    (hzeros : db.treeZeros ≠ []) (groupId : String) {users : List IGroupMember}
    (husers : ∀ user ∈ users, user.Numeric)
    (hroom : n + (newMembers (db.groupIndexes groupId) users).length
      ≤ 2 ^ config.merkleTreeLevels) :
    ∃ r db' leaf', (appendUsers poseidon config users groupId).run db = (.ok r, db') ∧
      db'.leafRows
        = db.leafRows ++ newRows groupId n (newMembers (db.groupIndexes groupId) users) ∧
      TreeInv poseidon config (n + (newMembers (db.groupIndexes groupId) users).length) leaf'
        (fun _ _ => False) db' ∧
      (0 < n + (newMembers (db.groupIndexes groupId) users).length → ∃ s,
        getRoot.run db' = (.ok s, db') ∧
        Js.stringToBigInt s = some (root (pairHash poseidon) leaf' config.merkleTreeLevels)) ∧
      (appendUsers poseidon config users groupId).run db' = (.ok r, db') := by
  set new := newMembers (db.groupIndexes groupId) users with hnew
  rcases eq_or_ne users [] with rfl | hne
  · exact ⟨"", db, leaf, rfl, by simp [hnew, newMembers, newRows], h, h.getRoot, rfl⟩
  · have htake : new.take (2 ^ config.merkleTreeLevels - n) = new :=
      List.take_of_length_le (by omega)
    have hnumeric : ∀ user ∈ new.take (2 ^ config.merkleTreeLevels - n), user.Numeric :=
      fun user hu => husers user ((newMembers_sublist _ _).subset (List.mem_of_mem_take hu))
    obtain ⟨leaf', db', hrun, h', hrows⟩ := h.appendNewMembers groupId hnumeric
    rw [if_pos hroom] at hrun
    rw [htake] at h' hrows
    refine ⟨"Done", db', leaf', ?_, hrows, h', h'.getRoot, ?_⟩
    · rw [run_appendUsers_new hne hzeros, hrun]
    · -- every index of the list is one of the group's now
      have hseeded : db'.treeZeros ≠ [] := by rwa [h'.seeded, ← h.seeded]
      rw [run_appendUsers_new hne hseeded, groupIndexes_of_leafRows hrows,
        newMembers_eq_nil fun user hu => index_mem_newMembers hu]
      rfl

/-! ## When an append throws -/

/-- The parents lead from a node upwards, one level at a time, for `k` levels and no further. -/
def Db.HasChain (db : Db) : ℕ → IMerkleTreeNode → Prop
  | 0, r => r.parent = none
  | k + 1, r => ∃ pid p, r.parent = some pid ∧ db.HasNode pid p ∧ p.key.level = r.key.level + 1 ∧
      p.key.index = r.key.index / 2 ∧ db.HasChain k p

/-- Every leaf has its chain of parents; the node that counts as the root is the one at the top, and
    its hash is the root over the stored leaves. -/
structure Db.Undamaged (poseidon : List ℤ → ℤ) (config : IZKServerConfig) (db : Db) : Prop where
  chain : ∀ id r, db.HasNode id r → r.key.level = 0 → db.HasChain config.merkleTreeLevels r
  top : 0 < db.getTotalNumberOfLeaves →
    ∃ d, db.findRoot = some d ∧ d.cur.key.level = config.merkleTreeLevels
  root : 0 < db.getTotalNumberOfLeaves → db.RootAgrees poseidon config

/-- `user'` is `user` with a well-formed commitment, another one only where it was malformed. -/
def Corrected (user user' : IGroupMember) : Prop :=
  user'.index = user.index ∧ user'.Numeric ∧ (user.Numeric → user' = user)

/-- If the append throws, the store is undamaged; and if a malformed commitment was the cause, the
    corrected list can be appended afterwards and gives the corrected members their leaves. -/
def FailsSafely (poseidon : List ℤ → ℤ) (config : IZKServerConfig) (users : List IGroupMember)
    (groupId : String) (db : Db) : Prop :=
  ∀ e db', (appendUsers poseidon config users groupId).run db = (.error e, db') →
    db'.Undamaged poseidon config ∧
    (e = .syntaxError → ∀ users', List.Forall₂ Corrected users users' → ∃ r db'',
      (appendUsers poseidon config users' groupId).run db' = (.ok r, db'') ∧
      ∀ p ∈ users.zip users', ¬ p.1.Numeric → ∃ row ∈ db''.leafRows,
        row.1.groupId = groupId ∧ row.1.indexInGroup = p.2.index ∧ row.2 = p.2.identityCommitment)

theorem TreeInv.hasChain (h : TreeInv poseidon config n leaf stale db) {k : ℕ} {id : ℕ}
    {r : IMerkleTreeNode} (hr : db.HasNode id r) (hk : r.key.level + k = config.merkleTreeLevels) :
    db.HasChain k r := by
  induction k generalizing id r with
  | zero => exact h.layout.top hr (by omega)
  | succ k ih =>
      obtain ⟨pid, hpid, p, hp, hlevel, hindex⟩ := h.layout.parent hr (by omega) not_false
      exact ⟨pid, p, hpid, hp, hlevel, hindex, ih hp (by omega)⟩

theorem TreeInv.undamaged (h : TreeInv poseidon config n leaf stale db) :
    db.Undamaged poseidon config := by
  refine ⟨fun id r hr hlevel => h.hasChain hr (by omega), fun hleaf => ?_, fun hleaf => ?_⟩
  · obtain ⟨d, hfind, -, hlevel, -⟩ := h.findRoot (h.count ▸ hleaf)
    exact ⟨d, hfind, hlevel⟩
  · exact h.rootAgrees (h.count ▸ hleaf)

/-- Above a leaf without a parent there is no chain. -/
theorem not_undamaged_of_orphan (hlevels : 0 < config.merkleTreeLevels) {id : ℕ}
    {r : IMerkleTreeNode} (hr : db.HasNode id r) (hlevel : r.key.level = 0)
    (hparent : r.parent = none) : ¬ db.Undamaged poseidon config := by
  intro h
  have hchain := h.chain id r hr hlevel
  rw [← Nat.sub_one_add_one hlevels.ne'] at hchain
  obtain ⟨pid, -, hpid, -⟩ := hchain
  rw [hparent] at hpid
  cases hpid

/-- An append that throws does no damage exactly when none of the new members that there is room for
    has a malformed commitment. -/
theorem failed_append_safe_iff (h : TreeInv poseidon config n leaf stale db)
    (users : List IGroupMember) (groupId : String) :
    FailsSafely poseidon config users groupId db ↔
      (0 < config.merkleTreeLevels → ∀ user ∈ (newMembers (db.groupIndexes groupId) users).take
        (2 ^ config.merkleTreeLevels - n), user.Numeric) := by
  rcases eq_or_ne users [] with rfl | hne
  · exact iff_of_true (fun e db' hrun => nomatch (Prod.mk.inj hrun).1)
      fun _ user hu => absurd hu (by simp [newMembers])
  have hlength : db.treeZeros.length = config.merkleTreeLevels := by
    rw [h.seeded, List.length_map, List.length_range]
  rcases Nat.eq_zero_or_pos config.merkleTreeLevels with hzero | hlevels
  · -- without levels there are no zero hashes, and nothing is appended
    refine iff_of_true (fun e db' hrun => ?_) fun hlevels => absurd hlevels (by omega)
    rw [run_appendUsers_unseeded hne (List.length_eq_zero_iff.mp (hlength.trans hzero))] at hrun
    obtain ⟨he, rfl⟩ := Prod.mk.inj hrun
    exact ⟨h.undamaged, fun hthrown => by rw [hthrown] at he; cases he⟩
  · have hzeros : db.treeZeros ≠ [] := List.length_pos_iff.mp (hlength ▸ hlevels)
    rw [forall_prop_of_true hlevels]
    constructor
    · intro hsafe
      by_contra hbad
      obtain ⟨db', id, r, hrun, hr, hlevel, hparent⟩ :=
        h.appendNewMembers_malformed hlevels groupId hbad
      rw [← run_appendUsers_new hne hzeros] at hrun
      exact not_undamaged_of_orphan hlevels hr hlevel hparent (hsafe _ _ hrun).1
    · intro hnum e db' hrun
      obtain ⟨leaf', db₁, hrun', h', -⟩ := h.appendNewMembers groupId hnum
      rw [run_appendUsers_new hne hzeros, hrun'] at hrun
      obtain ⟨he, rfl⟩ := Prod.mk.inj hrun
      refine ⟨h'.undamaged, fun hthrown => ?_⟩
      rw [hthrown] at he
      split at he <;> cases he

/-! ## Lists of three members -/

namespace Demo

theorem treeInv_seededStore :
    TreeInv sumHash twoLevels 0 (fun _ => 0) (fun _ _ => False) seededStore :=
  .empty rfl rfl

/-- The third member has the index of the first one. -/
def repeatedIndex : List IGroupMember := [⟨0, "1"⟩, ⟨1, "2"⟩, ⟨0, "3"⟩]

/-- The commitment of the second member is no number. -/
def malformedSecond : List IGroupMember := [⟨0, "1"⟩, ⟨1, "x"⟩, ⟨2, "3"⟩]

/-- More members than a tree of two levels has leaves. -/
def fiveMembers : List IGroupMember := [⟨0, "1"⟩, ⟨1, "2"⟩, ⟨2, "3"⟩, ⟨3, "4"⟩, ⟨4, "5"⟩]

end Demo

theorem repeated_index_is_appended_once : ∃ r db',
    (appendUsers sumHash twoLevels Demo.repeatedIndex "g").run seededStore = (.ok r, db') ∧
    db'.leafRows.map (·.2) = ["1", "2"] ∧
    (appendUsers sumHash twoLevels Demo.repeatedIndex "g").run db' = (.ok r, db') := by
  have hnumeric : ∀ user ∈ Demo.repeatedIndex, user.Numeric := by decide +kernel
  obtain ⟨r, db', -, hrun, hrows, -, -, hagain⟩ := appendUsers_exact Demo.treeInv_seededStore
    (by decide +kernel) "g" hnumeric (by decide +kernel)
  refine ⟨r, db', hrun, ?_, hagain⟩
  rw [hrows]
  decide +kernel

/-- The leaf of the malformed commitment is left without a parent. -/
theorem malformed_commitment_does_damage :
    ¬ ∀ (poseidon : List ℤ → ℤ) (config : IZKServerConfig) (n : ℕ) (leaf : ℕ → ℤ) (db : Db),
      TreeInv poseidon config n leaf (fun _ _ => False) db →
        ∀ users groupId, FailsSafely poseidon config users groupId db := by
  intro h
  have hsafe := h _ _ _ _ _ Demo.treeInv_seededStore Demo.malformedSecond "g"
  have hbad : ¬ ∀ user ∈ Demo.malformedSecond.take (2 ^ twoLevels.merkleTreeLevels - 0),
      user.Numeric := by
    decide +kernel
  obtain ⟨db', id, r, hrun, hr, hlevel, hparent⟩ :=
    Demo.treeInv_seededStore.appendNewMembers_malformed (by decide) "g" hbad
  have hthrow : (appendUsers sumHash twoLevels Demo.malformedSecond "g").run seededStore
      = (.error .syntaxError, db') := by
    rw [run_appendUsers_new (by decide) (by decide +kernel), ← hrun]
    rfl
  exact not_undamaged_of_orphan (by decide) hr hlevel hparent (hsafe _ _ hthrow).1

/-- The list that does not fit throws and leaves a full tree. -/
theorem full_tree_is_undamaged :
    FailsSafely sumHash twoLevels Demo.fiveMembers "g" seededStore :=
  (failed_append_safe_iff Demo.treeInv_seededStore Demo.fiveMembers "g").mpr
    fun _ => by decide +kernel

end ZkChat
