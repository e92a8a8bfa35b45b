import ZkChat.Server.AppendWalk

set_option autoImplicit false

/-! # What the tree operations leave alone

Two frames. Whatever the state, the tree operations write to `treeNodes` only (`OnlyTree`, action
by action, so also when calls interleave). And when nothing interrupts them, the walks to the root
change no leaf: the sequence of leaf keys and leaf hashes (`leafRows`) grows by the appended
leaf, or has the updated leaf's hash replaced, and that is all. -/

namespace ZkChat

/-- Nothing but `treeNodes` differs. -/
def OnlyTree (db db' : Db) : Prop := ∃ nodes, db' = { db with treeNodes := nodes }

theorem OnlyTree.refl (db : Db) : OnlyTree db db := ⟨db.treeNodes, rfl⟩

theorem OnlyTree.trans {a b c : Db} (h : OnlyTree a b) (h' : OnlyTree b c) : OnlyTree a c := by
  obtain ⟨_, rfl⟩ := h
  obtain ⟨m, rfl⟩ := h'
  exact ⟨m, rfl⟩

/-- The key and the hash of a leaf. -/
def leafRow (r : IMerkleTreeNode) : Option (IMerkleTreeNodeKey × String) :=
  if r.key.level = 0 then some (r.key, r.hash) else none

/-- The leaves in insertion order. -/
def Db.leafRows (db : Db) : List (IMerkleTreeNodeKey × String) := db.treeNodes.filterMap leafRow

/-- A leaf has this position of the group. -/
def Db.HasMember (db : Db) (groupId : String) (indexInGroup : ℤ) : Prop :=
  ∃ row ∈ db.leafRows, row.1.groupId = groupId ∧ row.1.indexInGroup = indexInGroup

instance (db : Db) (groupId : String) (i : ℤ) : Decidable (db.HasMember groupId i) :=
  inferInstanceAs (Decidable (∃ row ∈ db.leafRows, _))

section LeafRows

variable {db : Db} {d : NodeDoc}

theorem filterMap_modify {α β : Type} {g : α → Option β} {f : α → α} {l : List α} {i : ℕ}
    (h : ∀ a, l[i]? = some a → g (f a) = g a) : (l.modify i f).filterMap g = l.filterMap g := by
  induction l generalizing i with
  | nil => simp
  | cons a l ih =>
      cases i with
      | zero => simp [List.filterMap_cons, h a (by simp)]
      | succ i =>
          rw [List.modify_succ_cons, List.filterMap_cons, List.filterMap_cons,
            ih (fun b hb => h b (by simpa using hb))]

/-- A save that does not assign the hash changes no leaf. -/
theorem leafRows_saveNode_of_hash (h : d.cur.hash = d.loaded.hash) :
    (db.saveNode d).leafRows = db.leafRows := by
  refine filterMap_modify fun r _ => ?_
  simp [leafRow, NodeDoc.merge, h]

/-- A save of an inner node changes no leaf. -/
theorem leafRows_saveNode_of_hasKey {l i : ℕ} (h : db.HasKey d.id (l + 1) i) :
    (db.saveNode d).leafRows = db.leafRows := by
  refine filterMap_modify fun r hr => ?_
  obtain ⟨s, hs, hl, -⟩ := h
  obtain rfl := hs.unique hr
  simp [leafRow, NodeDoc.merge, hl]

theorem leafRows_saveNode_link (hd : d.loaded = d.cur) (h : String) (p : NodeDoc) :
    (db.saveNode ((d.setSiblingHash h).setParent p)).leafRows = db.leafRows :=
  leafRows_saveNode_of_hash (congrArg (·.hash) hd.symm)

theorem leafRows_saveNode_setSiblingHash (hd : d.loaded = d.cur) (h : String) :
    (db.saveNode (d.setSiblingHash h)).leafRows = db.leafRows :=
  leafRows_saveNode_of_hash (congrArg (·.hash) hd.symm)

theorem leafRows_saveNode_setHash {l i : ℕ} (h : db.HasKey d.id (l + 1) i) (x : String) :
    (db.saveNode (d.setHash x)).leafRows = db.leafRows :=
  leafRows_saveNode_of_hasKey (d := d.setHash x) h

theorem leafRows_createNode (r : IMerkleTreeNode) :
    (db.createNode r).leafRows = db.leafRows ++ (leafRow r).toList := by
  cases h : leafRow r <;> simp [Db.leafRows, Db.createNode, List.filterMap_append, h]

theorem getTotalNumberOfLeaves_eq (db : Db) : db.getTotalNumberOfLeaves = db.leafRows.length := by
  unfold Db.getTotalNumberOfLeaves Db.leafRows
  induction db.treeNodes with
  | nil => rfl
  | cons r l ih =>
      by_cases h : r.key.level = 0
      · rw [List.countP_cons_of_pos (by simpa using h), ih, List.filterMap_cons]
        simp [leafRow, h]
      · rw [List.countP_cons_of_neg (by simpa using h), ih, List.filterMap_cons]
        simp [leafRow, h]

theorem hasKey_of_find {l i : ℕ} (h : db.findByLevelAndIndex l i = some d) : db.HasKey d.id l i := by
  obtain ⟨hnode, -, hl, hi⟩ := Db.findByLevelAndIndex_eq_some h
  exact ⟨d.cur, hnode, hl, hi⟩

theorem mem_leafRows {row : IMerkleTreeNodeKey × String} :
    row ∈ db.leafRows ↔ ∃ n ∈ db.treeNodes, n.key.level = 0 ∧ (n.key, n.hash) = row := by
  simp only [Db.leafRows, List.mem_filterMap, leafRow, Option.ite_none_right_eq_some,
    Option.some.injEq]

/-- A search by position finds nothing exactly when no leaf has the position. -/
theorem findLeafByGroupIdAndIndexInGroup_eq_none {groupId : String} {i : ℤ} :
    db.findLeafByGroupIdAndIndexInGroup groupId i = none ↔ ¬ db.HasMember groupId i := by
  unfold Db.findLeafByGroupIdAndIndexInGroup Db.HasMember
  rw [Collection.findOne_eq_none]
  simp only [decide_eq_false_iff_not, mem_leafRows]
  constructor
  · rintro h ⟨row, ⟨n, hn, hlevel, rfl⟩, hgroup, hi⟩
    exact h n hn ⟨hlevel, hi, hgroup⟩
  · rintro h n hn ⟨hlevel, hi, hgroup⟩
    exact h ⟨(n.key, n.hash), ⟨n, hn, hlevel, rfl⟩, hgroup, hi⟩

end LeafRows

open UserService Prog

variable {poseidon : List ℤ → ℤ} {config : IZKServerConfig}

theorem save_onlyTree (d : NodeDoc) : Within OnlyTree (MerkleTreeNode.save d) :=
  .await fun _ => ⟨_, rfl⟩

theorem create_onlyTree (r : IMerkleTreeNode) : Within OnlyTree (MerkleTreeNode.create r) :=
  .await fun _ => ⟨_, rfl⟩

/-! ## The walks change no leaf -/

@[simp] theorem wp_save {Q : Except Exn NodeDoc → Db → Prop} (d : NodeDoc) (db : Db) :
    (MerkleTreeNode.save d).wp Q db = Q (.ok { d with loaded := d.cur }) (db.saveNode d) := rfl

/-- One iteration keeps the leaves; the document it hands on is as it was saved. -/
theorem appendLevel_leafRows (zeros : List IMerkleTreeZero) (groupId : String) (level index : ℕ)
    (d : NodeDoc) (hd : d.loaded = d.cur) (db : Db) :
    (appendLevel poseidon zeros groupId level index d).wp
      (fun r db' => db'.leafRows = db.leafRows ∧ ∀ d', r = .ok d' → d'.loaded = d'.cur) db := by
  unfold appendLevel
  split
  · obtain ⟨e, hrun⟩ | ⟨zero, x, hzero, hhash⟩ :=
      appendLeft_cases poseidon zeros groupId level index d db
    · exact wp_of_run hrun ⟨rfl, by simp⟩
    · cases hfound : db.findByLevelAndIndex (level + 1) (index / 2) with
      | some p =>
          refine wp_of_run (run_appendLeft_found hzero hhash hfound) ⟨?_, by simp⟩
          rw [leafRows_saveNode_link hd, leafRows_saveNode_setHash (hasKey_of_find hfound)]
      | none =>
          refine wp_of_run (run_appendLeft_created hzero hhash hfound rfl) ⟨?_, by simp⟩
          rw [leafRows_saveNode_link hd, leafRows_createNode]
          simp [leafRow]
  · obtain ⟨e, hrun⟩ | ⟨s, x, p, hs, hhash, hp⟩ := appendRight_cases poseidon level index d db
    · exact wp_of_run hrun ⟨rfl, by simp⟩
    · obtain ⟨-, hssync, -, -⟩ := Db.findByLevelAndIndex_eq_some hs
      refine wp_of_run (run_appendRight hs hhash hp) ⟨?_, by simp⟩
      rw [leafRows_saveNode_setSiblingHash hssync,
        leafRows_saveNode_setHash (Db.hasKey_saveNode.mpr (hasKey_of_find hp)),
        leafRows_saveNode_link hd]

theorem appendLevels_leafRows (poseidon : List ℤ → ℤ) (zeros : List IMerkleTreeZero)
    (groupId : String) (k : ℕ) :
    ∀ (level index : ℕ) (d : NodeDoc), d.loaded = d.cur → ∀ db : Db,
      (appendLevels poseidon zeros groupId k level index d).wp
        (fun _ db' => db'.leafRows = db.leafRows) db := by
  induction k with
  | zero => intro _ _ _ _ _; rfl
  | succ k ih =>
      intro level index d hd db
      rw [appendLevels, wp_bind]
      refine wp_mono (appendLevel_leafRows zeros groupId level index d hd db) ?_
      rintro (e | d') db' ⟨hrows, hd'⟩
      · exact hrows
      · exact wp_mono (ih _ _ d' (hd' d' rfl) db') fun _ _ h => h.trans hrows

/-- The leaf of a new member. -/
def newLeaf (groupId : String) (user : IGroupMember) (n : ℕ) : IMerkleTreeNode where
  key := { index := n, groupId, level := 0, indexInGroup := user.index }
  hash := user.identityCommitment

@[simp] theorem newLeaf_key (groupId : String) (user : IGroupMember) (n : ℕ) :
    (newLeaf groupId user n).key
      = { index := n, groupId, level := 0, indexInGroup := user.index } := rfl

@[simp] theorem newLeaf_hash (groupId : String) (user : IGroupMember) (n : ℕ) :
    (newLeaf groupId user n).hash = user.identityCommitment := rfl

/-- Where there is room, the leaf is created first, and the walk begins with it. -/
theorem run_appendUser_of_room {zeros : List IMerkleTreeZero} {groupId : String}
    {user : IGroupMember} {db : Db} {n : ℕ} (hcount : db.getTotalNumberOfLeaves = n)
    (hroom : n < 2 ^ config.merkleTreeLevels) :
    (appendUser poseidon config zeros groupId user).run db
      = (appendLevels poseidon zeros groupId config.merkleTreeLevels 0 n
          ⟨db.treeNodes.length, newLeaf groupId user n, newLeaf groupId user n⟩).run
            (db.createNode (newLeaf groupId user n)) := by
  unfold appendUser MerkleTreeNode.getTotalNumberOfLeaves
  rw [run_query_bind, hcount, if_neg (Nat.not_le.mpr hroom)]
  exact run_bind_of_ok (run_create (newLeaf groupId user n) db)

/-- Where there is none, the append throws and nothing has changed. -/
theorem run_appendUser_full {zeros : List IMerkleTreeZero} {groupId : String} {user : IGroupMember}
    {db : Db} (hfull : 2 ^ config.merkleTreeLevels ≤ db.getTotalNumberOfLeaves) :
    (appendUser poseidon config zeros groupId user).run db
      = (.error (.text "The tree is full"), db) := by
  unfold appendUser MerkleTreeNode.getTotalNumberOfLeaves
  rw [run_query_bind, if_pos hfull, run_throw]

/-- A new member's leaf comes after the last one, also where the walk to the root fails. -/
theorem appendUser_leafRows (poseidon : List ℤ → ℤ) (zeros : List IMerkleTreeZero)
    (groupId : String) (user : IGroupMember) {db : Db}
    (hroom : db.getTotalNumberOfLeaves < 2 ^ config.merkleTreeLevels) :
    (appendUser poseidon config zeros groupId user).wp (fun _ db' => db'.leafRows = db.leafRows ++
      [({ groupId, level := 0, indexInGroup := user.index, index := db.getTotalNumberOfLeaves },
        user.identityCommitment)]) db := by
  refine wp_of_run_eq (run_appendUser_of_room rfl hroom) ?_
  refine wp_mono (appendLevels_leafRows _ zeros groupId _ _ _ _ rfl _) fun _ _ hrows => ?_
  rw [hrows, leafRows_createNode]
  simp [leafRow]

/-- A member whose position is taken is passed over. -/
theorem run_appendMember_taken {zeros : List IMerkleTreeZero} {groupId : String}
    {user : IGroupMember} {db : Db} (h : db.HasMember groupId user.index) :
    (appendMember poseidon config zeros groupId user).run db = (.ok (), db) := by
  unfold appendMember MerkleTreeNode.findLeafByGroupIdAndIndexInGroup
  rw [run_query_bind]
  cases hfind : db.findLeafByGroupIdAndIndexInGroup groupId user.index with
  | some d => rfl
  | none => exact absurd h (findLeafByGroupIdAndIndexInGroup_eq_none.mp hfind)

theorem run_appendMember_free {zeros : List IMerkleTreeZero} {groupId : String}
    {user : IGroupMember} {db : Db} (h : ¬ db.HasMember groupId user.index) :
    (appendMember poseidon config zeros groupId user).run db
      = (appendUser poseidon config zeros groupId user).run db := by
  unfold appendMember MerkleTreeNode.findLeafByGroupIdAndIndexInGroup
  rw [run_query_bind, findLeafByGroupIdAndIndexInGroup_eq_none.mpr h]

/-- With zero hashes a list that is not empty is appended member by member. -/
theorem run_appendUsers {groupId : String} {users : List IGroupMember} {db : Db} (hne : users ≠ [])
    (hzeros : db.treeZeros ≠ []) : (appendUsers poseidon config users groupId).run db
      = (appendMembers poseidon config db.treeZeros groupId users).run db := by
  unfold appendUsers MerkleTreeZero.findZeros
  rw [if_neg (by simpa using hne), run_query_bind, if_neg (by simpa using hzeros)]

theorem run_appendUsers_unseeded {groupId : String} {users : List IGroupMember} {db : Db}
    (hne : users ≠ []) (hzeros : db.treeZeros = []) :
    (appendUsers poseidon config users groupId).run db
      = (.error (.text "The zero hashes have not yet been created"), db) := by
  unfold appendUsers MerkleTreeZero.findZeros
  rw [if_neg (by simpa using hne), run_query_bind, if_pos (by simpa using hzeros), run_throw]

/-- What holds where nothing has happened, and after the loop over the members, holds after an
    append. -/
theorem wp_appendUsers {Q : Except Exn String → Db → Prop} {users : List IGroupMember}
    {groupId : String} {db : Db} (hnone : users = [] → Q (.ok "") db)
    (hunseeded : ∀ e, Q (.error e) db)
    (hloop : (appendMembers poseidon config db.treeZeros groupId users).wp Q db) :
    (appendUsers poseidon config users groupId).wp Q db := by
  rcases eq_or_ne users [] with hnil | hne
  · subst hnil
    exact hnone rfl
  · by_cases hzeros : db.treeZeros = []
    · exact wp_of_run (run_appendUsers_unseeded hne hzeros) (hunseeded _)
    · exact wp_of_run_eq (run_appendUsers hne hzeros) hloop

/-- With zero hashes a list that is not empty is removed index by index. -/
theorem run_removeUsersByIndexes {groupId : String} {indexes : List ℤ} {db : Db}
    (hne : indexes ≠ []) (hzeros : db.treeZeros ≠ []) :
    (removeUsersByIndexes poseidon config indexes groupId).run db
      = (removeEach poseidon config groupId indexes).run db := by
  unfold removeUsersByIndexes MerkleTreeZero.findZeros
  rw [if_neg (by simpa using hne), run_query_bind, if_neg (by simpa using hzeros)]

theorem run_removeUsersByIndexes_unseeded {groupId : String} {indexes : List ℤ} {db : Db}
    (hne : indexes ≠ []) (hzeros : db.treeZeros = []) :
    (removeUsersByIndexes poseidon config indexes groupId).run db
      = (.error (.text "The zero hashes have not yet been created"), db) := by
  unfold removeUsersByIndexes MerkleTreeZero.findZeros
  rw [if_neg (by simpa using hne), run_query_bind, if_pos (by simpa using hzeros), run_throw]

/-- The same for a removal and the loop over the indexes. -/
theorem wp_removeUsersByIndexes {Q : Except Exn String → Db → Prop} {indexes : List ℤ}
    {groupId : String} {db : Db} (hsame : ∀ r, Q r db)
    (hloop : (removeEach poseidon config groupId indexes).wp Q db) :
    (removeUsersByIndexes poseidon config indexes groupId).wp Q db := by
  rcases eq_or_ne indexes [] with hnil | hne
  · subst hnil
    exact hsame (.ok "")
  · by_cases hzeros : db.treeZeros = []
    · exact wp_of_run (run_removeUsersByIndexes_unseeded hne hzeros) (hsame _)
    · exact wp_of_run_eq (run_removeUsersByIndexes hne hzeros) hloop

/-- What each update of a removal keeps, the removal keeps. -/
theorem wp_removeEach {R : Db → Db → Prop} (hrefl : ∀ db, R db db)
    (htrans : ∀ {a b c}, R a b → R b c → R a c) (hupdate : ∀ (leafHash : String) (db : Db),
      (updateUser poseidon config leafHash).wp (fun _ db' => R db db') db)
    (groupId : String) (indexes : List ℤ) (db : Db) :
    (removeEach poseidon config groupId indexes).wp (fun _ db' => R db db') db := by
  induction indexes generalizing db with
  | nil => exact hrefl db
  | cons index indexes ih =>
      unfold removeEach MerkleTreeNode.findLeafByGroupIdAndIndexInGroup
      rw [wp_bind, wp_query, andThen_ok]
      cases db.findLeafByGroupIdAndIndexInGroup groupId index with
      | none => exact hrefl db
      | some d =>
          simp only [wp_bind]
          refine wp_mono (hupdate d.cur.hash db) ?_
          rintro (e | u) db₁ h
          · exact h
          · exact wp_mono (ih db₁) fun _ _ h' => htrans h h'

/-- What one member of the list does to the leaves: nothing where its position is taken or where
    there is no room, and else it comes after the last leaf. -/
inductive MemberOutcome (groupId : String) (user : IGroupMember) (db : Db) :
    Except Exn Unit → Db → Prop
  | taken (h : db.HasMember groupId user.index) : MemberOutcome groupId user db (.ok ()) db
  | full : MemberOutcome groupId user db (.error (.text "The tree is full")) db
  | added {db' : Db} (r : Except Exn Unit) (hfree : ¬ db.HasMember groupId user.index)
      (hrows : db'.leafRows = db.leafRows ++
        [({ groupId, level := 0, indexInGroup := user.index, index := db.getTotalNumberOfLeaves },
          user.identityCommitment)]) :
      MemberOutcome groupId user db r db'

theorem appendMember_outcome (poseidon : List ℤ → ℤ) (config : IZKServerConfig)
    (zeros : List IMerkleTreeZero) (groupId : String) (user : IGroupMember) (db : Db) :
    (appendMember poseidon config zeros groupId user).wp (MemberOutcome groupId user db) db := by
  unfold appendMember MerkleTreeNode.findLeafByGroupIdAndIndexInGroup
  rw [wp_bind, wp_query, andThen_ok]
  cases hfind : db.findLeafByGroupIdAndIndexInGroup groupId user.index with
  | some d =>
      refine .taken ?_
      by_contra hno
      rw [findLeafByGroupIdAndIndexInGroup_eq_none.mpr hno] at hfind
      cases hfind
  | none =>
      rcases Nat.lt_or_ge db.getTotalNumberOfLeaves (2 ^ config.merkleTreeLevels) with hroom | hfull
      · refine wp_mono (appendUser_leafRows poseidon zeros groupId user hroom) fun r _ hrows => ?_
        exact .added r (findLeafByGroupIdAndIndexInGroup_eq_none.mp hfind) hrows
      · exact wp_of_run (run_appendUser_full hfull) .full

/-- The walk of an update only gives nodes that it finds new hashes. -/
theorem updateParents_invariant {P : Db → Prop}
    (hsave : ∀ (db : Db) (l i : ℕ) (p : NodeDoc) (z : ℤ),
      db.findByLevelAndIndex (l + 1) i = some p → P db →
        P (db.saveNode (p.setHash (Js.bigIntToString z))))
    (fuel : ℕ) : ∀ (node : NodeDoc) (db : Db), P db →
      (updateParents poseidon fuel node).wp (fun _ db' => P db') db := by
  induction fuel with
  | zero =>
      intro node db h
      unfold updateParents
      cases node.cur.parent <;> exact h
  | succ fuel ih =>
      intro node db h
      unfold updateParents
      cases node.cur.parent with
      | none => exact h
      | some pid =>
          simp only [wp_bind, wp_ofExcept]
          cases Js.bigIntOfField node.cur.siblingHash with
          | error e => exact h
          | ok sibling =>
              simp only [andThen_ok, wp_bind, wp_ofExcept]
              cases Js.bigIntOfText node.cur.hash with
              | error e => exact h
              | ok hash =>
                  simp only [andThen_ok, MerkleTreeNode.findByLevelAndIndex, wp_bind, wp_query]
                  cases hp : db.findByLevelAndIndex (node.cur.key.level + 1)
                      (node.cur.key.index / 2) with
                  | none => exact h
                  | some p =>
                      simp only [wp_bind, wp_save, andThen_ok]
                      exact ih _ _ (hsave _ _ _ _ _ hp h)

theorem updateParents_leafRows (fuel : ℕ) (node : NodeDoc) (db : Db) :
    (updateParents poseidon fuel node).wp (fun _ db' => db'.leafRows = db.leafRows) db := by
  refine updateParents_invariant (P := fun db' => db'.leafRows = db.leafRows) ?_ fuel node db rfl
  intro db' l i p z hp h
  rw [leafRows_saveNode_setHash (hasKey_of_find hp), h]

/-! ## The operations write to the tree only -/

theorem appendLevel_onlyTree (zeros : List IMerkleTreeZero) (groupId : String) (level index : ℕ)
    (d : NodeDoc) : Within OnlyTree (appendLevel poseidon zeros groupId level index d) := by
  unfold appendLevel
  split
  · unfold appendLeft
    split
    · exact .raise _
    · refine .bind (.query OnlyTree.refl _) fun found => .bind (.ofExcept _) fun hash => ?_
      cases found with
      | some p => exact .bind (save_onlyTree _) fun p => .bind (save_onlyTree _) fun _ => .ret p
      | none => exact .bind (create_onlyTree _) fun p => .bind (save_onlyTree _) fun _ => .ret p
  · unfold appendRight
    refine .bind (.query OnlyTree.refl _) fun sibling => ?_
    cases sibling with
    | none => exact .raise _
    | some s =>
        refine .bind (.query OnlyTree.refl _) fun found => .bind (.ofExcept _) fun hash => ?_
        cases found with
        | none => exact .raise _
        | some p =>
            exact .bind (save_onlyTree _) fun _ => .bind (save_onlyTree _) fun p =>
              .bind (save_onlyTree _) fun _ => .ret p

theorem appendLevels_onlyTree (poseidon : List ℤ → ℤ) (zeros : List IMerkleTreeZero)
    (groupId : String) (k level index : ℕ) (d : NodeDoc) :
    Within OnlyTree (appendLevels poseidon zeros groupId k level index d) := by
  induction k generalizing level index d with
  | zero => exact .ret ()
  | succ k ih =>
      exact .bind (appendLevel_onlyTree zeros groupId level index d) fun d' => ih _ _ d'

theorem appendUser_onlyTree (zeros : List IMerkleTreeZero) (groupId : String)
    (user : IGroupMember) : Within OnlyTree (appendUser poseidon config zeros groupId user) := by
  refine .bind (.query OnlyTree.refl _) fun n => ?_
  split
  · exact .raise _
  · exact .bind (create_onlyTree _) fun d => appendLevels_onlyTree ..

theorem appendMember_onlyTree (zeros : List IMerkleTreeZero) (groupId : String)
    (user : IGroupMember) : Within OnlyTree (appendMember poseidon config zeros groupId user) := by
  refine .bind (.query OnlyTree.refl _) fun found => ?_
  cases found with
  | some _ => exact .ret ()
  | none => exact appendUser_onlyTree zeros groupId user

theorem appendMembers_onlyTree (zeros : List IMerkleTreeZero) (groupId : String)
    (users : List IGroupMember) :
    Within OnlyTree (appendMembers poseidon config zeros groupId users) := by
  induction users with
  | nil => exact .ret _
  | cons user users ih => exact .bind (appendMember_onlyTree zeros groupId user) fun _ => ih

theorem appendUsers_onlyTree (users : List IGroupMember) (groupId : String) :
    Within OnlyTree (appendUsers poseidon config users groupId) := by
  unfold appendUsers
  split
  · exact .ret _
  · refine .bind (.query OnlyTree.refl _) fun zeros => ?_
    split
    · exact .raise _
    · exact appendMembers_onlyTree zeros groupId users

theorem updateParents_onlyTree (fuel : ℕ) (node : NodeDoc) :
    Within OnlyTree (updateParents poseidon fuel node) := by
  induction fuel generalizing node with
  | zero =>
      unfold updateParents
      cases node.cur.parent with
      | none => exact .ret ()
      | some _ => exact .raise _
  | succ fuel ih =>
      unfold updateParents
      cases node.cur.parent with
      | none => exact .ret ()
      | some _ =>
          refine .bind (.ofExcept _) fun sibling => .bind (.ofExcept _) fun hash => ?_
          refine .bind (.query OnlyTree.refl _) fun found => ?_
          cases found with
          | none => exact .raise _
          | some p => exact .bind (save_onlyTree _) fun p => ih p

theorem updateUser_onlyTree (poseidon : List ℤ → ℤ) (config : IZKServerConfig)
    (leafHash newValue : String) :
    Within OnlyTree (updateUser poseidon config leafHash newValue) := by
  refine .bind (.query OnlyTree.refl _) fun found => ?_
  cases found with
  | none => exact .raise _
  | some d => exact .bind (save_onlyTree _) fun d => updateParents_onlyTree _ d

theorem removeEach_onlyTree (groupId : String) (indexes : List ℤ) :
    Within OnlyTree (removeEach poseidon config groupId indexes) := by
  induction indexes with
  | nil => exact .ret _
  | cons index indexes ih =>
      refine .bind (.query OnlyTree.refl _) fun found => ?_
      cases found with
      | none => exact .raise _
      | some d => exact .bind (updateUser_onlyTree _ _ _ _) fun _ => ih

theorem removeUsersByIndexes_onlyTree (indexes : List ℤ) (groupId : String) :
    Within OnlyTree (removeUsersByIndexes poseidon config indexes groupId) := by
  unfold removeUsersByIndexes
  split
  · exact .ret _
  · refine .bind (.query OnlyTree.refl _) fun zeros => ?_
    split
    · exact .raise _
    · exact removeEach_onlyTree groupId indexes

/-- An uninterrupted run of a program within `OnlyTree` leaves everything else as it was. -/
theorem Prog.Within.exec_onlyTree {α : Type} {p : Server α} (hp : Within OnlyTree p) (db : Db) :
    OnlyTree db (p.exec db) :=
  hp.exec OnlyTree.refl (fun _ _ _ => OnlyTree.trans) db

theorem OnlyTree.treeZeros {db db' : Db} (h : OnlyTree db db') : db'.treeZeros = db.treeZeros := by
  obtain ⟨_, rfl⟩ := h
  rfl

end ZkChat
