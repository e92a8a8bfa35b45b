import ZkChat.Lib.Clearing
import ZkChat.Server.TreeShape

set_option autoImplicit false

/-! # What a removal clears

`removeUsersByIndexes` finds a leaf by its position in a group, takes the hash, and has `updateUser`
clear the first leaf with that hash: the two look-ups of a `Table` (`removeEach_leafRows`). The walk
to the root that follows never throws, in whatever state appends, bans and removals have left the
hashes, since the links and the cached sibling hashes are always written together
(`Db.Linked`). So what is cleared is known exactly (`removal_exact_iff`). -/

namespace ZkChat

open Prog UserService

/-! ## Links -/

/-- A node that is linked has a place to go to and a sibling hash to go with. -/
def Db.Linked (levels : ℕ) (db : Db) : Prop :=
  ∀ id r, db.HasNode id r → r.parent ≠ none → r.key.level < levels ∧
    (∃ h, r.siblingHash = some h ∧ Js.BigIntText h) ∧
    ∃ pid, db.HasKey pid (r.key.level + 1) (r.key.index / 2)

namespace Db.Linked

variable {poseidon : List ℤ → ℤ} {config : IZKServerConfig} {levels : ℕ} {db db' : Db} {d : NodeDoc}

theorem of_treeNodes (h : db.Linked levels) (hnodes : db'.treeNodes = db.treeNodes) :
    db'.Linked levels := by
  intro id r hr hlink
  rw [Db.HasNode, hnodes] at hr
  obtain ⟨hlt, hsib, pid, s, hs, hkey⟩ := h id r hr hlink
  exact ⟨hlt, hsib, pid, s, by rwa [Db.HasNode, hnodes], hkey⟩

theorem saveNode (h : db.Linked levels) (hd : db.InStep d)
    (hnew : d.cur.parent ≠ none → d.loaded.key.level < levels ∧
      (∃ x, d.cur.siblingHash = some x ∧ Js.BigIntText x) ∧
      ∃ pid, db.HasKey pid (d.loaded.key.level + 1) (d.loaded.key.index / 2)) :
    (db.saveNode d).Linked levels := by
  intro id r hr hlink
  rcases (Db.hasNode_saveNode hd).mp hr with ⟨-, rfl⟩ | ⟨-, hr⟩
  · obtain ⟨hlt, hsib, pid, hpid⟩ := hnew hlink
    rw [hd.2]
    exact ⟨hlt, hsib, pid, Db.hasKey_saveNode.mpr hpid⟩
  · obtain ⟨hlt, hsib, pid, hpid⟩ := h id r hr hlink
    exact ⟨hlt, hsib, pid, Db.hasKey_saveNode.mpr hpid⟩

/-- A save that leaves the link alone and has a sibling hash that `BigInt` accepts. -/
theorem saveNode_of_parent (h : db.Linked levels) (hd : db.InStep d)
    (hlink : d.cur.parent = d.loaded.parent)
    (hsib : d.cur.siblingHash = d.loaded.siblingHash ∨
      ∃ x, d.cur.siblingHash = some x ∧ Js.BigIntText x) : (db.saveNode d).Linked levels := by
  refine h.saveNode hd fun hparent => ?_
  obtain ⟨hlt, hold, hplace⟩ := h d.id d.loaded hd.1 (hlink ▸ hparent)
  rcases hsib with hsib | hsib
  · exact ⟨hlt, hsib.symm ▸ hold, hplace⟩
  · exact ⟨hlt, hsib, hplace⟩

theorem createNode (h : db.Linked levels) {r : IMerkleTreeNode} (hlink : r.parent = none) :
    (db.createNode r).Linked levels := by
  intro id s hs hparent
  rcases Db.hasNode_createNode.mp hs with hs | ⟨-, rfl⟩
  · obtain ⟨hlt, hsib, pid, hpid⟩ := h id s hs hparent
    exact ⟨hlt, hsib, pid, hpid.createNode⟩
  · exact absurd hlink hparent

end Db.Linked

/-! ## Appending -/

/-- The store is linked, and `d` is the node at `(l, i)` as it is stored. -/
structure InHand (levels l i : ℕ) (d : NodeDoc) (db : Db) : Prop where
  linked : db.Linked levels
  stored : db.HasNode d.id d.cur
  synced : d.loaded = d.cur
  level : d.cur.key.level = l
  index : d.cur.key.index = i

namespace InHand

variable {poseidon : List ℤ → ℤ} {config : IZKServerConfig} {levels l i : ℕ} {d p : NodeDoc}
  {db : Db}

theorem of_find (h : db.Linked levels) (hfind : db.findByLevelAndIndex l i = some d) :
    InHand levels l i d db := by
  obtain ⟨hd, hsync, hlevel, hindex⟩ := Db.findByLevelAndIndex_eq_some hfind
  exact ⟨h, hd, hsync, hlevel, hindex⟩

theorem inStep (h : InHand levels l i d db) {d' : NodeDoc} (hid : d'.id = d.id)
    (hloaded : d'.loaded = d.loaded) (hkey : d'.cur.key = d.cur.key) : db.InStep d' := by
  refine ⟨?_, ?_⟩
  · rw [hid, hloaded, h.synced]
    exact h.stored
  · rw [hkey, hloaded, h.synced]

/-- A node with a new hash, as it is after its save. -/
theorem setHash (h : InHand levels l i p db) (x : String) :
    InHand levels l i { p.setHash x with loaded := (p.setHash x).cur } (db.saveNode (p.setHash x)) := by
  have hstep : db.InStep (p.setHash x) := h.inStep rfl rfl rfl
  refine ⟨h.linked.saveNode_of_parent hstep (congrArg (·.parent) h.synced.symm)
    (Or.inl (congrArg (·.siblingHash) h.synced.symm)), Db.hasNode_saveNode_self hstep, rfl, h.level,
    h.index⟩

/-- Another node is saved. -/
theorem saveNode (h : InHand levels l i d db) {s : NodeDoc} (hs : db.InStep s) (hne : d.id ≠ s.id)
    (hlinked : (db.saveNode s).Linked levels) : InHand levels l i d (db.saveNode s) :=
  ⟨hlinked, h.stored.saveNode hs hne, h.synced, h.level, h.index⟩

theorem id_ne {l' i' : ℕ} (h : InHand levels l i d db) (h' : InHand levels l' i' p db)
    (hne : l ≠ l' ∨ i ≠ i') : d.id ≠ p.id :=
  h.stored.id_ne h'.stored (by rwa [h.level, h.index, h'.level, h'.index])

/-- The node is linked to the parent that is in place. -/
theorem link (hd : InHand levels l i d db) (hp : InHand levels (l + 1) (i / 2) p db)
    (hlt : l < levels) {x : String} (hx : Js.BigIntText x) :
    InHand levels (l + 1) (i / 2) p (db.saveNode ((d.setSiblingHash x).setParent p)) := by
  have hstep : db.InStep ((d.setSiblingHash x).setParent p) := hd.inStep rfl rfl rfl
  have hne : p.id ≠ d.id := hp.id_ne hd (Or.inl (Nat.succ_ne_self l))
  refine hp.saveNode hstep hne ?_
  refine hp.linked.saveNode hstep fun _ => ⟨?_, ⟨x, rfl, hx⟩, p.id, ?_⟩
  · show d.loaded.key.level < levels
    rwa [hd.synced, hd.level]
  · show db.HasKey p.id (d.loaded.key.level + 1) (d.loaded.key.index / 2)
    rw [hd.synced, hd.level, hd.index]
    exact ⟨p.cur, hp.stored, hp.level, hp.index⟩

/-- The sibling hash that is saved beside a link has been hashed. -/
theorem appendLeft (h : InHand levels l i d db) (hlt : l < levels) (zeros : List IMerkleTreeZero)
    (groupId : String) : (UserService.appendLeft poseidon zeros groupId l i d).wp
      (fun r db' => db'.Linked levels ∧ ∀ d', r = .ok d' → InHand levels (l + 1) (i / 2) d' db')
      db := by
  obtain ⟨e, hrun⟩ | ⟨zero, x, hzero, hhash⟩ := appendLeft_cases poseidon zeros groupId l i d db
  · exact wp_of_run hrun ⟨h.linked, fun _ hr => by cases hr⟩
  · have hzhash : Js.BigIntText zero.hash := (hashPair_eq_ok hhash).2
    cases hfound : db.findByLevelAndIndex (l + 1) (i / 2) with
    | some p =>
        refine wp_of_run (run_appendLeft_found hzero hhash hfound) ?_
        simp only [Except.ok.injEq, forall_eq']
        have hp := of_find h.linked hfound
        have hne : d.id ≠ p.id := h.id_ne hp (Or.inl (Nat.succ_ne_self l).symm)
        have hd : InHand levels l i d (db.saveNode (p.setHash x)) :=
          h.saveNode (hp.inStep rfl rfl rfl) hne (hp.setHash x).linked
        have hlinked := hd.link (hp.setHash x) hlt hzhash
        exact ⟨hlinked.linked, hlinked⟩
    | none =>
        refine wp_of_run (run_appendLeft_created hzero hhash hfound rfl) ?_
        simp only [Except.ok.injEq, forall_eq']
        set r : IMerkleTreeNode :=
          { key := { groupId, level := l + 1, index := i / 2, indexInGroup := -1 }, hash := x }
        have hcreated := h.linked.createNode (r := r) rfl
        have hd : InHand levels l i d (db.createNode r) :=
          ⟨hcreated, Db.hasNode_createNode.mpr (Or.inl h.stored), h.synced, h.level, h.index⟩
        have hp : InHand levels (l + 1) (i / 2) ⟨db.treeNodes.length, r, r⟩ (db.createNode r) :=
          ⟨hcreated, Db.hasNode_createNode.mpr (Or.inr ⟨rfl, rfl⟩), rfl, rfl, rfl⟩
        have hlinked := hd.link hp hlt hzhash
        exact ⟨hlinked.linked, hlinked⟩

theorem appendRight (h : InHand levels l i d db) (hlt : l < levels) (hodd : i % 2 ≠ 0) :
    (UserService.appendRight poseidon l i d).wp
      (fun r db' => db'.Linked levels ∧ ∀ d', r = .ok d' → InHand levels (l + 1) (i / 2) d' db')
      db := by
  obtain ⟨e, hrun⟩ | ⟨s, x, p, hs, hhash, hp⟩ := appendRight_cases poseidon l i d db
  · exact wp_of_run hrun ⟨h.linked, fun _ hr => by cases hr⟩
  · refine wp_of_run (run_appendRight hs hhash hp) ?_
    simp only [Except.ok.injEq, forall_eq']
    obtain ⟨hshash, hdhash⟩ := hashPair_eq_ok hhash
    have hsib := of_find h.linked hs
    have hpar := of_find h.linked hp
    have hsd : s.id ≠ d.id := hsib.id_ne h (Or.inr (by omega))
    have hsp : s.id ≠ p.id := hsib.id_ne hpar (Or.inl (Nat.succ_ne_self l).symm)
    -- the node is linked before the parent has its new hash
    have hlinked := h.link hpar hlt hshash
    have hsib' : InHand levels l (i - 1) s (db.saveNode
        ((d.setSiblingHash s.cur.hash).setParent (p.setHash x))) :=
      hsib.saveNode (h.inStep rfl rfl rfl) hsd hlinked.linked
    have hpar' := hlinked.setHash x
    have hstep' : Db.InStep _ (p.setHash x) := hlinked.inStep rfl rfl rfl
    have hsib'' := hsib'.saveNode hstep' hsp hpar'.linked
    have hstep : Db.InStep _ (s.setSiblingHash d.cur.hash) := hsib''.inStep rfl rfl rfl
    have hend := hsib''.linked.saveNode_of_parent hstep
      (congrArg (·.parent) hsib.synced.symm) (Or.inr ⟨_, rfl, hdhash⟩)
    exact ⟨hend, hpar'.saveNode hstep hsp.symm hend⟩

theorem appendLevels (k : ℕ) (hk : l + k = levels) (h : InHand levels l i d db)
    (zeros : List IMerkleTreeZero) (groupId : String) :
    (UserService.appendLevels poseidon zeros groupId k l i d).wp
      (fun _ db' => db'.Linked levels) db := by
  induction k generalizing l i d db with
  | zero => exact h.linked
  | succ k ih =>
      have hlevel : (UserService.appendLevel poseidon zeros groupId l i d).wp (fun r db' =>
          db'.Linked levels ∧ ∀ d', r = .ok d' → InHand levels (l + 1) (i / 2) d' db') db := by
        unfold UserService.appendLevel
        split
        · exact h.appendLeft (by omega) zeros groupId
        · next hodd => exact h.appendRight (by omega) hodd
      rw [UserService.appendLevels, wp_bind]
      refine wp_mono hlevel ?_
      rintro (e | d') db' ⟨hlinked, hd'⟩
      · exact hlinked
      · exact ih (by omega) (hd' d' rfl)

end InHand

namespace Db.Linked

variable {poseidon : List ℤ → ℤ} {config : IZKServerConfig} {db : Db}

/-- An append links what it creates, also when it throws on the way. -/
theorem appendUser (h : db.Linked config.merkleTreeLevels) (zeros : List IMerkleTreeZero)
    (groupId : String) (user : IGroupMember) :
    (UserService.appendUser poseidon config zeros groupId user).wp
      (fun _ db' => db'.Linked config.merkleTreeLevels) db := by
  rcases Nat.lt_or_ge db.getTotalNumberOfLeaves (2 ^ config.merkleTreeLevels) with hroom | hfull
  · refine wp_of_run_eq (run_appendUser_of_room rfl hroom) ?_
    refine InHand.appendLevels config.merkleTreeLevels (Nat.zero_add _) ?_ zeros groupId
    exact ⟨h.createNode rfl, Db.hasNode_createNode.mpr (Or.inr ⟨rfl, rfl⟩), rfl, rfl, rfl⟩
  · exact wp_of_run (run_appendUser_full hfull) h

end Db.Linked

/-! ## Updating -/

/-- The walk of an update finds what it needs at every level. -/
theorem InHand.updateParents {poseidon : List ℤ → ℤ} {levels l i : ℕ} {d : NodeDoc} {db : Db}
    (h : InHand levels l i d db) (hd : Js.BigIntText d.cur.hash) (fuel : ℕ)
    (hfuel : levels ≤ l + fuel) : (UserService.updateParents poseidon fuel d).wp
      (fun r db' => r = .ok () ∧ db'.Linked levels) db := by
  induction fuel generalizing l i d db with
  | zero =>
      unfold UserService.updateParents
      cases hparent : d.cur.parent with
      | none => exact ⟨rfl, h.linked⟩
      | some pid =>
          obtain ⟨hlt, -⟩ := h.linked d.id d.cur h.stored (by simp [hparent])
          rw [h.level] at hlt
          omega
  | succ fuel ih =>
      unfold UserService.updateParents
      cases hparent : d.cur.parent with
      | none => exact ⟨rfl, h.linked⟩
      | some pid =>
          obtain ⟨-, ⟨y, hy, v, hv⟩, _, hkey⟩ := h.linked d.id d.cur h.stored (by simp [hparent])
          obtain ⟨w, hw⟩ := hd
          obtain ⟨p, hp⟩ := Db.findByLevelAndIndex_isSome hkey
          simp only [hy, Js.bigIntOfField, bigIntOfText_ok hv, bigIntOfText_ok hw, wp_bind,
            wp_ofExcept, andThen_ok, MerkleTreeNode.findByLevelAndIndex, wp_query, hp, wp_save]
          rw [h.level, h.index] at hp
          exact ih ((of_find h.linked hp).setHash _) (Js.bigIntText_bigIntToString _) (by omega)

namespace Db.Linked

variable {poseidon : List ℤ → ℤ} {config : IZKServerConfig} {db : Db}

/-- An update returns as soon as there is a leaf to write. -/
theorem updateUser (h : db.Linked config.merkleTreeLevels) (leafHash : String) {newValue : String}
    (hvalue : Js.BigIntText newValue) :
    (UserService.updateUser poseidon config leafHash newValue).wp (fun r db' =>
      db'.Linked config.merkleTreeLevels ∧
        ∀ d, db.findLeafByHash leafHash = some d → r = .ok ()) db := by
  unfold UserService.updateUser MerkleTreeNode.findLeafByHash
  rw [wp_bind, wp_query, andThen_ok]
  cases hfind : db.findLeafByHash leafHash with
  | none => exact ⟨h, fun _ hd => nomatch hd⟩
  | some d =>
      obtain ⟨hd, hsync, hlevel, -⟩ := Db.findLeafByHash_eq_some hfind
      have hhand : InHand config.merkleTreeLevels 0 d.cur.key.index d db :=
        ⟨h, hd, hsync, hlevel, rfl⟩
      simp only [wp_bind, wp_save, andThen_ok]
      refine wp_mono ((hhand.setHash newValue).updateParents hvalue config.merkleTreeLevels
        (Nat.zero_add _).ge) ?_
      exact fun _ _ hret => ⟨hret.2, fun _ _ => hret.1⟩

end Db.Linked

/-! ## Removing -/

/-- The leaves, found by their positions in the groups and cleared by their hashes. -/
def leafTable (config : IZKServerConfig) :
    Table (IMerkleTreeNodeKey × String) (String × ℤ) String where
  key row := (row.1.groupId, row.1.indexInGroup)
  val row := row.2
  zero := Js.bigIntToString config.zeroValue
  clear row := (row.1, Js.bigIntToString config.zeroValue)
  key_clear _ := rfl
  val_clear _ := rfl
  clear_of_zero _ h := Prod.ext rfl h.symm

section

variable {poseidon : List ℤ → ℤ} {config : IZKServerConfig} {db : Db} {groupId : String} {i : ℤ}

/-- A search by position finds the row with the position. -/
theorem find?_leafRows (db : Db) (groupId : String) (i : ℤ) :
    db.leafRows.find? (fun row => (leafTable config).key row = (groupId, i))
      = (db.findLeafByGroupIdAndIndexInGroup groupId i).map fun d => (d.cur.key, d.cur.hash) := by
  have hmatch : (fun r => (leafRow r).any fun row =>
      decide ((leafTable config).key row = (groupId, i)))
        = fun r : IMerkleTreeNode => decide (r.key.level = 0 ∧ r.key.indexInGroup = i ∧
            r.key.groupId = groupId) := by
    funext r
    by_cases hr : r.key.level = 0 <;> simp [leafTable, leafRow, hr, and_comm]
  rw [Db.leafRows, List.find?_filterMap, hmatch, Collection.find?_eq_map_findOne,
    ← Db.findLeafByGroupIdAndIndexInGroup]
  cases hfind : db.findLeafByGroupIdAndIndexInGroup groupId i with
  | none => rfl
  | some d =>
      obtain ⟨-, -, hp⟩ := Collection.findOne_eq_some hfind
      simp [leafRow, (of_decide_eq_true hp).1]

theorem clearKey_leafRows {d : NodeDoc}
    (hfind : db.findLeafByGroupIdAndIndexInGroup groupId i = some d) :
    (leafTable config).clearKey db.leafRows (groupId, i)
      = Collection.modifyFirst (fun r => r.2 = d.cur.hash)
          (fun r => (r.1, Js.bigIntToString config.zeroValue)) db.leafRows := by
  rw [Table.clearKey, find?_leafRows, hfind]
  rfl

/-- The listed members are looked up one after another, each with what the ones before it left. -/
theorem Db.Linked.removeEach (h : db.Linked config.merkleTreeLevels) (groupId : String)
    (indexes : List ℤ) : (UserService.removeEach poseidon config groupId indexes).wp (fun r db' =>
      db'.Linked config.merkleTreeLevels ∧ ((∀ i ∈ indexes, db.HasMember groupId i) →
        r = .ok "Done" ∧ db'.leafRows
          = (indexes.map fun i => (groupId, i)).foldl (leafTable config).clearKey db.leafRows))
      db := by
  induction indexes generalizing db with
  | nil => exact ⟨h, fun _ => ⟨rfl, rfl⟩⟩
  | cons index indexes ih =>
      unfold UserService.removeEach MerkleTreeNode.findLeafByGroupIdAndIndexInGroup
      rw [wp_bind, wp_query, andThen_ok]
      cases hfind : db.findLeafByGroupIdAndIndexInGroup groupId index with
      | none =>
          refine ⟨h, fun hmembers => ?_⟩
          exact absurd (hmembers index (by simp)) (findLeafByGroupIdAndIndexInGroup_eq_none.mp hfind)
      | some d =>
          obtain ⟨hd, -, hp⟩ := Collection.findOne_eq_some hfind
          obtain ⟨e, he⟩ : ∃ e, db.findLeafByHash d.cur.hash = some e :=
            Collection.findOne_isSome_of_getElem? hd (by simp [(of_decide_eq_true hp).1])
          have hrows : (UserService.updateUser poseidon config d.cur.hash).wp (fun _ db₁ =>
              db₁.leafRows = (leafTable config).clearKey db.leafRows (groupId, index)) db := by
            rw [clearKey_leafRows hfind]
            exact updateUser_leafRows poseidon config d.cur.hash _ db
          simp only [wp_bind]
          refine wp_mono (wp_and (h.updateUser d.cur.hash (Js.bigIntText_bigIntToString _)) (wp_and
            (updateUser_leafKeys poseidon config d.cur.hash _ db) hrows)) ?_
          rintro r db₁ ⟨⟨hlinked, hret⟩, hkeys, hrows⟩
          obtain rfl := hret e he
          rw [andThen_ok]
          refine wp_mono (ih hlinked) ?_
          rintro r db' ⟨hlinked', hrest⟩
          refine ⟨hlinked', fun hmembers => ?_⟩
          obtain ⟨hdone, hrows'⟩ := hrest fun i hi => by
            have hmember := hmembers i (List.mem_cons_of_mem index hi)
            rwa [Db.hasMember_iff_leafKeys, hkeys, ← Db.hasMember_iff_leafKeys]
          refine ⟨hdone, ?_⟩
          rw [hrows', hrows, List.map_cons, List.foldl_cons]

theorem Db.Linked.removeUsersByIndexes (h : db.Linked config.merkleTreeLevels) (indexes : List ℤ)
    (groupId : String) : (UserService.removeUsersByIndexes poseidon config indexes groupId).wp
      (fun _ db' => db'.Linked config.merkleTreeLevels) db :=
  wp_removeUsersByIndexes (fun _ => h)
    (wp_mono (h.removeEach groupId indexes) fun _ _ h' => h'.1)

end

/-! ## Runs -/

/-- What holds of every store that appends, bans and removals lead to. -/
structure Db.Operated (config : IZKServerConfig) (db : Db) : Prop where
  linked : db.Linked config.merkleTreeLevels
  positions : db.positions.Nodup
  zeros : db.leafKeys ≠ [] → db.treeZeros ≠ []

section

variable {lib : Libraries} {config : IZKServerConfig} {db db' : Db}

theorem Db.Operated.empty (hnodes : db.treeNodes = []) : db.Operated config := by
  refine ⟨fun id r hr => ?_, ?_, ?_⟩
  · simp [Db.HasNode, hnodes] at hr
  · simp [Db.positions, Db.leafRows, hnodes]
  · simp [Db.leafKeys, Db.leafRows, hnodes]

theorem Db.Operated.of_leafKeys (h : db.Operated config)
    (hlinked : db'.Linked config.merkleTreeLevels) (hkeys : db'.leafKeys = db.leafKeys)
    (hzeros : db'.treeZeros = db.treeZeros) : db'.Operated config := by
  refine ⟨hlinked, ?_, ?_⟩
  · rw [Db.positions_eq, hkeys, ← Db.positions_eq]
    exact h.positions
  · rw [hkeys, hzeros]
    exact h.zeros

theorem Db.Operated.appendMembers (h : db.Operated config) (hzeros : db.treeZeros ≠ [])
    (zeros : List IMerkleTreeZero) (groupId : String) (users : List IGroupMember) :
    (UserService.appendMembers lib.poseidon config zeros groupId users).wp
      (fun _ db' => db'.Operated config) db := by
  induction users generalizing db with
  | nil => exact h
  | cons user users ih =>
      have hlinked : (UserService.appendMember lib.poseidon config zeros groupId user).wp
          (fun _ db' => db'.Linked config.merkleTreeLevels) db := by
        unfold UserService.appendMember MerkleTreeNode.findLeafByGroupIdAndIndexInGroup
        rw [wp_bind, wp_query, andThen_ok]
        cases db.findLeafByGroupIdAndIndexInGroup groupId user.index with
        | some d => exact h.linked
        | none => exact h.linked.appendUser zeros groupId user
      have honly : (UserService.appendMember lib.poseidon config zeros groupId user).wp
          (fun _ db' => OnlyTree db db') db := (appendMember_onlyTree zeros groupId user).exec_onlyTree db
      rw [UserService.appendMembers, wp_bind]
      refine wp_mono (wp_and hlinked (wp_and honly
        (appendMember_outcome lib.poseidon config zeros groupId user db))) ?_
      rintro r db₁ ⟨hlinked, honly, hout⟩
      have h₁ : db₁.Operated config :=
        ⟨hlinked, hout.nodup_positions h.positions, fun _ => honly.treeZeros ▸ hzeros⟩
      cases r with
      | error e => exact h₁
      | ok _ => exact ih h₁ (honly.treeZeros ▸ hzeros)

theorem Db.Operated.appendUsers (h : db.Operated config) (users : List IGroupMember)
    (groupId : String) : ((UserService.appendUsers lib.poseidon config users groupId).exec db).Operated
      config := by
  rcases eq_or_ne users [] with rfl | hne
  · exact h
  · by_cases hzeros : db.treeZeros = []
    · rw [Prog.exec, run_appendUsers_unseeded hne hzeros]
      exact h
    · rw [Prog.exec, run_appendUsers hne hzeros]
      exact h.appendMembers hzeros _ groupId users

/-- A ban writes to the tree what an update writes. -/
theorem Db.Linked.banRecovered (h : db.Linked config.merkleTreeLevels) (user : RecoveredUser) :
    ((MessageHandlerService.banRecovered lib config user).exec db).Linked
      config.merkleTreeLevels := by
  unfold MessageHandlerService.banRecovered Prog.exec
  cases hfind : db.findLeafByHash user.idCommitment with
  | none =>
      rw [run_bind_of_error (run_banUser_unknown hfind)]
      exact h
  | some d =>
      have hban := run_banUser hfind
      split at hban
      · rw [run_bind_of_error hban]
        exact h
      · rw [run_bind_of_ok hban]
        have hbanned : ({ db with
            bannedUsers := db.bannedUsers ++ [user.row d.cur.key.index] } : Db).Linked
              config.merkleTreeLevels :=
          h.of_treeNodes rfl
        have hupdate := @updateUser lib.poseidon _ _ hbanned user.idCommitment _
          (Js.bigIntText_bigIntToString config.zeroValue)
        rw [wp] at hupdate
        rw [run_bind]
        revert hupdate
        cases (UserService.updateUser lib.poseidon config user.idCommitment
          (Js.bigIntToString config.zeroValue)).run _ with
        | mk r db' =>
            rintro ⟨hlinked, -⟩
            cases r with
            | error e => exact hlinked
            | ok _ => exact hlinked.of_treeNodes rfl

theorem BanOutcome.leafKeys {user : RecoveredUser} (h : BanOutcome config user db db') :
    db'.leafKeys = db.leafKeys := by
  cases h with
  | unknown _ h => rw [h]
  | conflict _ _ _ h => rw [h]
  | banned _ _ _ hleaves =>
      rw [Db.leafKeys, hleaves]
      exact Collection.map_modifyFirst (f := fun r => (r.1, Js.bigIntToString config.zeroValue))
        (fun _ => rfl) db.leafRows

theorem Db.Operated.chat (h : db.Operated config) (env : CallEnv) (text : String) :
    ((Request.chat text).exec lib config env db).2.Operated config := by
  have hkeeps : Keeps db ((Request.chat text).exec lib config env db).2 :=
    (handleChatMessage_keeps lib config env text).exec Keeps.refl (fun _ _ _ => Keeps.trans) db
  rcases chat_sameNodes_or_ban lib config env text db with hsame | ⟨user, hrec⟩
  · refine h.of_leafKeys (h.linked.of_treeNodes hsame.treeNodes) ?_ hkeeps.treeZeros
    rw [Db.leafKeys, Db.leafKeys, Db.leafRows, hsame.treeNodes, ← Db.leafRows]
  · refine h.of_leafKeys ?_ hrec.outcome.leafKeys hkeeps.treeZeros
    rw [hrec.exec_eq]
    exact h.linked.banRecovered user

theorem Db.Operated.exec (h : db.Operated config) (op : Operation) :
    (op.exec lib config db).Operated config := by
  cases op with
  | appendUsers users groupId => exact h.appendUsers users groupId
  | removeUsersByIndexes indexes groupId =>
      exact h.of_leafKeys (h.linked.removeUsersByIndexes indexes groupId)
        (removeUsersByIndexes_leafKeys lib.poseidon config indexes groupId db)
        ((removeUsersByIndexes_onlyTree indexes groupId).exec_onlyTree db).treeZeros
  | chat env text => exact h.chat env text

theorem Later.operated {ok : Operation → Db → Prop} (h : Later lib config ok db db')
    (hdb : db.Operated config) : db'.Operated config := by
  induction h with
  | now => exact hdb
  | operation _ op _ ih => exact ih.exec op

/-- The listed members' leaves are cleared, and all others are as they were. -/
def RemovesExactly (lib : Libraries) (config : IZKServerConfig) (indexes : List ℤ)
    (groupId : String) (db : Db) : Prop :=
  ((removeUsersByIndexes lib.poseidon config indexes groupId).exec db).leafRows
    = db.leafRows.map fun row =>
        if row.1.groupId = groupId ∧ row.1.indexInGroup ∈ indexes then
          (row.1, Js.bigIntToString config.zeroValue)
        else row

instance (indexes : List ℤ) (groupId : String) (db : Db) :
    Decidable (RemovesExactly lib config indexes groupId db) :=
  inferInstanceAs (Decidable (_ = _))

theorem Db.Operated.removeUsersByIndexes (h : db.Operated config) {indexes : List ℤ}
    {groupId : String} (hmembers : ∀ i ∈ indexes, db.HasMember groupId i) :
    ((UserService.removeUsersByIndexes lib.poseidon config indexes groupId).exec db).leafRows
      = (indexes.map fun i => (groupId, i)).foldl (leafTable config).clearKey db.leafRows := by
  rcases eq_or_ne indexes [] with rfl | hne
  · rfl
  · obtain ⟨i, hi⟩ := List.exists_mem_of_ne_nil indexes hne
    obtain ⟨row, hrow, -⟩ := hmembers i hi
    have hzeros : db.treeZeros ≠ [] :=
      h.zeros (List.ne_nil_of_mem (List.mem_map_of_mem (f := Prod.fst) hrow))
    rw [Prog.exec, run_removeUsersByIndexes hne hzeros]
    exact ((h.linked.removeEach groupId indexes).2 hmembers).2

/-- A removal clears exactly the leaves it lists when, of each text but the zero value's, it lists
    the first leaves, in order. -/
theorem removal_exact_iff {start : Db} (hseed : (seedZeros lib.poseidon config.zeroValue
      config.merkleTreeLevels).run {} = (.ok (), start))
    (h : Later lib config (fun _ _ => True) start db) {groupId : String} {indexes : List ℤ}
    (hmembers : ∀ i ∈ indexes, db.HasMember groupId i) :
    RemovesExactly lib config indexes groupId db ↔
      ∀ text ≠ Js.bigIntToString config.zeroValue,
        (leafTable config).PicksFirst db.leafRows (indexes.map fun i => (groupId, i)) text := by
  obtain ⟨db₁, hseed', -, hnodes⟩ := seedZeros_seeded lib.poseidon config
  obtain rfl := (Prod.mk.inj (hseed'.symm.trans hseed)).2
  have hdb : db.Operated config := h.operated (.empty hnodes)
  have hlisted : ∀ row : IMerkleTreeNodeKey × String,
      (leafTable config).key row ∈ indexes.map (fun i => (groupId, i)) ↔
        row.1.groupId = groupId ∧ row.1.indexInGroup ∈ indexes := by
    intro row
    simp [leafTable, and_comm, eq_comm]
  rw [RemovesExactly, hdb.removeUsersByIndexes hmembers]
  refine Iff.trans ?_ (Table.foldl_clearKey_eq_iff (T := leafTable config) hdb.positions _)
  simp only [hlisted]
  rfl

end

/-! ## A member of two groups -/

namespace Demo

theorem seeded_run : (seedZeros lib.poseidon configTwoLevels.zeroValue
    configTwoLevels.merkleTreeLevels).run {} = (.ok (), seeded) := rfl

theorem later_joined : Later lib configTwoLevels (fun _ _ => True) seeded joined :=
  (Later.now.operation _ trivial).operation _ trivial

end Demo

/-- The member leaves the second group, and its leaf of the first one is cleared. -/
theorem removal_clears_another_group :
    ¬ ∀ (lib : Libraries) (config : IZKServerConfig) (start db : Db), (seedZeros lib.poseidon
        config.zeroValue config.merkleTreeLevels).run {} = (.ok (), start) →
      Later lib config (fun _ _ => True) start db → ∀ (groupId : String) (indexes : List ℤ),
        (∀ i ∈ indexes, db.HasMember groupId i) → RemovesExactly lib config indexes groupId db := by
  intro h
  exact absurd (h _ _ _ _ Demo.seeded_run Demo.later_joined "h" [0] (by decide +kernel))
    (by decide +kernel)

/-- It leaves the first group. -/
theorem first_leaf_is_removed : RemovesExactly Demo.lib Demo.configTwoLevels [0] "g" Demo.joined := by
  refine (removal_exact_iff Demo.seeded_run Demo.later_joined (by decide +kernel)).mpr ?_
  intro text htext
  by_cases hcommitment : text = Demo.commitment
  · subst hcommitment
    exact ⟨[("g", 0)], List.Sublist.refl _, by decide +kernel, by decide +kernel⟩
  · have hrows : ∀ row ∈ Demo.joined.leafRows, row.2 = Demo.commitment := by decide +kernel
    refine ⟨[], List.nil_sublist _, ?_, ?_⟩
    · exact fun row hrow hval => absurd (hval.symm.trans (hrows row hrow)) hcommitment
    · exact fun j hj => absurd hj (Nat.not_lt_zero j)

end ZkChat
