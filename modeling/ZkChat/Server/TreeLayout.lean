import ZkChat.Lib.HashTree
import ZkChat.Server.UserService

set_option autoImplicit false

/-! # The layout of the stored tree

`treeNodes` is a list of documents with keys and object ids; the services believe it is a tree.
`Layout` is that belief: which `(level, index)` pairs have a node, exactly one each, which integer
each node's hash denotes, and where the parent links go. Its occupancy, values and missing links
are parameters, so that the same structure describes a tree at rest and a tree in the middle of a
walk to the root. `Layout.createNode` and `Layout.saveNode` say what one database operation does
to it; everything later is built from these two. -/

namespace ZkChat

namespace Db

/-- The node with object id `id` has the fields `r`. -/
def HasNode (db : Db) (id : ℕ) (r : IMerkleTreeNode) : Prop := db.treeNodes[id]? = some r

/-- The node with object id `id` is at the given place of the tree. -/
def HasKey (db : Db) (id level index : ℕ) : Prop :=
  ∃ r, db.HasNode id r ∧ r.key.level = level ∧ r.key.index = index

variable {db : Db}

theorem HasNode.unique {id : ℕ} {r r' : IMerkleTreeNode} (h : db.HasNode id r)
    (h' : db.HasNode id r') : r = r' :=
  Option.some.inj (h.symm.trans h')

/-- A document that is in step with the store and whose key was not touched. -/
def InStep (db : Db) (d : NodeDoc) : Prop :=
  db.HasNode d.id d.loaded ∧ d.cur.key = d.loaded.key

/-- Saving a document that is in step writes exactly its fields. -/
theorem saveNode_of_inStep {d : NodeDoc} (h : db.InStep d) :
    (db.saveNode d).treeNodes = db.treeNodes.set d.id d.cur := by
  have hmerge : d.merge d.loaded = d.cur := by
    have hkey := h.2
    rcases hd : d.cur with ⟨key, parent, siblingHash, hash⟩
    simp only [NodeDoc.merge, hd, IMerkleTreeNode.mk.injEq] at hkey ⊢
    refine ⟨hkey.symm, ?_, ?_, ?_⟩
    all_goals split <;> simp_all
  rw [saveNode, List.modify_eq_set_getElem?, show db.treeNodes[d.id]? = some d.loaded from h.1]
  simp [hmerge]

theorem hasNode_saveNode {id : ℕ} {r : IMerkleTreeNode} {d : NodeDoc} (hd : db.InStep d) :
    (db.saveNode d).HasNode id r ↔ (id = d.id ∧ r = d.cur) ∨ (id ≠ d.id ∧ db.HasNode id r) := by
  have hlt : d.id < db.treeNodes.length := (List.getElem?_eq_some_iff.mp hd.1).1
  unfold HasNode
  rw [saveNode_of_inStep hd]
  by_cases h : id = d.id
  · subst h
    simp [List.getElem?_set_self hlt, eq_comm]
  · simp [List.getElem?_set_ne (Ne.symm h), h]

/-- After a save the document is in step again, also after further assignments. -/
theorem hasNode_saveNode_self {d : NodeDoc} (hd : db.InStep d) :
    (db.saveNode d).HasNode d.id d.cur :=
  (hasNode_saveNode hd).mpr (Or.inl ⟨rfl, rfl⟩)

theorem HasNode.saveNode {id : ℕ} {r : IMerkleTreeNode} {d : NodeDoc} (h : db.HasNode id r)
    (hd : db.InStep d) (hne : id ≠ d.id) : (db.saveNode d).HasNode id r :=
  (hasNode_saveNode hd).mpr (Or.inr ⟨hne, h⟩)

/-- Nodes at different places are different documents. -/
theorem HasNode.id_ne {id id' : ℕ} {r r' : IMerkleTreeNode} (h : db.HasNode id r)
    (h' : db.HasNode id' r') (hne : r.key.level ≠ r'.key.level ∨ r.key.index ≠ r'.key.index) :
    id ≠ id' := by
  rintro rfl
  obtain rfl := h.unique h'
  simp at hne

theorem saveNode_comm {d e : NodeDoc} (h : d.id ≠ e.id) :
    (db.saveNode d).saveNode e = (db.saveNode e).saveNode d := by
  simp only [Db.saveNode, List.modify_modify_ne _ _ _ h]

theorem hasNode_createNode {id' : ℕ} {r r' : IMerkleTreeNode} :
    (db.createNode r).HasNode id' r' ↔
      db.HasNode id' r' ∨ (id' = db.treeNodes.length ∧ r' = r) := by
  unfold HasNode createNode
  rcases Nat.lt_trichotomy id' db.treeNodes.length with h | h | h
  · simp [List.getElem?_append_left h, Nat.ne_of_lt h]
  · subst h
    simp [eq_comm]
  · rw [List.getElem?_append_right (by omega), List.getElem?_eq_none (by simp; omega),
      List.getElem?_eq_none (by omega)]
    simp
    omega

/-- No save moves a node: keys are never written. -/
theorem hasKey_saveNode {id l i : ℕ} {d : NodeDoc} :
    (db.saveNode d).HasKey id l i ↔ db.HasKey id l i := by
  unfold HasKey HasNode saveNode
  simp only [List.getElem?_modify, Option.map_eq_map]
  constructor
  · rintro ⟨r, hr, hl, hi⟩
    cases hs : db.treeNodes[id]? with
    | none => simp [hs] at hr
    | some s =>
        rw [hs, Option.map_some, Option.some.injEq] at hr
        subst hr
        refine ⟨s, rfl, ?_, ?_⟩
        · split at hl <;> exact hl
        · split at hi <;> exact hi
  · rintro ⟨r, hr, hl, hi⟩
    rw [hr, Option.map_some]
    refine ⟨_, rfl, ?_, ?_⟩
    · split <;> exact hl
    · split <;> exact hi

theorem HasKey.createNode {id l i : ℕ} {r : IMerkleTreeNode} (h : db.HasKey id l i) :
    (db.createNode r).HasKey id l i := by
  obtain ⟨t, ht, hkey⟩ := h
  exact ⟨t, hasNode_createNode.mpr (Or.inl ht), hkey⟩

theorem findByLevelAndIndex_eq_some {l i : ℕ} {d : NodeDoc}
    (h : db.findByLevelAndIndex l i = some d) :
    db.HasNode d.id d.cur ∧ d.loaded = d.cur ∧ d.cur.key.level = l ∧ d.cur.key.index = i := by
  obtain ⟨hget, hloaded, hp⟩ := Collection.findOne_eq_some h
  simp only [decide_eq_true_eq] at hp
  exact ⟨hget, hloaded, hp.1, hp.2⟩

theorem findByLevelAndIndex_isSome {l i id : ℕ} (h : db.HasKey id l i) :
    ∃ d, db.findByLevelAndIndex l i = some d := by
  obtain ⟨r, hr, hl, hi⟩ := h
  exact Collection.findOne_isSome_of_getElem? hr (by simp [hl, hi])

end Db

/-! ## Layouts -/

/-- The stored nodes are at the places `occ`, one each; the hash of the node at `(l, i)` denotes
    `val l i`; every node below the top level has the link to its parent, except that those at
    `pending` may still lack it. -/
structure Layout (levels : ℕ) (occ : ℕ → ℕ → Prop) (val : ℕ → ℕ → ℤ) (pending : ℕ → ℕ → Prop)
    (db : Db) : Prop where
  unique : ∀ {id id' l i : ℕ}, db.HasKey id l i → db.HasKey id' l i → id = id'
  occupied : ∀ l i, occ l i ↔ ∃ id, db.HasKey id l i
  hash : ∀ {id r}, db.HasNode id r →
    Js.stringToBigInt r.hash = some (val r.key.level r.key.index)
  parent : ∀ {id r}, db.HasNode id r → r.key.level < levels → ¬ pending r.key.level r.key.index →
    ∃ pid, r.parent = some pid ∧ db.HasKey pid (r.key.level + 1) (r.key.index / 2)
  top : ∀ {id r}, db.HasNode id r → levels ≤ r.key.level → r.parent = none

namespace Layout

variable {levels : ℕ} {occ occ' : ℕ → ℕ → Prop} {val val' : ℕ → ℕ → ℤ}
  {pending pending' : ℕ → ℕ → Prop} {db : Db}

/-- The node at an occupied place, as a search by level and index returns it. -/
theorem find (h : Layout levels occ val pending db) {l i : ℕ} (hocc : occ l i) :
    ∃ d, db.findByLevelAndIndex l i = some d ∧ db.HasNode d.id d.cur ∧ d.loaded = d.cur ∧
      d.cur.key.level = l ∧ d.cur.key.index = i := by
  obtain ⟨id, hid⟩ := (h.occupied l i).mp hocc
  obtain ⟨d, hd⟩ := Db.findByLevelAndIndex_isSome hid
  exact ⟨d, hd, Db.findByLevelAndIndex_eq_some hd⟩

/-- A search by level and index fails only at an unoccupied place. -/
theorem not_occ_of_find (h : Layout levels occ val pending db) {l i : ℕ}
    (hd : db.findByLevelAndIndex l i = none) : ¬ occ l i := by
  intro hocc
  obtain ⟨d, hd', -⟩ := h.find hocc
  rw [hd] at hd'
  exact absurd hd' (by simp)

theorem occ_of_hasNode (h : Layout levels occ val pending db) {id : ℕ} {r : IMerkleTreeNode}
    (hr : db.HasNode id r) : occ r.key.level r.key.index :=
  (h.occupied _ _).mpr ⟨id, r, hr, rfl, rfl⟩

/-- The parameters only matter where there are nodes. -/
theorem congr (h : Layout levels occ val pending db) (hocc : ∀ l i, occ l i ↔ occ' l i)
    (hval : ∀ l i, occ l i → val l i = val' l i)
    (hpending : ∀ l i, occ l i → l < levels → pending l i → pending' l i) :
    Layout levels occ' val' pending' db where
  unique := h.unique
  occupied l i := (hocc l i).symm.trans (h.occupied l i)
  hash hr := by rw [h.hash hr, hval _ _ (h.occ_of_hasNode hr)]
  parent hr hlt hp := h.parent hr hlt (fun hq => hp (hpending _ _ (h.occ_of_hasNode hr) hlt hq))
  top := h.top

/-- Saving a document that is in step. -/
theorem saveNode (h : Layout levels occ val pending db) {d : NodeDoc} (hd : db.InStep d)
    (hhash : Js.stringToBigInt d.cur.hash = some (val' d.loaded.key.level d.loaded.key.index))
    (hval : ∀ l i, ¬ (l = d.loaded.key.level ∧ i = d.loaded.key.index) → val l i = val' l i)
    (hparent : d.loaded.key.level < levels → ¬ pending' d.loaded.key.level d.loaded.key.index →
      ∃ pid, d.cur.parent = some pid ∧
        db.HasKey pid (d.loaded.key.level + 1) (d.loaded.key.index / 2))
    (htop : levels ≤ d.loaded.key.level → d.cur.parent = none)
    (hpending : ∀ l i, ¬ (l = d.loaded.key.level ∧ i = d.loaded.key.index) →
      pending l i → pending' l i) :
    Layout levels occ val' pending' (db.saveNode d) := by
  have other : ∀ {id s}, id ≠ d.id → db.HasNode id s →
      ¬ (s.key.level = d.loaded.key.level ∧ s.key.index = d.loaded.key.index) := by
    intro id s hne hs hk
    exact hne (h.unique ⟨s, hs, hk.1, hk.2⟩ ⟨d.loaded, hd.1, rfl, rfl⟩)
  refine ⟨?_, ?_, ?_, ?_, ?_⟩
  · intro id₁ id₂ l i h₁ h₂
    exact h.unique (Db.hasKey_saveNode.mp h₁) (Db.hasKey_saveNode.mp h₂)
  · intro l i
    rw [h.occupied l i]
    exact exists_congr fun _ => Db.hasKey_saveNode.symm
  · intro id s hs
    rcases (Db.hasNode_saveNode hd).mp hs with ⟨rfl, rfl⟩ | ⟨hne, hs⟩
    · rw [hd.2, hhash]
    · rw [h.hash hs, hval _ _ (other hne hs)]
  · intro id s hs hlt hp
    rcases (Db.hasNode_saveNode hd).mp hs with ⟨rfl, rfl⟩ | ⟨hne, hs⟩
    · rw [hd.2] at hlt hp ⊢
      obtain ⟨pid, hpid, hk⟩ := hparent hlt hp
      exact ⟨pid, hpid, Db.hasKey_saveNode.mpr hk⟩
    · obtain ⟨pid, hpid, hk⟩ := h.parent hs hlt (fun hq => hp (hpending _ _ (other hne hs) hq))
      exact ⟨pid, hpid, Db.hasKey_saveNode.mpr hk⟩
  · intro id s hs hle
    rcases (Db.hasNode_saveNode hd).mp hs with ⟨rfl, rfl⟩ | ⟨-, hs⟩
    · exact htop (hd.2 ▸ hle)
    · exact h.top hs hle

/-- Creating a node, without links, at a free place. -/
theorem createNode (h : Layout levels occ val pending db) {r : IMerkleTreeNode}
    (hfree : ¬ occ r.key.level r.key.index) (hlink : r.parent = none)
    (hhash : Js.stringToBigInt r.hash = some (val' r.key.level r.key.index))
    (hval : ∀ l i, ¬ (l = r.key.level ∧ i = r.key.index) → val l i = val' l i)
    (hpending : ∀ l i, ¬ (l = r.key.level ∧ i = r.key.index) → pending l i → pending' l i)
    (hnew : r.key.level < levels → pending' r.key.level r.key.index) :
    Layout levels (fun l i => occ l i ∨ (l = r.key.level ∧ i = r.key.index)) val' pending'
      (db.createNode r) := by
  have keyIff : ∀ {id' l i}, (db.createNode r).HasKey id' l i ↔
      db.HasKey id' l i ∨ (id' = db.treeNodes.length ∧ l = r.key.level ∧ i = r.key.index) := by
    intro id' l i
    constructor
    · rintro ⟨s, hs, rfl, rfl⟩
      rcases Db.hasNode_createNode.mp hs with hs | ⟨rfl, rfl⟩
      · exact Or.inl ⟨s, hs, rfl, rfl⟩
      · exact Or.inr ⟨rfl, rfl, rfl⟩
    · rintro (hk | ⟨rfl, rfl, rfl⟩)
      · exact hk.createNode
      · exact ⟨r, Db.hasNode_createNode.mpr (Or.inr ⟨rfl, rfl⟩), rfl, rfl⟩
  have free : ∀ {id'}, ¬ db.HasKey id' r.key.level r.key.index :=
    fun hk => hfree ((h.occupied _ _).mpr ⟨_, hk⟩)
  have other : ∀ {id' s}, db.HasNode id' s →
      ¬ (s.key.level = r.key.level ∧ s.key.index = r.key.index) :=
    fun hs hk => free ⟨_, hs, hk.1, hk.2⟩
  refine ⟨?_, ?_, ?_, ?_, ?_⟩
  · intro id₁ id₂ l i h₁ h₂
    rcases keyIff.mp h₁ with h₁ | ⟨e₁, rfl, rfl⟩
    · rcases keyIff.mp h₂ with h₂ | ⟨-, rfl, rfl⟩
      · exact h.unique h₁ h₂
      · exact absurd h₁ free
    · rcases keyIff.mp h₂ with h₂ | ⟨e₂, -, -⟩
      · exact absurd h₂ free
      · rw [e₁, e₂]
  · intro l i
    simp only [keyIff, h.occupied l i, exists_or, exists_and_right, exists_eq, true_and]
  · intro id' s hs
    rcases Db.hasNode_createNode.mp hs with hs | ⟨-, rfl⟩
    · rw [h.hash hs, hval _ _ (other hs)]
    · exact hhash
  · intro id' s hs hlt hp
    rcases Db.hasNode_createNode.mp hs with hs | ⟨-, rfl⟩
    · obtain ⟨pid, hpid, hk⟩ := h.parent hs hlt (fun hq => hp (hpending _ _ (other hs) hq))
      exact ⟨pid, hpid, hk.createNode⟩
    · exact absurd (hnew hlt) hp
  · intro id' s hs hle
    rcases Db.hasNode_createNode.mp hs with hs | ⟨-, rfl⟩
    · exact h.top hs hle
    · exact hlink

end Layout

end ZkChat
