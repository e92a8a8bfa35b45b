import ZkChat.Server.TreeLayout

set_option autoImplicit false

/-! # Appending a leaf

`appendLevels` climbs from a new leaf to the root. `Walk` is its loop invariant at level `l`: up to
`l` the tree is the one with the new leaf, above `l` it is still the old one, and the node in hand
is the one on the new leaf's path. One iteration moves it one level up (`Walk.appendLeft`,
`Walk.appendRight`), so the whole loop ends in a tree at rest (`TreeInv`) with one leaf more.

Whether the cached sibling hashes are right is tracked beside it, relative to a set `stale` of
nodes where nothing is known: an append never relies on a cached hash, and leaves every one right
that was right. -/

namespace ZkChat

open HashTree

/-- The node hash, on integers. -/
def pairHash (poseidon : List ℤ → ℤ) (a b : ℤ) : ℤ := poseidon [a, b]

/-- A linear stand-in for the hash in concrete runs. -/
def sumHash (xs : List ℤ) : ℤ := 3 * xs.sum + 5 * xs.headD 0 + 7

/-- Except at `stale` places, the sibling hash cached in a node below the top denotes `sib`. -/
def Caches (levels : ℕ) (sib : ℕ → ℕ → ℤ) (stale : ℕ → ℕ → Prop) (db : Db) : Prop :=
  ∀ id r, db.HasNode id r → r.key.level < levels → ¬ stale r.key.level r.key.index →
    ∃ h, r.siblingHash = some h ∧ Js.stringToBigInt h = some (sib r.key.level r.key.index)

namespace Caches

variable {levels : ℕ} {sib sib' : ℕ → ℕ → ℤ} {stale stale' : ℕ → ℕ → Prop} {db : Db}
  {occ : ℕ → ℕ → Prop} {val : ℕ → ℕ → ℤ} {pending : ℕ → ℕ → Prop}

theorem mono (h : Caches levels sib stale db)
    (hsib : ∀ l i, l < levels → ¬ stale' l i → sib l i = sib' l i)
    (hstale : ∀ l i, l < levels → stale l i → stale' l i) : Caches levels sib' stale' db := by
  intro id r hr hlt hs
  obtain ⟨x, hx, hv⟩ := h id r hr hlt (fun hq => hs (hstale _ _ hlt hq))
  exact ⟨x, hx, by rw [hv, hsib _ _ hlt hs]⟩

theorem saveNode (h : Caches levels sib stale db) (hlay : Layout levels occ val pending db)
    {d : NodeDoc} (hd : db.InStep d)
    (hnew : d.loaded.key.level < levels → ¬ stale' d.loaded.key.level d.loaded.key.index →
      ∃ x, d.cur.siblingHash = some x ∧
        Js.stringToBigInt x = some (sib' d.loaded.key.level d.loaded.key.index))
    (hsib : ∀ l i, occ l i → ¬ (l = d.loaded.key.level ∧ i = d.loaded.key.index) →
      ¬ stale' l i → sib l i = sib' l i)
    (hstale : ∀ l i, ¬ (l = d.loaded.key.level ∧ i = d.loaded.key.index) →
      stale l i → stale' l i) :
    Caches levels sib' stale' (db.saveNode d) := by
  intro id s hs hlt hns
  rcases (Db.hasNode_saveNode hd).mp hs with ⟨rfl, rfl⟩ | ⟨hne, hs⟩
  · rw [hd.2] at hlt hns ⊢
    exact hnew hlt hns
  · have hother : ¬ (s.key.level = d.loaded.key.level ∧ s.key.index = d.loaded.key.index) :=
      fun hk => hne (hlay.unique ⟨s, hs, hk.1, hk.2⟩ ⟨d.loaded, hd.1, rfl, rfl⟩)
    obtain ⟨x, hx, hv⟩ := h id s hs hlt (fun hq => hns (hstale _ _ hother hq))
    exact ⟨x, hx, by rw [hv, hsib _ _ (hlay.occ_of_hasNode hs) hother hns]⟩

theorem createNode (h : Caches levels sib stale db) {r : IMerkleTreeNode}
    (hnew : r.key.level < levels → stale' r.key.level r.key.index)
    (hsib : ∀ l i, l < levels → ¬ stale' l i → sib l i = sib' l i)
    (hstale : ∀ l i, l < levels → stale l i → stale' l i) :
    Caches levels sib' stale' (db.createNode r) := by
  intro id s hs hlt hns
  rcases Db.hasNode_createNode.mp hs with hs | ⟨-, rfl⟩
  · exact h.mono hsib hstale id s hs hlt hns
  · exact absurd (hnew hlt) hns

end Caches

/-! ## The tree at rest -/

/-- The zero row of a level. -/
def zeroRow (poseidon : List ℤ → ℤ) (zeroValue : ℤ) (l : ℕ) : IMerkleTreeZero :=
  { level := l, hash := Js.bigIntToString (zeroHash (pairHash poseidon) zeroValue l) }

/-- The zero hashes are seeded for all levels. -/
def Seeded (poseidon : List ℤ → ℤ) (config : IZKServerConfig) (db : Db) : Prop :=
  db.treeZeros = (List.range config.merkleTreeLevels).map (zeroRow poseidon config.zeroValue)

/-- Where a tree with `n` leaves has nodes. -/
def shape (levels n l i : ℕ) : Prop := l ≤ levels ∧ i * 2 ^ l < n

/-- A stored tree at rest: `n` leaves with the values `leaf`, zero values after them, and every
    node's hash denotes the node of the complete tree over `leaf`. The cached sibling hashes are
    right outside `stale`. -/
structure TreeInv (poseidon : List ℤ → ℤ) (config : IZKServerConfig) (n : ℕ) (leaf : ℕ → ℤ)
    (stale : ℕ → ℕ → Prop) (db : Db) : Prop where
  layout : Layout config.merkleTreeLevels (shape config.merkleTreeLevels n)
    (subtree (pairHash poseidon) leaf) (fun _ _ => False) db
  caches : Caches config.merkleTreeLevels
    (fun l i => subtree (pairHash poseidon) leaf l (siblingIndex i)) stale db
  count : db.getTotalNumberOfLeaves = n
  room : n ≤ 2 ^ config.merkleTreeLevels
  beyond : ∀ j, n ≤ j → leaf j = config.zeroValue
  seeded : Seeded poseidon config db

/-! ## The walk -/

/-- The values of a tree whose leaf `j` was changed, once the path is up to date up to level `l`. -/
def walkVal (H : ℤ → ℤ → ℤ) (leaf leaf' : ℕ → ℤ) (j l k i : ℕ) : ℤ :=
  if k ≤ l ∧ i = j / 2 ^ k then subtree H leaf' k i else subtree H leaf k i

/-- Where there are nodes when leaf `n` is new and its path has been laid up to level `l`. -/
def walkOcc (levels n l k i : ℕ) : Prop := shape levels n k i ∨ (k ≤ l ∧ i = n / 2 ^ k)

/-- What the cached sibling hashes denote at that moment. -/
def walkSib (H : ℤ → ℤ → ℤ) (leaf leaf' : ℕ → ℤ) (l k i : ℕ) : ℤ :=
  if k < l then subtree H leaf' k (siblingIndex i) else subtree H leaf k (siblingIndex i)

/-- The node on the path of leaf `j` at level `l`. -/
def onPath (j l k i : ℕ) : Prop := k = l ∧ i = j / 2 ^ l

/-- The invariant of the append loop before level `l`. -/
structure Walk (H : ℤ → ℤ → ℤ) (levels n l : ℕ) (leaf leaf' : ℕ → ℤ) (stale : ℕ → ℕ → Prop)
    (d : NodeDoc) (db : Db) : Prop where
  layout : Layout levels (walkOcc levels n l) (walkVal H leaf leaf' n l) (onPath n l) db
  caches : Caches levels (walkSib H leaf leaf' l) (fun k i => stale k i ∨ onPath n l k i) db
  stored : db.HasNode d.id d.cur
  synced : d.loaded = d.cur
  level : d.cur.key.level = l
  index : d.cur.key.index = n / 2 ^ l

theorem div_pow_succ (n l : ℕ) : n / 2 ^ l / 2 = n / 2 ^ (l + 1) := by
  rw [Nat.div_div_eq_div_mul, ← pow_succ]

theorem walkVal_succ_of_ne {H : ℤ → ℤ → ℤ} {leaf leaf' : ℕ → ℤ} {j l k i : ℕ}
    (h : ¬ (k = l + 1 ∧ i = j / 2 ^ (l + 1))) :
    walkVal H leaf leaf' j l k i = walkVal H leaf leaf' j (l + 1) k i := by
  have hiff : (k ≤ l ∧ i = j / 2 ^ k) ↔ (k ≤ l + 1 ∧ i = j / 2 ^ k) := by
    constructor
    · exact fun ⟨hk, hi⟩ => ⟨by omega, hi⟩
    · rintro ⟨hk, hi⟩
      refine ⟨?_, hi⟩
      by_contra hlt
      obtain rfl : k = l + 1 := by omega
      exact h ⟨rfl, hi⟩
  simp only [walkVal, hiff]

@[simp] theorem walkVal_self {H : ℤ → ℤ → ℤ} {leaf leaf' : ℕ → ℤ} {j l : ℕ} :
    walkVal H leaf leaf' j l l (j / 2 ^ l) = subtree H leaf' l (j / 2 ^ l) := by
  simp [walkVal]

theorem walkOcc_succ {levels n l k i : ℕ} :
    walkOcc levels n (l + 1) k i ↔ walkOcc levels n l k i ∨ (k = l + 1 ∧ i = n / 2 ^ (l + 1)) := by
  unfold walkOcc
  constructor
  · rintro (h | ⟨hk, hi⟩)
    · exact Or.inl (Or.inl h)
    · by_cases hkl : k ≤ l
      · exact Or.inl (Or.inr ⟨hkl, hi⟩)
      · obtain rfl : k = l + 1 := by omega
        exact Or.inr ⟨rfl, hi⟩
  · rintro ((h | ⟨hk, hi⟩) | ⟨rfl, hi⟩)
    · exact Or.inl h
    · exact Or.inr ⟨by omega, hi⟩
    · exact Or.inr ⟨le_rfl, hi⟩

/-- When the walk has reached the top there are the nodes of one leaf more. -/
theorem walkOcc_top {levels n k i : ℕ} :
    walkOcc levels n levels k i ↔ shape levels (n + 1) k i := by
  have hle : i ≤ n / 2 ^ k ↔ i * 2 ^ k ≤ n := Nat.le_div_iff_mul_le (Nat.two_pow_pos k)
  have hdiv := Nat.div_mul_le_self n (2 ^ k)
  unfold walkOcc shape
  constructor
  · rintro (⟨hk, hi⟩ | ⟨hk, rfl⟩)
    · exact ⟨hk, by omega⟩
    · exact ⟨hk, by omega⟩
  · rintro ⟨hk, hi⟩
    rcases Nat.lt_or_ge (i * 2 ^ k) n with hlt | hge
    · exact Or.inl ⟨hk, hlt⟩
    · refine Or.inr ⟨hk, ?_⟩
      rw [show n = i * 2 ^ k by omega, Nat.mul_div_cancel _ (Nat.two_pow_pos k)]

/-- Before leaf `n` is added, the left sibling of a right node on its path is there: its leaves come
    before leaf `n`. -/
theorem shape_sibling_of_odd {levels n l : ℕ} (hle : l ≤ levels) (hodd : n / 2 ^ l % 2 ≠ 0) :
    shape levels n l (n / 2 ^ l - 1) := by
  refine ⟨hle, ?_⟩
  have hpos : n / 2 ^ l ≠ 0 := fun h => hodd (by rw [h])
  have := Nat.div_mul_le_self n (2 ^ l)
  have := Nat.two_pow_pos l
  have : (n / 2 ^ l - 1) * 2 ^ l + 2 ^ l = n / 2 ^ l * 2 ^ l := by
    rw [← Nat.succ_mul, Nat.succ_eq_add_one, Nat.sub_one_add_one hpos]
  omega

/-- So is the parent of the two. -/
theorem shape_parent_of_odd {levels n l : ℕ} (hlt : l < levels) (hodd : n / 2 ^ l % 2 ≠ 0) :
    shape levels n (l + 1) (n / 2 ^ (l + 1)) := by
  refine ⟨hlt, ?_⟩
  have half : ∀ c : ℕ, c % 2 ≠ 0 → c / 2 * 2 = c - 1 := fun c hc => by omega
  rw [← div_pow_succ, pow_succ, mul_comm (2 ^ l), ← mul_assoc, half _ hodd]
  exact (shape_sibling_of_odd hlt.le hodd).2

/-- Away from the sibling of the node on the path, the caches of a level do not move when the walk
    passes it. -/
theorem walkSib_succ_of_ne {H : ℤ → ℤ → ℤ} {leaf : ℕ → ℤ} {v : ℤ} {n l k i : ℕ}
    (h : ¬ (k = l ∧ i = siblingIndex (n / 2 ^ l))) :
    walkSib H leaf (Function.update leaf n v) l k i
      = walkSib H leaf (Function.update leaf n v) (l + 1) k i := by
  unfold walkSib
  by_cases hk : k < l
  · rw [if_pos hk, if_pos (by omega)]
  · rw [if_neg hk]
    split
    · obtain rfl : k = l := by omega
      rw [subtree_update_of_ne]
      intro hi
      exact h ⟨rfl, by rw [← hi, siblingIndex_siblingIndex]⟩
    · rfl

section Run

variable {poseidon : List ℤ → ℤ} {levels n l : ℕ} {leaf : ℕ → ℤ} {v z : ℤ}
  {stale : ℕ → ℕ → Prop} {d : NodeDoc} {db : Db}

@[simp] theorem run_save (d : NodeDoc) (db : Db) :
    (MerkleTreeNode.save d).run db = (.ok { d with loaded := d.cur }, db.saveNode d) := rfl

@[simp] theorem run_create (r : IMerkleTreeNode) (db : Db) :
    (MerkleTreeNode.create r).run db
      = (.ok ⟨db.treeNodes.length, r, r⟩, db.createNode r) := rfl

@[simp] theorem run_findByLevelAndIndex (l i : ℕ) (db : Db) :
    (MerkleTreeNode.findByLevelAndIndex l i).run db = (.ok (db.findByLevelAndIndex l i), db) := rfl

theorem hashPair_ok {a b : String} {x y : ℤ} (ha : Js.stringToBigInt a = some x)
    (hb : Js.stringToBigInt b = some y) :
    UserService.hashPair poseidon a b = .ok (Js.bigIntToString (pairHash poseidon x y)) := by
  simp only [UserService.hashPair, Js.bigIntOfText, ha, hb]
  rfl

section Iteration

variable {zeros : List IMerkleTreeZero} {zero : IMerkleTreeZero} {groupId : String} {l i : ℕ}
  {s p : NodeDoc} {x : String}

/-- A left node whose parent is there. -/
theorem run_appendLeft_found (hzero : zeros[l]? = some zero)
    (hhash : UserService.hashPair poseidon d.cur.hash zero.hash = .ok x)
    (hp : db.findByLevelAndIndex (l + 1) (i / 2) = some p) :
    (UserService.appendLeft poseidon zeros groupId l i d).run db
      = (.ok { p.setHash x with loaded := (p.setHash x).cur },
          (db.saveNode (p.setHash x)).saveNode
            ((d.setSiblingHash zero.hash).setParent (p.setHash x))) := by
  simp only [UserService.appendLeft, hzero]
  rw [Prog.run_bind_of_ok (run_findByLevelAndIndex _ _ _), hp]
  exact Prog.run_bind_of_ok (by rw [Prog.run_ofExcept]; exact congrArg (·, db) hhash)

/-- A left node whose parent is missing. -/
theorem run_appendLeft_created {r : IMerkleTreeNode} (hzero : zeros[l]? = some zero)
    (hhash : UserService.hashPair poseidon d.cur.hash zero.hash = .ok x)
    (hp : db.findByLevelAndIndex (l + 1) (i / 2) = none)
    (hr : r = { key := { groupId, level := l + 1, index := i / 2, indexInGroup := -1 }
                hash := x }) :
    (UserService.appendLeft poseidon zeros groupId l i d).run db
      = (.ok ⟨db.treeNodes.length, r, r⟩, (db.createNode r).saveNode
          ((d.setSiblingHash zero.hash).setParent ⟨db.treeNodes.length, r, r⟩)) := by
  subst hr
  simp only [UserService.appendLeft, hzero]
  rw [Prog.run_bind_of_ok (run_findByLevelAndIndex _ _ _), hp]
  exact Prog.run_bind_of_ok (by rw [Prog.run_ofExcept]; exact congrArg (·, db) hhash)

/-- A right node whose sibling and parent are there. -/
theorem run_appendRight (hs : db.findByLevelAndIndex l (i - 1) = some s)
    (hhash : UserService.hashPair poseidon s.cur.hash d.cur.hash = .ok x)
    (hp : db.findByLevelAndIndex (l + 1) (i / 2) = some p) :
    (UserService.appendRight poseidon l i d).run db
      = (.ok { p.setHash x with loaded := (p.setHash x).cur },
          ((db.saveNode ((d.setSiblingHash s.cur.hash).setParent (p.setHash x))).saveNode
            (p.setHash x)).saveNode (s.setSiblingHash d.cur.hash)) := by
  simp only [UserService.appendRight]
  rw [Prog.run_bind_of_ok (run_findByLevelAndIndex _ _ _), hs]
  simp only
  rw [Prog.run_bind_of_ok (run_findByLevelAndIndex _ _ _),
    Prog.run_bind_of_ok (by rw [Prog.run_ofExcept]; exact congrArg (·, db) hhash), hp]
  rfl

/-- A left node whose hashes are not both integers. -/
theorem run_appendLeft_error {e : Exn} (hzero : zeros[l]? = some zero)
    (hhash : UserService.hashPair poseidon d.cur.hash zero.hash = .error e) :
    (UserService.appendLeft poseidon zeros groupId l i d).run db = (.error e, db) := by
  simp only [UserService.appendLeft, hzero]
  rw [Prog.run_bind_of_ok (run_findByLevelAndIndex _ _ _)]
  exact Prog.run_bind_of_error (by rw [Prog.run_ofExcept]; exact congrArg (·, db) hhash)

/-- A right node whose hashes are not both integers. -/
theorem run_appendRight_error {e : Exn} (hs : db.findByLevelAndIndex l (i - 1) = some s)
    (hhash : UserService.hashPair poseidon s.cur.hash d.cur.hash = .error e) :
    (UserService.appendRight poseidon l i d).run db = (.error e, db) := by
  simp only [UserService.appendRight]
  rw [Prog.run_bind_of_ok (run_findByLevelAndIndex _ _ _), hs]
  simp only
  rw [Prog.run_bind_of_ok (run_findByLevelAndIndex _ _ _)]
  exact Prog.run_bind_of_error (by rw [Prog.run_ofExcept]; exact congrArg (·, db) hhash)

/-- A left node that fails has written nothing. -/
theorem appendLeft_cases (poseidon : List ℤ → ℤ) (zeros : List IMerkleTreeZero) (groupId : String)
    (l i : ℕ) (d : NodeDoc) (db : Db) :
    (∃ e, (UserService.appendLeft poseidon zeros groupId l i d).run db = (.error e, db)) ∨
    ∃ zero x, zeros[l]? = some zero ∧
      UserService.hashPair poseidon d.cur.hash zero.hash = .ok x := by
  cases hzero : zeros[l]? with
  | none =>
      refine Or.inl ⟨.typeError, ?_⟩
      simp only [UserService.appendLeft, hzero]
      rfl
  | some zero =>
      cases hhash : UserService.hashPair poseidon d.cur.hash zero.hash with
      | ok x => exact Or.inr ⟨zero, x, rfl, hhash⟩
      | error e => exact Or.inl ⟨e, run_appendLeft_error hzero hhash⟩

/-- Neither has a right node. -/
theorem appendRight_cases (poseidon : List ℤ → ℤ) (l i : ℕ) (d : NodeDoc) (db : Db) :
    (∃ e, (UserService.appendRight poseidon l i d).run db = (.error e, db)) ∨
    ∃ s x p, db.findByLevelAndIndex l (i - 1) = some s ∧
      UserService.hashPair poseidon s.cur.hash d.cur.hash = .ok x ∧
      db.findByLevelAndIndex (l + 1) (i / 2) = some p := by
  cases hs : db.findByLevelAndIndex l (i - 1) with
  | none =>
      refine Or.inl ⟨.typeError, ?_⟩
      simp only [UserService.appendRight]
      rw [Prog.run_bind_of_ok (run_findByLevelAndIndex _ _ _), hs]
      rfl
  | some s =>
      cases hhash : UserService.hashPair poseidon s.cur.hash d.cur.hash with
      | error e => exact Or.inl ⟨e, run_appendRight_error hs hhash⟩
      | ok x =>
          cases hp : db.findByLevelAndIndex (l + 1) (i / 2) with
          | some p => exact Or.inr ⟨s, x, p, rfl, hhash, rfl⟩
          | none =>
              refine Or.inl ⟨.typeError, ?_⟩
              simp only [UserService.appendRight]
              rw [Prog.run_bind_of_ok (run_findByLevelAndIndex _ _ _), hs]
              simp only
              rw [Prog.run_bind_of_ok (run_findByLevelAndIndex _ _ _),
                Prog.run_bind_of_ok (by rw [Prog.run_ofExcept]; exact congrArg (·, db) hhash), hp]
              rfl

end Iteration

/-- The hash of the node in hand is up to date. -/
theorem Walk.hash {H : ℤ → ℤ → ℤ} {leaf' : ℕ → ℤ} (hw : Walk H levels n l leaf leaf' stale d db) :
    Js.stringToBigInt d.cur.hash = some (subtree H leaf' l (n / 2 ^ l)) := by
  rw [hw.layout.hash hw.stored, hw.level, hw.index, walkVal_self]

/-- A document in hand stays in step under assignments to its hash and links. -/
theorem Walk.inStep {H : ℤ → ℤ → ℤ} {leaf' : ℕ → ℤ} (hw : Walk H levels n l leaf leaf' stale d db)
    {d' : NodeDoc} (hid : d'.id = d.id) (hloaded : d'.loaded = d.loaded)
    (hkey : d'.cur.key = d.cur.key) : db.InStep d' := by
  refine ⟨?_, ?_⟩
  · rw [hid, hloaded, hw.synced]; exact hw.stored
  · rw [hkey, hloaded, hw.synced]

/-- The walk when the parent of the node `d` in hand is in place, as document `p`, and `d` is not
    linked to it yet. -/
structure Placed (H : ℤ → ℤ → ℤ) (levels n l : ℕ) (leaf leaf' : ℕ → ℤ) (stale : ℕ → ℕ → Prop)
    (d p : NodeDoc) (db : Db) : Prop where
  layout : Layout levels (walkOcc levels n (l + 1)) (walkVal H leaf leaf' n (l + 1))
    (fun k i => onPath n l k i ∨ onPath n (l + 1) k i) db
  caches : Caches levels (walkSib H leaf leaf' l)
    (fun k i => stale k i ∨ onPath n l k i ∨ onPath n (l + 1) k i) db
  node : db.InStep d ∧ d.loaded.key.level = l ∧ d.loaded.key.index = n / 2 ^ l
  stored : db.HasNode p.id p.cur
  synced : p.loaded = p.cur
  level : p.cur.key.level = l + 1
  index : p.cur.key.index = n / 2 ^ (l + 1)

section Step

variable {H : ℤ → ℤ → ℤ} {leaf' : ℕ → ℤ} {p : NodeDoc} {x : String}

theorem Walk.inStep_key (hw : Walk H levels n l leaf leaf' stale d db) :
    d.loaded.key.level = l ∧ d.loaded.key.index = n / 2 ^ l := by
  rw [hw.synced]
  exact ⟨hw.level, hw.index⟩

/-- The parent exists and is given the new hash. -/
theorem Walk.placed_of_save (hw : Walk H levels n l leaf leaf' stale d db)
    (hfound : db.findByLevelAndIndex (l + 1) (n / 2 ^ (l + 1)) = some p)
    (hx : Js.stringToBigInt x = some (subtree H leaf' (l + 1) (n / 2 ^ (l + 1)))) :
    Placed H levels n l leaf leaf' stale d { p.setHash x with loaded := (p.setHash x).cur }
      (db.saveNode (p.setHash x)) := by
  obtain ⟨hp, hpsync, hplevel, hpindex⟩ := Db.findByLevelAndIndex_eq_some hfound
  have hstep : db.InStep (p.setHash x) := ⟨by show db.HasNode p.id p.loaded; rwa [hpsync],
    by show p.cur.key = p.loaded.key; rw [hpsync]⟩
  have hlevel : (p.setHash x).loaded.key.level = l + 1 := by
    show p.loaded.key.level = _; rw [hpsync, hplevel]
  have hindex : (p.setHash x).loaded.key.index = n / 2 ^ (l + 1) := by
    show p.loaded.key.index = _; rw [hpsync, hpindex]
  have hne : d.id ≠ p.id := hw.stored.id_ne hp (Or.inl (by rw [hw.level, hplevel]; omega))
  refine ⟨?_, ?_, ⟨⟨?_, (hw.inStep rfl rfl rfl).2⟩, hw.inStep_key⟩,
    Db.hasNode_saveNode_self hstep, rfl, hplevel, hpindex⟩
  · refine (hw.layout.saveNode hstep ?_ ?_ ?_ ?_ ?_).congr ?_ (fun _ _ _ => rfl)
      (fun _ _ _ _ => id)
    · rw [hlevel, hindex, walkVal_self]
      exact hx
    · intro k i hk
      rw [hlevel, hindex] at hk
      exact walkVal_succ_of_ne hk
    · intro _ hns
      exact absurd (Or.inr ⟨hlevel, hindex⟩) hns
    · rw [hlevel, ← hplevel]
      exact hw.layout.top hp
    · exact fun _ _ _ h => Or.inl h
    · intro k i
      rw [walkOcc_succ, iff_self_or]
      rintro ⟨rfl, rfl⟩
      have := hw.layout.occ_of_hasNode hp
      rwa [hplevel, hpindex] at this
  · refine hw.caches.saveNode hw.layout hstep ?_ (fun _ _ _ _ _ => rfl) ?_
    · intro _ hns
      exact absurd (Or.inr (Or.inr ⟨hlevel, hindex⟩)) hns
    · rintro k i - (hs | hs)
      · exact Or.inl hs
      · exact Or.inr (Or.inl hs)
  · rw [hw.synced]
    exact hw.stored.saveNode hstep hne

/-- The parent does not exist and is created. -/
theorem Walk.placed_of_create (hw : Walk H levels n l leaf leaf' stale d db)
    (hfound : db.findByLevelAndIndex (l + 1) (n / 2 ^ (l + 1)) = none)
    (hx : Js.stringToBigInt x = some (subtree H leaf' (l + 1) (n / 2 ^ (l + 1)))) (groupId : String)
    {r : IMerkleTreeNode}
    (hr : r = { key := { groupId, level := l + 1, index := n / 2 ^ (l + 1), indexInGroup := -1 }
                hash := x }) :
    Placed H levels n l leaf leaf' stale d ⟨db.treeNodes.length, r, r⟩ (db.createNode r) := by
  have hnocc := hw.layout.not_occ_of_find hfound
  have hlevel : r.key.level = l + 1 := by rw [hr]
  have hindex : r.key.index = n / 2 ^ (l + 1) := by rw [hr]
  refine ⟨?_, ?_, ⟨⟨?_, (hw.inStep rfl rfl rfl).2⟩, hw.inStep_key⟩,
    Db.hasNode_createNode.mpr (Or.inr ⟨rfl, rfl⟩), rfl, hlevel, hindex⟩
  · refine (hw.layout.createNode (by rwa [hlevel, hindex]) (by rw [hr]) ?_ ?_ ?_ ?_).congr ?_
      (fun _ _ _ => rfl) (fun _ _ _ _ => id)
    · rw [hlevel, hindex, walkVal_self, hr]
      exact hx
    · intro k i hk
      rw [hlevel, hindex] at hk
      exact walkVal_succ_of_ne hk
    · exact fun _ _ _ h => Or.inl h
    · exact fun _ => Or.inr ⟨hlevel, hindex⟩
    · intro k i
      rw [walkOcc_succ, hlevel, hindex]
  · refine hw.caches.createNode ?_ (fun _ _ _ _ => rfl) ?_
    · exact fun _ => Or.inr (Or.inr ⟨hlevel, hindex⟩)
    · rintro k i - (hs | hs)
      · exact Or.inl hs
      · exact Or.inr (Or.inl hs)
  · rw [hw.synced]
    exact Db.hasNode_createNode.mpr (Or.inl hw.stored)

/-- Linking the node in hand to its parent ends the iteration; its sibling, if there is one, is
    left with a cached hash that may be out of date. -/
theorem Placed.link {v : ℤ} (hpl : Placed H levels n l leaf (Function.update leaf n v) stale d p db)
    (hlt : l < levels)
    (hx : Js.stringToBigInt x
      = some (subtree H (Function.update leaf n v) l (siblingIndex (n / 2 ^ l))))
    (hfree : walkOcc levels n (l + 1) l (siblingIndex (n / 2 ^ l)) →
      stale l (siblingIndex (n / 2 ^ l)))
    (hparent : d.cur.parent = some p.id) (hsibling : d.cur.siblingHash = some x)
    (hhash : d.cur.hash = d.loaded.hash) :
    Walk H levels n (l + 1) leaf (Function.update leaf n v) stale p (db.saveNode d) := by
  obtain ⟨hd, hlevel, hindex⟩ := hpl.node
  have hne : p.id ≠ d.id :=
    hpl.stored.id_ne hd.1 (Or.inl (by rw [hpl.level, hlevel]; omega))
  refine ⟨?_, ?_, hpl.stored.saveNode hd hne, hpl.synced, hpl.level, hpl.index⟩
  · refine hpl.layout.saveNode hd ?_ (fun _ _ _ => rfl) ?_ ?_ ?_
    · rw [hhash]
      exact hpl.layout.hash hd.1
    · intro _ _
      refine ⟨p.id, hparent, p.cur, hpl.stored, ?_, ?_⟩
      · rw [hlevel, hpl.level]
      · rw [hindex, hpl.index, div_pow_succ]
    · intro hle
      omega
    · rintro k i hne' (⟨rfl, rfl⟩ | hp)
      · exact absurd ⟨hlevel.symm, hindex.symm⟩ hne'
      · exact hp
  · refine hpl.caches.saveNode hpl.layout hd ?_ ?_ ?_
    · intro _ _
      refine ⟨x, hsibling, ?_⟩
      rw [hx, hlevel, hindex, walkSib, if_pos (by omega)]
    · intro k i hocc _ hns
      refine walkSib_succ_of_ne ?_
      rintro ⟨rfl, rfl⟩
      exact hns (Or.inl (hfree hocc))
    · rintro k i hne' (hs | ⟨rfl, rfl⟩ | hp)
      · exact Or.inl hs
      · exact absurd ⟨hlevel.symm, hindex.symm⟩ hne'
      · exact Or.inr hp

end Step

/-- One iteration at a left node. -/
theorem Walk.appendLeft {zeros : List IMerkleTreeZero} {groupId : String} {zero : IMerkleTreeZero}
    (hw : Walk (pairHash poseidon) levels n l leaf (Function.update leaf n v) stale d db)
    (hlt : l < levels) (heven : n / 2 ^ l % 2 = 0) (hzero : zeros[l]? = some zero)
    (hz : Js.stringToBigInt zero.hash = some (zeroHash (pairHash poseidon) z l))
    (hbeyond : ∀ j, n ≤ j → leaf j = z) :
    ∃ d' db', (UserService.appendLeft poseidon zeros groupId l (n / 2 ^ l) d).run db = (.ok d', db')
      ∧ Walk (pairHash poseidon) levels n (l + 1) leaf (Function.update leaf n v) stale d' db' := by
  set H := pairHash poseidon
  set leaf' := Function.update leaf n v with hleaf'
  -- nothing is stored to the right of the path
  have hsibling : subtree H leaf' l (siblingIndex (n / 2 ^ l)) = zeroHash H z l := by
    refine subtree_eq_zeroHash fun j hj => ?_
    rw [siblingIndex, if_pos heven] at hj
    have hne : j ≠ n := by rintro rfl; omega
    have hle : n ≤ j := by
      by_contra hlt'
      have := Nat.div_le_div_right (c := 2 ^ l) (by omega : j ≤ n)
      omega
    rw [hleaf', Function.update_of_ne hne, hbeyond j hle]
  have hfree : ¬ walkOcc levels n (l + 1) l (siblingIndex (n / 2 ^ l)) := by
    rw [siblingIndex, if_pos heven]
    rintro (⟨-, hocc⟩ | ⟨-, hocc⟩)
    · have := Nat.lt_div_mul_add (a := n) (Nat.two_pow_pos l)
      rw [Nat.add_mul, Nat.one_mul] at hocc
      omega
    · omega
  have hhash : UserService.hashPair poseidon d.cur.hash zero.hash
      = .ok (Js.bigIntToString (subtree H leaf' (l + 1) (n / 2 ^ (l + 1)))) := by
    rw [hashPair_ok hw.hash hz, ← div_pow_succ, subtree_parent_of_even heven, hsibling]
  set x := Js.bigIntToString (subtree H leaf' (l + 1) (n / 2 ^ (l + 1))) with hx
  have hxval : Js.stringToBigInt x = some (subtree H leaf' (l + 1) (n / 2 ^ (l + 1))) :=
    Js.stringToBigInt_bigIntToString _
  -- the node in hand only gets its cache and its link
  have finish : ∀ {p db₁}, Placed H levels n l leaf leaf' stale d p db₁ →
      Walk H levels n (l + 1) leaf leaf' stale p
        (db₁.saveNode ((d.setSiblingHash zero.hash).setParent p)) := by
    intro p db₁ hpl
    refine Placed.link (x := zero.hash) ⟨hpl.layout, hpl.caches, ?_, hpl.stored, hpl.synced,
      hpl.level, hpl.index⟩ hlt (hz.trans (congrArg some hsibling.symm)) (absurd · hfree) rfl rfl
      (congrArg (·.hash) hw.synced.symm)
    exact ⟨⟨hpl.node.1.1, hpl.node.1.2⟩, hpl.node.2⟩
  cases hfound : db.findByLevelAndIndex (l + 1) (n / 2 ^ (l + 1)) with
  | some p =>
      exact ⟨_, _, run_appendLeft_found hzero hhash (by rwa [div_pow_succ]),
        finish (hw.placed_of_save hfound hxval)⟩
  | none =>
      refine ⟨_, _, run_appendLeft_created hzero hhash (by rwa [div_pow_succ]) rfl,
        finish (hw.placed_of_create hfound hxval groupId ?_)⟩
      rw [div_pow_succ]

theorem Walk.mono {H : ℤ → ℤ → ℤ} {leaf' : ℕ → ℤ} {stale' : ℕ → ℕ → Prop}
    (hw : Walk H levels n l leaf leaf' stale d db) (h : ∀ k i, stale k i → stale' k i) :
    Walk H levels n l leaf leaf' stale' d db :=
  { hw with
    caches := hw.caches.mono (fun _ _ _ _ => rfl) (fun k i _ hs => hs.imp (h k i) id) }

/-- Giving the left sibling its new cached hash ends the iteration at a right node. -/
theorem Walk.repairSibling {H : ℤ → ℤ → ℤ} {leaf' : ℕ → ℤ} {s : NodeDoc} {x : String}
    (hw : Walk H levels n (l + 1) leaf leaf'
      (fun k i => stale k i ∨ (k = l ∧ i = siblingIndex (n / 2 ^ l))) d db)
    (hlt : l < levels) (hs : db.InStep s) (hlevel : s.loaded.key.level = l)
    (hindex : s.loaded.key.index = siblingIndex (n / 2 ^ l)) (hhash : s.cur.hash = s.loaded.hash)
    (hparent : s.cur.parent = s.loaded.parent) (hsibling : s.cur.siblingHash = some x)
    (hx : Js.stringToBigInt x = some (subtree H leaf' l (n / 2 ^ l))) :
    Walk H levels n (l + 1) leaf leaf' stale d (db.saveNode s) := by
  have hne : d.id ≠ s.id := hw.stored.id_ne hs.1 (Or.inl (by rw [hw.level, hlevel]; omega))
  refine ⟨?_, ?_, hw.stored.saveNode hs hne, hw.synced, hw.level, hw.index⟩
  · refine hw.layout.saveNode hs ?_ (fun _ _ _ => rfl) ?_ ?_ (fun _ _ _ => id)
    · rw [hhash]
      exact hw.layout.hash hs.1
    · rw [hparent]
      exact hw.layout.parent hs.1
    · intro hle
      omega
  · refine hw.caches.saveNode hw.layout hs ?_ (fun _ _ _ _ _ => rfl) ?_
    · intro _ _
      refine ⟨x, hsibling, ?_⟩
      rw [hx, hlevel, hindex, walkSib, if_pos (by omega), siblingIndex_siblingIndex]
    · rintro k i hne' ((hk | ⟨rfl, rfl⟩) | hp)
      · exact Or.inl hk
      · exact absurd ⟨hlevel.symm, hindex.symm⟩ hne'
      · exact Or.inr hp

/-- The sibling was read before the other two documents are saved. -/
theorem Db.HasNode.inStep_setSiblingHash {s p d : NodeDoc} (hs : db.HasNode s.id s.cur)
    (hsync : s.loaded = s.cur) (hp : db.InStep p) (hd : (db.saveNode p).InStep d)
    (hsp : s.id ≠ p.id) (hsd : s.id ≠ d.id) (x : String) :
    ((db.saveNode p).saveNode d).InStep (s.setSiblingHash x) := by
  refine ⟨?_, congrArg (·.key) hsync.symm⟩
  show Db.HasNode _ s.id s.loaded
  rw [hsync]
  exact (hs.saveNode hp hsp).saveNode hd hsd

/-- One iteration at a right node. -/
theorem Walk.appendRight
    (hw : Walk (pairHash poseidon) levels n l leaf (Function.update leaf n v) stale d db)
    (hlt : l < levels) (hodd : n / 2 ^ l % 2 ≠ 0) :
    ∃ d' db', (UserService.appendRight poseidon l (n / 2 ^ l) d).run db = (.ok d', db')
      ∧ Walk (pairHash poseidon) levels n (l + 1) leaf (Function.update leaf n v) stale d' db' := by
  set H := pairHash poseidon
  set leaf' := Function.update leaf n v with hleaf'
  have hindex : siblingIndex (n / 2 ^ l) = n / 2 ^ l - 1 := if_neg hodd
  have hpos : n / 2 ^ l ≠ 0 := fun h => hodd (by rw [h])
  obtain ⟨s, hs, hsnode, hssync, hslevel, hsindex⟩ :=
    hw.layout.find (Or.inl (shape_sibling_of_odd hlt.le hodd))
  obtain ⟨p, hp, hpnode, hpsync, hplevel, hpindex⟩ :=
    hw.layout.find (Or.inl (shape_parent_of_odd hlt hodd))
  -- the sibling's hash
  have hsval : Js.stringToBigInt s.cur.hash
      = some (subtree H leaf' l (siblingIndex (n / 2 ^ l))) := by
    rw [hw.layout.hash hsnode, hslevel, hsindex, walkVal,
      if_neg (fun h => (Nat.sub_one_lt hpos).ne h.2), ← hindex, hleaf',
      subtree_update_sibling]
  have hhash : UserService.hashPair poseidon s.cur.hash d.cur.hash
      = .ok (Js.bigIntToString (subtree H leaf' (l + 1) (n / 2 ^ (l + 1)))) := by
    rw [hashPair_ok hsval hw.hash, ← div_pow_succ, subtree_parent_of_odd hodd]
  set x := Js.bigIntToString (subtree H leaf' (l + 1) (n / 2 ^ (l + 1))) with hx
  have hxval : Js.stringToBigInt x = some (subtree H leaf' (l + 1) (n / 2 ^ (l + 1))) :=
    Js.stringToBigInt_bigIntToString _
  set cur' := (d.setSiblingHash s.cur.hash).setParent (p.setHash x) with hcur'
  set sib' := s.setSiblingHash d.cur.hash with hsib'
  have hrun := run_appendRight (l := l) (i := n / 2 ^ l) hs hhash (by rwa [div_pow_succ])
  -- the three saves are to different nodes
  have hne_dp : d.id ≠ p.id := hw.stored.id_ne hpnode (Or.inl (by rw [hw.level, hplevel]; omega))
  have hne_sd : s.id ≠ d.id :=
    hsnode.id_ne hw.stored (Or.inr (by rw [hsindex, hw.index]; exact (Nat.sub_one_lt hpos).ne))
  have hne_sp : s.id ≠ p.id := hsnode.id_ne hpnode (Or.inl (by rw [hslevel, hplevel]; omega))
  have hcomm : (db.saveNode cur').saveNode (p.setHash x)
      = (db.saveNode (p.setHash x)).saveNode cur' := Db.saveNode_comm hne_dp
  rw [hrun, hcomm]
  -- link the node as if its sibling's cache did not matter, then repair that cache
  set stale' : ℕ → ℕ → Prop := fun k i => stale k i ∨ (k = l ∧ i = siblingIndex (n / 2 ^ l))
  have hweak : Walk H levels n l leaf leaf' stale' d db := hw.mono fun _ _ => Or.inl
  have hpl := hweak.placed_of_save hp hxval
  have hw' : Walk H levels n (l + 1) leaf leaf' stale'
      { p.setHash x with loaded := (p.setHash x).cur }
      ((db.saveNode (p.setHash x)).saveNode cur') := by
    refine Placed.link (x := s.cur.hash) ⟨hpl.layout, hpl.caches, ?_, hpl.stored, hpl.synced,
      hpl.level, hpl.index⟩ hlt hsval (fun _ => Or.inr ⟨rfl, rfl⟩) rfl rfl
      (congrArg (·.hash) hw.synced.symm)
    exact ⟨⟨hpl.node.1.1, hpl.node.1.2⟩, hpl.node.2⟩
  have hpstep : db.InStep (p.setHash x) := ⟨by show db.HasNode p.id p.loaded; rwa [hpsync],
    congrArg (·.key) hpsync.symm⟩
  have hcur : (db.saveNode (p.setHash x)).InStep cur' := ⟨hpl.node.1.1, hpl.node.1.2⟩
  have hstep := hsnode.inStep_setSiblingHash hssync hpstep hcur hne_sp hne_sd d.cur.hash
  exact ⟨_, _, rfl, hw'.repairSibling hlt hstep ((congrArg (·.key.level) hssync).trans hslevel)
    ((congrArg (·.key.index) hssync).trans (hsindex.trans hindex.symm))
    (congrArg (·.hash) hssync.symm) (congrArg (·.parent) hssync.symm) rfl hw.hash⟩

/-- The zero hash of a level, as `findZeros` returns it. -/
theorem Seeded.zero {config : IZKServerConfig} (h : Seeded poseidon config db)
    (hl : l < config.merkleTreeLevels) :
    ∃ zero, db.treeZeros[l]? = some zero ∧
      Js.stringToBigInt zero.hash = some (zeroHash (pairHash poseidon) config.zeroValue l) := by
  rw [h, List.getElem?_map, List.getElem?_range hl]
  exact ⟨_, rfl, Js.stringToBigInt_bigIntToString _⟩

/-- The loop: from any level the walk reaches the top. -/
theorem Walk.appendLevels {config : IZKServerConfig} {zeros : List IMerkleTreeZero}
    (groupId : String)
    (hzeros : ∀ k < config.merkleTreeLevels, ∃ zero, zeros[k]? = some zero ∧
      Js.stringToBigInt zero.hash = some (zeroHash (pairHash poseidon) config.zeroValue k))
    (hbeyond : ∀ j, n ≤ j → leaf j = config.zeroValue) (k : ℕ)
    (hk : l + k = config.merkleTreeLevels)
    (hw : Walk (pairHash poseidon) config.merkleTreeLevels n l leaf (Function.update leaf n v) stale
      d db) :
    ∃ d' db', (UserService.appendLevels poseidon zeros groupId k l (n / 2 ^ l) d).run db
        = (.ok (), db') ∧
      Walk (pairHash poseidon) config.merkleTreeLevels n config.merkleTreeLevels leaf
        (Function.update leaf n v) stale d' db' := by
  induction k generalizing l d db with
  | zero =>
      obtain rfl : l = config.merkleTreeLevels := by omega
      exact ⟨d, db, rfl, hw⟩
  | succ k ih =>
      have hstep : ∃ d' db',
          (UserService.appendLevel poseidon zeros groupId l (n / 2 ^ l) d).run db = (.ok d', db') ∧
          Walk (pairHash poseidon) config.merkleTreeLevels n (l + 1) leaf (Function.update leaf n v)
            stale d' db' := by
        unfold UserService.appendLevel
        split
        · next heven =>
            obtain ⟨zero, hzero, hz⟩ := hzeros l (by omega)
            exact hw.appendLeft (by omega) heven hzero hz hbeyond
        · next hodd => exact hw.appendRight (by omega) hodd
      obtain ⟨d₁, db₁, hrun, hw₁⟩ := hstep
      obtain ⟨d', db', hrest, hw'⟩ := ih (by omega) hw₁
      refine ⟨d', db', ?_, hw'⟩
      rw [UserService.appendLevels, Prog.run_bind_of_ok hrun, div_pow_succ, hrest]

end Run

end ZkChat
