import ZkChat.Server.Update

set_option autoImplicit false

/-! # The stored tree refines the complete tree

Runs of completed tree operations, one after another, from a freshly seeded store. The abstract
object is the leaf sequence that the stored leaves denote; the tree is right when `getRoot` returns
the root of the complete tree over it (`Db.RootAgrees`). An append always keeps it right. An update
does so when the caches on its path are fresh, which updates themselves do not ensure: they
rewrite hashes on a path without refreshing the copies that the siblings hold. -/

namespace ZkChat

open HashTree Prog UserService

/-! ## The statement -/

/-- The level-0 nodes denote `leaf`, which is zero where there is none. -/
def Db.Leaves (config : IZKServerConfig) (db : Db) (leaf : ℕ → ℤ) : Prop :=
  ∀ i, match db.findByLevelAndIndex 0 i with
    | some node => Js.stringToBigInt node.cur.hash = some (leaf i)
    | none => leaf i = config.zeroValue

/-- `getRoot` returns the root of the complete tree over the stored leaves. -/
def Db.RootAgrees (poseidon : List ℤ → ℤ) (config : IZKServerConfig) (db : Db) : Prop :=
  ∃ leaf s, db.Leaves config leaf ∧ getRoot.run db = (.ok s, db) ∧
    Js.stringToBigInt s = some (root (pairHash poseidon) leaf config.merkleTreeLevels)

/-- An operation on the tree. -/
inductive TreeOp where
  | appendUsers (users : List IGroupMember) (groupId : String)
  | removeUsersByIndexes (indexes : List ℤ) (groupId : String)
  | updateUser (leafHash newValue : String)

namespace TreeOp

variable (poseidon : List ℤ → ℤ) (config : IZKServerConfig)

/-- The state that the completed operation leaves behind. -/
def exec : TreeOp → Db → Db
  | appendUsers users groupId => (UserService.appendUsers poseidon config users groupId).exec
  | removeUsersByIndexes indexes groupId =>
      (UserService.removeUsersByIndexes poseidon config indexes groupId).exec
  | updateUser leafHash newValue => (UserService.updateUser poseidon config leafHash newValue).exec

/-- `BigInt` accepts the values that are to become leaves. -/
def Numeric : TreeOp → Prop
  | appendUsers users _ => ∀ user ∈ users, user.Numeric
  | removeUsersByIndexes _ _ => True
  | updateUser _ newValue => ∃ v, Js.stringToBigInt newValue = some v

/-- The removals of a list, one after another, each start from a fresh path. -/
def RemovesFresh (groupId : String) : List ℤ → Db → Prop
  | [], _ => True
  | index :: indexes, db => ∀ node, db.findLeafByGroupIdAndIndexInGroup groupId index = some node →
      db.FreshPath poseidon config node.cur.hash ∧
        RemovesFresh groupId indexes
          ((UserService.updateUser poseidon config node.cur.hash
            (Js.bigIntToString config.zeroValue)).exec db)

/-- Every leaf that the operation overwrites has fresh caches along its path at that moment. -/
def Fresh : TreeOp → Db → Prop
  | appendUsers _ _, _ => True
  | removeUsersByIndexes indexes groupId, db => RemovesFresh poseidon config groupId indexes db
  | updateUser leafHash _, db => db.FreshPath poseidon config leafHash

end TreeOp

/-- The states reached from a seeded store by operations that satisfy `ok` where they start. -/
inductive TreeRun (poseidon : List ℤ → ℤ) (config : IZKServerConfig) (ok : TreeOp → Db → Prop) :
    Db → Prop
  | seeded {db : Db}
      (h : (seedZeros poseidon config.zeroValue config.merkleTreeLevels).run {} = (.ok (), db)) :
      TreeRun poseidon config ok db
  | op {db : Db} (h : TreeRun poseidon config ok db) (o : TreeOp) (hnum : o.Numeric)
      (hok : ok o db) : TreeRun poseidon config ok (o.exec poseidon config db)

/-! ## A tree at rest agrees -/

section

variable {poseidon : List ℤ → ℤ} {config : IZKServerConfig} {n : ℕ} {leaf : ℕ → ℤ}
  {stale : ℕ → ℕ → Prop} {db : Db}

theorem TreeInv.leaves (h : TreeInv poseidon config n leaf stale db) : db.Leaves config leaf := by
  intro i
  cases hfind : db.findByLevelAndIndex 0 i with
  | some d =>
      obtain ⟨hd, -, hl, hi⟩ := Db.findByLevelAndIndex_eq_some hfind
      exact (h.layout.hash hd).trans (by rw [hl, hi, subtree_zero])
  | none =>
      have := h.layout.not_occ_of_find hfind
      simp only [shape, Nat.zero_le, pow_zero, mul_one, true_and, not_lt] at this
      exact h.beyond i this

/-- The only node without a parent is the one at the top. -/
theorem TreeInv.findRoot (h : TreeInv poseidon config n leaf stale db) (hn : 0 < n) :
    ∃ d, db.findRoot = some d ∧ db.HasNode d.id d.cur ∧
      d.cur.key.level = config.merkleTreeLevels ∧ d.cur.key.index = 0 := by
  obtain ⟨t, -, ht, -, htl, -⟩ :=
    h.layout.find (l := config.merkleTreeLevels) (i := 0) ⟨le_rfl, by simpa using hn⟩
  obtain ⟨d, hfind⟩ : ∃ d, db.findRoot = some d :=
    Collection.findOne_isSome_of_getElem? ht (by simpa using h.layout.top ht htl.ge)
  obtain ⟨hd, -, hp⟩ := Collection.findOne_eq_some hfind
  have hparent : d.cur.parent = none := by simpa using hp
  obtain ⟨hle, hlt⟩ := h.layout.occ_of_hasNode hd
  have hlevel : d.cur.key.level = config.merkleTreeLevels := by
    refine hle.antisymm (not_lt.mp fun hlt => ?_)
    obtain ⟨pid, hpid, -⟩ := h.layout.parent hd hlt id
    rw [hparent] at hpid
    exact absurd hpid (by simp)
  have hindex : d.cur.key.index = 0 := by
    rw [hlevel] at hlt
    by_contra hne
    have := Nat.mul_le_mul_right (2 ^ config.merkleTreeLevels) (Nat.one_le_iff_ne_zero.mpr hne)
    rw [one_mul] at this
    exact absurd h.room (by omega)
  exact ⟨d, hfind, hd, hlevel, hindex⟩

theorem TreeInv.getRoot (h : TreeInv poseidon config n leaf stale db) (hn : 0 < n) :
    ∃ s, getRoot.run db = (.ok s, db) ∧
      Js.stringToBigInt s = some (root (pairHash poseidon) leaf config.merkleTreeLevels) := by
  obtain ⟨d, hfind, hd, hlevel, hindex⟩ := h.findRoot hn
  refine ⟨d.cur.hash, ?_, ?_⟩
  · rw [UserService.getRoot, MerkleTreeNode.findRoot, run_query_bind, hfind]
    rfl
  · rw [h.layout.hash hd, hlevel, hindex]
    rfl

theorem TreeInv.rootAgrees (h : TreeInv poseidon config n leaf stale db) (hn : 0 < n) :
    db.RootAgrees poseidon config := by
  obtain ⟨s, hs, hroot⟩ := h.getRoot hn
  exact ⟨leaf, s, h.leaves, hs, hroot⟩

/-! ## Runs -/

/-- A tree at rest, with some number of leaves and nothing known about the caches. -/
def AtRest (poseidon : List ℤ → ℤ) (config : IZKServerConfig) (db : Db) : Prop :=
  ∃ n leaf, TreeInv poseidon config n leaf (fun _ _ => True) db

theorem AtRest.updateUser (h : AtRest poseidon config db) {leafHash newValue : String}
    (hnew : ∃ v, Js.stringToBigInt newValue = some v)
    (hfresh : db.FreshPath poseidon config leafHash) :
    AtRest poseidon config ((UserService.updateUser poseidon config leafHash newValue).exec db) := by
  obtain ⟨n, leaf, h⟩ := h
  obtain ⟨v, hv⟩ := hnew
  cases hfind : db.findLeafByHash leafHash with
  | none =>
      rw [exec, updateUser_missing newValue hfind]
      exact ⟨n, leaf, h⟩
  | some d =>
      obtain ⟨db', hrun, h'⟩ := h.updateUser hfind hv (hfresh d hfind)
      rw [exec, hrun]
      exact ⟨n, _, h'⟩

theorem AtRest.removeEach (groupId : String) (indexes : List ℤ) (h : AtRest poseidon config db)
    (hfresh : TreeOp.RemovesFresh poseidon config groupId indexes db) :
    AtRest poseidon config ((UserService.removeEach poseidon config groupId indexes).exec db) := by
  induction indexes generalizing db with
  | nil => exact h
  | cons index indexes ih =>
      rw [exec, UserService.removeEach, MerkleTreeNode.findLeafByGroupIdAndIndexInGroup,
        run_query_bind]
      cases hfind : db.findLeafByGroupIdAndIndexInGroup groupId index with
      | none => exact h
      | some d =>
          obtain ⟨hpath, hrest⟩ := hfresh d hfind
          have h' := h.updateUser ⟨_, Js.stringToBigInt_bigIntToString config.zeroValue⟩ hpath
          simp only
          cases hrun : (UserService.updateUser poseidon config d.cur.hash
              (Js.bigIntToString config.zeroValue)).run db with
          | mk r db' =>
              rw [exec, hrun] at h' hrest
              cases r with
              | error e =>
                  rw [run_bind_of_error hrun]
                  exact h'
              | ok _ =>
                  rw [run_bind_of_ok hrun]
                  exact ih h' hrest

theorem AtRest.removeUsersByIndexes (groupId : String) (indexes : List ℤ)
    (h : AtRest poseidon config db)
    (hfresh : TreeOp.RemovesFresh poseidon config groupId indexes db) : AtRest poseidon config
      ((UserService.removeUsersByIndexes poseidon config indexes groupId).exec db) := by
  show (UserService.removeUsersByIndexes poseidon config indexes groupId).wp
    (fun _ db' => AtRest poseidon config db') db
  exact wp_removeUsersByIndexes (fun _ => h) (h.removeEach groupId indexes hfresh)

theorem AtRest.exec (h : AtRest poseidon config db) (o : TreeOp) (hnum : o.Numeric)
    (hfresh : o.Fresh poseidon config db) : AtRest poseidon config (o.exec poseidon config db) := by
  cases o with
  | appendUsers users groupId =>
      obtain ⟨n, leaf, h⟩ := h
      obtain ⟨n', leaf', -, h'⟩ := h.appendUsers groupId hnum
      exact ⟨n', leaf', h'⟩
  | removeUsersByIndexes indexes groupId => exact h.removeUsersByIndexes groupId indexes hfresh
  | updateUser leafHash newValue => exact h.updateUser hnum hfresh

theorem TreeRun.atRest (h : TreeRun poseidon config (TreeOp.Fresh poseidon config) db) :
    AtRest poseidon config db := by
  induction h with
  | seeded hrun =>
      obtain ⟨db', hrun', hseeded, hnodes⟩ := seedZeros_seeded poseidon config
      obtain rfl : db' = _ := (Prod.mk.inj (hrun'.symm.trans hrun)).2
      exact ⟨0, _, TreeInv.empty hseeded hnodes⟩
  | op _ o hnum hok ih => exact ih.exec o hnum hok

/-- In every state of a run whose updates start from fresh paths, the root is right as soon as
    there is a leaf. -/
theorem treeRun_rootAgrees (h : TreeRun poseidon config (TreeOp.Fresh poseidon config) db)
    (hleaf : 0 < db.getTotalNumberOfLeaves) : db.RootAgrees poseidon config := by
  obtain ⟨n, leaf, hinv⟩ := h.atRest
  exact hinv.rootAgrees (hinv.count ▸ hleaf)

end

/-! ## Removing two siblings -/

/-- The leaf sequence is determined by the store. -/
theorem Db.Leaves.eq {config : IZKServerConfig} {db : Db} {leaf : ℕ → ℤ}
    (h : db.Leaves config leaf) :
    leaf = fun i => ((db.findByLevelAndIndex 0 i).bind fun node =>
      Js.stringToBigInt node.cur.hash).getD config.zeroValue := by
  funext i
  have := h i
  cases hfind : db.findByLevelAndIndex 0 i with
  | none => simpa [hfind] using this
  | some d =>
      rw [hfind] at this
      simp [show Js.stringToBigInt d.cur.hash = some (leaf i) from this]

def twoLevels : IZKServerConfig :=
  { merkleTreeLevels := 2, spamThreshold := 2, epochAllowedDelayThreshold := 20, zeroValue := 0 }

def seededStore : Db := (seedZeros sumHash 0 2).exec {}

def twoMembers : List IGroupMember := [⟨0, "1"⟩, ⟨1, "2"⟩]

theorem twoMembers_numeric : ∀ user ∈ twoMembers, user.Numeric := by decide +kernel

/-- Two members of one group. -/
def appendTwo : TreeOp := .appendUsers twoMembers "g"

/-- Both are removed, by one call. -/
def removeTwo : TreeOp := .removeUsersByIndexes [0, 1] "g"

/-- After removing two neighbours the root still contains the first of them: the second removal
    hashes with the cached copy of the leaf that the first one overwrote. -/
theorem removing_siblings_breaks_root :
    ¬ ∀ (poseidon : List ℤ → ℤ) (config : IZKServerConfig) (db : Db),
      TreeRun poseidon config (fun _ _ => True) db → 0 < db.getTotalNumberOfLeaves →
        db.RootAgrees poseidon config := by
  intro h
  have hrun : TreeRun sumHash twoLevels (fun _ _ => True) seededStore := .seeded rfl
  have happend := hrun.op appendTwo twoMembers_numeric trivial
  obtain ⟨leaf, s, hleaves, hs, hroot⟩ :=
    h _ _ _ (happend.op removeTwo trivial trivial) (by decide +kernel)
  have hget : getRoot.run (removeTwo.exec sumHash twoLevels (appendTwo.exec sumHash twoLevels
      seededStore)) = (.ok "148", _) := rfl
  obtain rfl : "148" = s := by
    rw [hget] at hs
    simpa using congrArg Prod.fst hs
  rw [hleaves.eq] at hroot
  exact absurd hroot (by decide +kernel)

/-- One update in a tree of two leaves: nothing has made the path stale yet. -/
theorem treeRun_rootAgrees_of_update :
    (TreeOp.exec sumHash twoLevels (.updateUser "1" "10")
      (appendTwo.exec sumHash twoLevels seededStore)).RootAgrees sumHash twoLevels := by
  have hrun : TreeRun sumHash twoLevels (TreeOp.Fresh sumHash twoLevels) seededStore := .seeded rfl
  have happend := hrun.op appendTwo twoMembers_numeric trivial
  have hfresh : (appendTwo.exec sumHash twoLevels seededStore).FreshPath sumHash twoLevels "1" := by
    decide +kernel
  exact treeRun_rootAgrees (happend.op (.updateUser "1" "10") ⟨10, by decide +kernel⟩ hfresh)
    (by decide +kernel)

end ZkChat
