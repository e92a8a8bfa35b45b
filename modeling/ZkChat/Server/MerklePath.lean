import ZkChat.Server.RootRefinement

set_option autoImplicit false

/-! # Reading the tree

What the server tells others about its tree: all leaves (`getLeaves`) and the path of one leaf
(`getPath`). Both are computed from the leaves alone, in the order in which they were appended; the
inner nodes, which the appends and updates keep, are not read. So they agree with the root that is
kept only as far as the stored tree refines the complete one, and as far as the order of the leaves
is the order of their indexes (`treeRun_inOrder`). A path that `getPath` returns then leads to the
stored root, and no other leaf has a path to it from the same place (`getPath_leads_to_root`). -/

namespace ZkChat

open HashTree Prog UserService

/-! ## The service -/

/-- `MerkleProof` of `@zk-kit/incremental-merkle-tree`, for a binary tree. -/
structure MerkleProof where
  root : ℤ
  leaf : ℤ
  siblings : List ℤ
  pathIndices : List ℕ
deriving DecidableEq

/-- `getAllLeaves`. -/
def MerkleTreeNode.getAllLeaves : Server (List IMerkleTreeNode) :=
  .query fun db => db.treeNodes.filter (·.key.level = 0)

/-- The leaves of a tree into which `vs` were inserted. -/
def paddedLeaf (zeroValue : ℤ) (vs : List ℤ) (i : ℕ) : ℤ := vs.getD i zeroValue

/-- The packages that the readers of the tree rest on. -/
structure TreeLibraries (poseidon : List ℤ → ℤ) where
  /-- `bigintToHex` of `bigint-conversion`. -/
  bigintToHex : ℤ → Except Exn String
  bigintToHex_neg : ∀ n < 0, bigintToHex n = .error .rangeError
  bigintToHex_nonneg : ∀ n, 0 ≤ n →
    ∃ s, bigintToHex n = .ok s ∧ Js.stringToBigInt ("0x" ++ s) = some n
  /-- `generateMerkleProof` of `@zk-kit/protocols`: it builds the tree and looks the leaf up. -/
  generateMerkleProof : ℕ → ℤ → List String → String → Except Exn MerkleProof
  generateMerkleProof_of_mem : ∀ {depth zeroValue leaves leaf vs v},
    leaves.mapM Js.stringToBigInt = some vs → vs.length ≤ 2 ^ depth →
    Js.stringToBigInt leaf = some v → v ∈ vs →
    generateMerkleProof depth zeroValue leaves leaf = .ok
      { root := root (pairHash poseidon) (paddedLeaf zeroValue vs) depth
        leaf := v
        siblings := siblings (pairHash poseidon) (paddedLeaf zeroValue vs) depth 0 (vs.idxOf v)
        pathIndices := pathIndices depth (vs.idxOf v) }

section

variable {poseidon : List ℤ → ℤ} (lib : TreeLibraries poseidon) (config : IZKServerConfig)

namespace UserService

def getLeaves : Server (List String) := do
  let allLeaves := (← MerkleTreeNode.getAllLeaves).map (·.hash)
  Prog.ofExcept (allLeaves.mapM fun x => do lib.bigintToHex (← Js.bigIntOfText x))

def getPath (idCommitment : String) : Server MerkleProof := do
  match ← MerkleTreeNode.findLeafByHash idCommitment with
  | none => throw (.text "The identity commitment does not exist")
  | some leafNode =>
      let allLeaves := (← MerkleTreeNode.getAllLeaves).map (·.hash)
      Prog.ofExcept (lib.generateMerkleProof config.merkleTreeLevels config.zeroValue allLeaves
        leafNode.cur.hash)

end UserService

end

/-! ## The order of the leaves -/

/-- The leaves are stored in the order of their indexes, without gaps. -/
def Db.InOrder (db : Db) : Prop := db.leafKeys.map (·.index) = List.range db.leafKeys.length

section

variable {poseidon : List ℤ → ℤ} {config : IZKServerConfig} {db db' : Db}

theorem Db.InOrder.of_leafKeys (h : db.InOrder) (hkeys : db'.leafKeys = db.leafKeys) :
    db'.InOrder := by
  rwa [Db.InOrder, hkeys]

theorem MemberOutcome.inOrder {groupId : String} {user : IGroupMember} {r : Except Exn Unit}
    (h : MemberOutcome groupId user db r db') (horder : db.InOrder) : db'.InOrder := by
  cases h with
  | taken => exact horder
  | full => exact horder
  | added _ _ hrows =>
      obtain ⟨key, hindex, hkeys⟩ : ∃ key : IMerkleTreeNodeKey, key.index = db.leafKeys.length ∧
          db'.leafKeys = db.leafKeys ++ [key] := by
        refine ⟨_, ?_, by rw [Db.leafKeys, hrows, List.map_append]; rfl⟩
        simp [Db.leafKeys, getTotalNumberOfLeaves_eq]
      rw [Db.InOrder] at horder
      simp [Db.InOrder, hkeys, horder, hindex, List.range_succ]

theorem appendMembers_inOrder (zeros : List IMerkleTreeZero) (groupId : String)
    (users : List IGroupMember) (db : Db) (h : db.InOrder) :
    (appendMembers poseidon config zeros groupId users).wp (fun _ db' => db'.InOrder) db := by
  induction users generalizing db with
  | nil => exact h
  | cons user users ih =>
      unfold appendMembers
      rw [wp_bind]
      refine wp_mono (appendMember_outcome poseidon config zeros groupId user db) ?_
      rintro (e | u) db₁ hout
      · exact hout.inOrder h
      · exact ih db₁ (hout.inOrder h)

theorem TreeOp.inOrder (h : db.InOrder) (o : TreeOp) : (o.exec poseidon config db).InOrder := by
  cases o with
  | appendUsers users groupId =>
      show (UserService.appendUsers poseidon config users groupId).wp (fun _ db' => db'.InOrder) db
      exact wp_appendUsers (fun _ => h) (fun _ => h) (appendMembers_inOrder _ groupId users db h)
  | removeUsersByIndexes indexes groupId =>
      exact h.of_leafKeys (removeUsersByIndexes_leafKeys poseidon config indexes groupId db)
  | updateUser leafHash newValue =>
      exact h.of_leafKeys (updateUser_leafKeys poseidon config leafHash newValue db)

/-- Nothing that happens to the tree changes the order. -/
theorem treeRun_inOrder {ok : TreeOp → Db → Prop} (h : TreeRun poseidon config ok db) :
    db.InOrder := by
  induction h with
  | seeded hrun =>
      obtain ⟨db', hrun', -, hnodes⟩ := seedZeros_seeded poseidon config
      obtain rfl : db' = _ := (Prod.mk.inj (hrun'.symm.trans hrun)).2
      simp [Db.InOrder, Db.leafKeys, Db.leafRows, hnodes]
  | op _ o _ _ ih => exact o.inOrder ih

/-! ## What is read -/

/-- The texts of the leaves. -/
def Db.leafHashes (db : Db) : List String := db.leafRows.map Prod.snd

theorem run_getAllLeaves (db : Db) :
    MerkleTreeNode.getAllLeaves.run db
      = (.ok (db.treeNodes.filter (·.key.level = 0)), db) := rfl

theorem map_hash_leaves (db : Db) :
    (db.treeNodes.filter (·.key.level = 0)).map (·.hash) = db.leafHashes := by
  unfold Db.leafHashes Db.leafRows
  induction db.treeNodes with
  | nil => rfl
  | cons node nodes ih =>
      by_cases hlevel : node.key.level = 0
      · simpa [leafRow, hlevel] using ih
      · simpa [leafRow, hlevel] using ih

theorem run_getLeaves (lib : TreeLibraries poseidon) (db : Db) :
    (getLeaves lib).run db
      = (db.leafHashes.mapM fun x => do lib.bigintToHex (← Js.bigIntOfText x), db) := by
  rw [getLeaves, run_bind_of_ok (run_getAllLeaves db)]
  simp only [map_hash_leaves, run_ofExcept]

/-- The leaves denote what they do in the tree, in the order of their indexes. -/
theorem TreeInv.leafHashes {n : ℕ} {leaf : ℕ → ℤ} {stale : ℕ → ℕ → Prop}
    (h : TreeInv poseidon config n leaf stale db) (horder : db.InOrder) :
    db.leafHashes.mapM Js.stringToBigInt = some ((List.range n).map leaf) := by
  have hlength : db.leafKeys.length = n := by
    rw [Db.leafKeys, List.length_map, ← getTotalNumberOfLeaves_eq, h.count]
  have hvalue : ∀ row ∈ db.leafRows, Js.stringToBigInt row.2 = some (leaf row.1.index) := by
    intro row hrow
    obtain ⟨node, hnode, hlevel, rfl⟩ := mem_leafRows.mp hrow
    obtain ⟨id, hid⟩ := List.mem_iff_getElem?.mp hnode
    have := h.layout.hash hid
    rwa [hlevel, subtree_zero] at this
  have hindexes : (List.range n).map leaf = db.leafRows.map fun row => leaf row.1.index := by
    have := congrArg (List.map leaf) horder
    rw [hlength] at this
    rw [← this, Db.leafKeys, List.map_map, List.map_map]
    rfl
  rw [hindexes, Db.leafHashes]
  generalize db.leafRows = rows at hvalue
  induction rows with
  | nil => rfl
  | cons row rows ih =>
      rw [List.map_cons, List.mapM_cons, hvalue row (by simp), List.map_cons,
        ih fun row hrow => hvalue row (by simp [hrow])]
      rfl

/-- The complete tree over the leaves that are read is the one that is stored. -/
theorem TreeInv.paddedLeaf_eq {n : ℕ} {leaf : ℕ → ℤ} {stale : ℕ → ℕ → Prop}
    (h : TreeInv poseidon config n leaf stale db) :
    paddedLeaf config.zeroValue ((List.range n).map leaf) = leaf := by
  funext i
  rw [paddedLeaf, List.getD_eq_getElem?_getD, List.getElem?_map]
  rcases Nat.lt_or_ge i n with hi | hi
  · rw [List.getElem?_range hi]
    rfl
  · rw [List.getElem?_eq_none (by simpa using hi), h.beyond i hi]
    rfl

end

/-! ## Paths -/

section

variable {poseidon : List ℤ → ℤ} {config : IZKServerConfig} {db : Db}

theorem mem_leafHashes_of_find {text : String} {d : NodeDoc} (h : db.findLeafByHash text = some d) :
    text ∈ db.leafHashes := by
  obtain ⟨hd, -, hlevel, rfl⟩ := Db.findLeafByHash_eq_some h
  have hrow := mem_leafRows.mpr ⟨_, List.mem_of_getElem? hd, hlevel, rfl⟩
  exact List.mem_map.mpr ⟨_, hrow, rfl⟩

theorem findLeafByHash_of_mem {text : String} (h : text ∈ db.leafHashes) :
    ∃ d, db.findLeafByHash text = some d := by
  obtain ⟨row, hrow, htext⟩ := List.mem_map.mp h
  obtain ⟨node, hnode, hlevel, rfl⟩ := mem_leafRows.mp hrow
  obtain ⟨id, hid⟩ := List.mem_iff_getElem?.mp hnode
  exact Collection.findOne_isSome_of_getElem? hid (by simpa using ⟨hlevel, htext⟩)

/-- A leaf that is found denotes one of the leaves of the tree. -/
theorem TreeInv.leaf_of_find {n : ℕ} {leaf : ℕ → ℤ} {stale : ℕ → ℕ → Prop}
    (h : TreeInv poseidon config n leaf stale db) {text : String} {d : NodeDoc}
    (hfind : db.findLeafByHash text = some d) :
    ∃ i < n, Js.stringToBigInt text = some (leaf i) := by
  obtain ⟨hd, -, hlevel, rfl⟩ := Db.findLeafByHash_eq_some hfind
  refine ⟨d.cur.key.index, ?_, ?_⟩
  · have := (h.layout.occ_of_hasNode hd).2
    rwa [hlevel, pow_zero, mul_one] at this
  · have := h.layout.hash hd
    rwa [hlevel, subtree_zero] at this

/-- In every state of a run whose updates start from fresh paths, `getPath` finds each stored leaf:
    the path leads from its value to the root that the server has, and where the hash is injective
    no other value climbs to the root from the same place. There is no path for a text that is not
    stored. -/
theorem getPath_leads_to_root (lib : TreeLibraries poseidon)
    (h : TreeRun poseidon config (TreeOp.Fresh poseidon config) db) (idCommitment : String) :
    if idCommitment ∈ db.leafHashes then
      ∃ proof s, (getPath lib config idCommitment).run db = (.ok proof, db) ∧
        Js.stringToBigInt idCommitment = some proof.leaf ∧
        getRoot.run db = (.ok s, db) ∧ Js.stringToBigInt s = some proof.root ∧
        climbPath (pairHash poseidon) proof.leaf proof.pathIndices proof.siblings = proof.root ∧
        (Function.Injective2 (pairHash poseidon) → ∀ v ss,
          ss.length = proof.siblings.length →
          climbPath (pairHash poseidon) v proof.pathIndices ss = proof.root → v = proof.leaf)
    else (getPath lib config idCommitment).run db
      = (.error (.text "The identity commitment does not exist"), db) := by
  obtain ⟨n, leaf, hinv⟩ := h.atRest
  split
  · next hmem =>
      obtain ⟨d, hfind⟩ := findLeafByHash_of_mem hmem
      obtain ⟨j, hj, hvalue⟩ := hinv.leaf_of_find hfind
      obtain ⟨-, -, -, htext⟩ := Db.findLeafByHash_eq_some hfind
      obtain ⟨s, hs, hroot⟩ := hinv.getRoot (Nat.zero_lt_of_lt hj)
      -- the library looks up the first leaf with this value
      obtain ⟨i, hi, hidx, hleaf⟩ : ∃ i < n, ((List.range n).map leaf).idxOf (leaf j) = i ∧
          leaf i = leaf j := by
        have hlt : ((List.range n).map leaf).idxOf (leaf j) < ((List.range n).map leaf).length :=
          List.idxOf_lt_length_of_mem (List.mem_map_of_mem (List.mem_range.mpr hj))
        have hget := List.getElem_idxOf hlt
        rw [List.getElem_map, List.getElem_range] at hget
        exact ⟨_, by simpa using hlt, rfl, hget⟩
      have hproof : lib.generateMerkleProof config.merkleTreeLevels config.zeroValue db.leafHashes
          d.cur.hash = .ok _ :=
        lib.generateMerkleProof_of_mem (hinv.leafHashes (treeRun_inOrder h))
          (by simpa using hinv.room) (htext ▸ hvalue) (List.mem_map_of_mem (List.mem_range.mpr hj))
      rw [hinv.paddedLeaf_eq, hidx] at hproof
      have hzero : i / 2 ^ config.merkleTreeLevels = 0 :=
        Nat.div_eq_of_lt (hi.trans_le hinv.room)
      have hrun : (getPath lib config idCommitment).run db
          = (.ok { root := root (pairHash poseidon) leaf config.merkleTreeLevels
                   leaf := leaf j
                   siblings := siblings (pairHash poseidon) leaf config.merkleTreeLevels 0 i
                   pathIndices := pathIndices config.merkleTreeLevels i }, db) := by
        rw [getPath, MerkleTreeNode.findLeafByHash, run_query_bind, hfind]
        simp only
        rw [run_bind_of_ok (run_getAllLeaves db), map_hash_leaves, hproof]
        rfl
      refine ⟨_, s, hrun, hvalue, hs, hroot, ?_, ?_⟩
      · have := climbPath_siblings (H := pairHash poseidon) leaf config.merkleTreeLevels 0 i
        rwa [hzero, Nat.zero_add, subtree_zero, hleaf] at this
      · intro hinj v ss hlength hclimb
        rw [length_siblings] at hlength
        have hroot' : climbPath (pairHash poseidon) v (pathIndices ss.length i) ss
            = subtree (pairHash poseidon) leaf (0 + ss.length) (i / 2 ^ ss.length) := by
          rw [hlength, hzero, Nat.zero_add]
          exact hclimb
        exact (eq_of_climbPath hinj hroot').1.trans hleaf
  · next hmem =>
      have hfind : db.findLeafByHash idCommitment = none := by
        cases hfind : db.findLeafByHash idCommitment with
        | none => rfl
        | some d => exact absurd (mem_leafHashes_of_find hfind) hmem
      rw [getPath, MerkleTreeNode.findLeafByHash, run_query_bind, hfind]
      rfl

end

namespace Demo

/-- The packages as they are documented. -/
def treeLibraries (poseidon : List ℤ → ℤ) : TreeLibraries poseidon where
  bigintToHex n := if n < 0 then .error .rangeError else .ok (Js.bigIntToHex n.toNat)
  bigintToHex_neg _ h := if_pos h
  bigintToHex_nonneg n h := by
    refine ⟨_, if_neg (not_lt.mpr h), ?_⟩
    rw [Js.stringToBigInt_bigIntToHex, Int.toNat_of_nonneg h]
  generateMerkleProof depth zeroValue leaves leaf :=
    match leaves.mapM Js.stringToBigInt, Js.stringToBigInt leaf with
    | some vs, some v =>
        if 2 ^ depth < vs.length then .error (.error "The tree is full")
        else if v ∉ vs then .error (.error "The leaf does not exists")
        else .ok
          { root := root (pairHash poseidon) (paddedLeaf zeroValue vs) depth
            leaf := v
            siblings := siblings (pairHash poseidon) (paddedLeaf zeroValue vs) depth 0 (vs.idxOf v)
            pathIndices := pathIndices depth (vs.idxOf v) }
    | _, _ => .error .syntaxError
  generateMerkleProof_of_mem := by
    intro depth zeroValue leaves leaf vs v hvs hroom hv hmem
    simp only [hvs, hv]
    rw [if_neg (not_lt.mpr hroom), if_neg (not_not.mpr hmem)]

end Demo

/-- The path of the first of two members. -/
theorem getPath_of_first : ∃ proof : MerkleProof, ((getPath (Demo.treeLibraries sumHash) twoLevels
      "1").run (appendTwo.exec sumHash twoLevels seededStore)).1 = .ok proof ∧
    climbPath (pairHash sumHash) proof.leaf proof.pathIndices proof.siblings = proof.root := by
  have hrun : TreeRun sumHash twoLevels (TreeOp.Fresh sumHash twoLevels) seededStore := .seeded rfl
  have hpath := getPath_leads_to_root (Demo.treeLibraries sumHash)
    (hrun.op appendTwo twoMembers_numeric trivial) "1"
  rw [if_pos (by decide +kernel)] at hpath
  obtain ⟨proof, s, hget, -, -, -, hclimb, -⟩ := hpath
  exact ⟨proof, by rw [hget], hclimb⟩

end ZkChat
