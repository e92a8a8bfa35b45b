import ZkChat.Server.Append

set_option autoImplicit false

/-! # What `updateUser` does to a tree at rest

The walk of an update trusts the sibling hash that is cached in each node of the path. `FreshPath`
says of a state that it may: along the path of the leaf that is to be overwritten, every cached
hash denotes the hash its sibling has now. From such a state the update ends in a tree at rest
with that leaf replaced (`TreeInv.updateUser`); what it leaves unknown is every cache, since an
update writes none. -/

namespace ZkChat

open HashTree Prog UserService

variable {poseidon : List ℤ → ℤ} {config : IZKServerConfig} {n : ℕ} {leaf : ℕ → ℤ}
  {stale : ℕ → ℕ → Prop} {db : Db}

namespace Db

/-- What the sibling of the node at `(l, i)` contributes to their parent: its stored hash, or the
    zero hash of the level when there is no such node. -/
def siblingValue (poseidon : List ℤ → ℤ) (config : IZKServerConfig) (db : Db) (l i : ℕ) :
    Option ℤ :=
  match db.findByLevelAndIndex l (siblingIndex i) with
  | some sibling => Js.stringToBigInt sibling.cur.hash
  | none => some (zeroHash (pairHash poseidon) config.zeroValue l)

/-- What the sibling hash cached in the node at `(l, i)` denotes. -/
def cachedSibling (db : Db) (l i : ℕ) : Option ℤ :=
  (db.findByLevelAndIndex l i).bind fun d => d.cur.siblingHash.bind Js.stringToBigInt

/-- Along the path of leaf `j` the cached sibling hashes are those of the siblings. -/
def FreshFrom (poseidon : List ℤ → ℤ) (config : IZKServerConfig) (db : Db) (j : ℕ) : Prop :=
  ∀ l < config.merkleTreeLevels,
    db.cachedSibling l (j / 2 ^ l) = db.siblingValue poseidon config l (j / 2 ^ l)

/-- The same for the leaf that an update of `leafHash` overwrites. -/
def FreshPath (poseidon : List ℤ → ℤ) (config : IZKServerConfig) (db : Db) (leafHash : String) :
    Prop :=
  ∀ d, db.findLeafByHash leafHash = some d → db.FreshFrom poseidon config d.cur.key.index

instance (j : ℕ) : Decidable (db.FreshFrom poseidon config j) :=
  inferInstanceAs (Decidable (∀ l < config.merkleTreeLevels, _))

instance (leafHash : String) : Decidable (db.FreshPath poseidon config leafHash) :=
  inferInstanceAs (Decidable (∀ d ∈ db.findLeafByHash leafHash, _))

theorem findLeafByHash_eq_some {h : String} {d : NodeDoc} (hd : db.findLeafByHash h = some d) :
    db.HasNode d.id d.cur ∧ d.loaded = d.cur ∧ d.cur.key.level = 0 ∧ d.cur.hash = h := by
  obtain ⟨hget, hloaded, hp⟩ := Collection.findOne_eq_some hd
  simp only [decide_eq_true_eq] at hp
  exact ⟨hget, hloaded, hp.1, hp.2⟩

end Db

/-- In a tree at rest the sibling's contribution is the sibling node of the complete tree. -/
theorem TreeInv.siblingValue (h : TreeInv poseidon config n leaf stale db) {l i : ℕ}
    (hl : l ≤ config.merkleTreeLevels) :
    db.siblingValue poseidon config l i
      = some (subtree (pairHash poseidon) leaf l (siblingIndex i)) := by
  unfold Db.siblingValue
  cases hfind : db.findByLevelAndIndex l (siblingIndex i) with
  | some s =>
      obtain ⟨hs, -, hsl, hsi⟩ := Db.findByLevelAndIndex_eq_some hfind
      exact (h.layout.hash hs).trans (by rw [hsl, hsi])
  | none =>
      have hout : n ≤ siblingIndex i * 2 ^ l := by
        have := h.layout.not_occ_of_find hfind
        unfold shape at this
        omega
      refine congrArg some (subtree_eq_zeroHash fun j hj => h.beyond j ?_).symm
      exact hout.trans ((Nat.le_div_iff_mul_le (Nat.two_pow_pos l)).mp hj)

/-- A tree whose caches are right everywhere is fresh for every leaf. -/
theorem TreeInv.freshFrom (h : TreeInv poseidon config n leaf (fun _ _ => False) db) {j : ℕ}
    (hj : j < n) : db.FreshFrom poseidon config j := by
  intro l hl
  have hocc : shape config.merkleTreeLevels n l (j / 2 ^ l) :=
    ⟨hl.le, (Nat.div_mul_le_self j (2 ^ l)).trans_lt hj⟩
  obtain ⟨d, hfind, hd, -, hdl, hdi⟩ := h.layout.find hocc
  obtain ⟨x, hx, hv⟩ := h.caches d.id d.cur hd (by rwa [hdl]) id
  rw [hdl, hdi] at hv
  rw [h.siblingValue hl.le, Db.cachedSibling, hfind, Option.bind_some, hx, Option.bind_some, hv]

/-! ## The walk -/

/-- The nodes of which an update of leaf `j` will not read the cache once it is at level `l`. -/
def offPath (j l k i : ℕ) : Prop := ¬ (l ≤ k ∧ i = j / 2 ^ k)

/-- The invariant of the `while` loop before level `l`. -/
structure Climb (H : ℤ → ℤ → ℤ) (levels n j l : ℕ) (leaf leaf' : ℕ → ℤ) (d : NodeDoc) (db : Db) :
    Prop where
  layout : Layout levels (shape levels n) (walkVal H leaf leaf' j l) (fun _ _ => False) db
  caches : Caches levels (fun k i => subtree H leaf' k (siblingIndex i)) (offPath j l) db
  stored : db.HasNode d.id d.cur
  synced : d.loaded = d.cur
  level : d.cur.key.level = l
  index : d.cur.key.index = j / 2 ^ l

/-- Overwriting the leaf starts the walk. -/
theorem TreeInv.climb (h : TreeInv poseidon config n leaf stale db) {d : NodeDoc} {x : String}
    {v : ℤ} (hd : db.HasNode d.id d.cur) (hsync : d.loaded = d.cur) (hlevel : d.cur.key.level = 0)
    (hx : Js.stringToBigInt x = some v) (hfresh : db.FreshFrom poseidon config d.cur.key.index) :
    Climb (pairHash poseidon) config.merkleTreeLevels n d.cur.key.index 0 leaf
      (Function.update leaf d.cur.key.index v) { d.setHash x with loaded := (d.setHash x).cur }
      (db.saveNode (d.setHash x)) := by
  set j := d.cur.key.index with hj
  have hstep : db.InStep (d.setHash x) := ⟨by show db.HasNode d.id d.loaded; rwa [hsync],
    congrArg (·.key) hsync.symm⟩
  have hl : (d.setHash x).loaded.key.level = 0 := (congrArg (·.key.level) hsync).trans hlevel
  have hi : (d.setHash x).loaded.key.index = j := congrArg (·.key.index) hsync
  have hpath : Caches config.merkleTreeLevels
      (fun k i => subtree (pairHash poseidon) (Function.update leaf j v) k (siblingIndex i))
      (offPath j 0) db := by
    intro id r hr hlt hon
    obtain ⟨-, hri⟩ := not_not.mp hon
    obtain ⟨d', hfind, hd', -, hd'l, hd'i⟩ := h.layout.find (h.layout.occ_of_hasNode hr)
    obtain rfl : d'.id = id := h.layout.unique ⟨d'.cur, hd', hd'l, hd'i⟩ ⟨r, hr, rfl, rfl⟩
    obtain rfl := hd'.unique hr
    have hcached := hfresh _ hlt
    rw [h.siblingValue hlt.le, ← hri, Db.cachedSibling, hfind, Option.bind_some,
      Option.bind_eq_some_iff] at hcached
    obtain ⟨y, hy, hv⟩ := hcached
    refine ⟨y, hy, hv.trans (congrArg some ?_)⟩
    simp only [hri, subtree_update_sibling]
  refine ⟨?_, ?_, Db.hasNode_saveNode_self hstep, rfl, hlevel, by simp [NodeDoc.setHash, hj]⟩
  · refine h.layout.saveNode hstep ?_ ?_ ?_ ?_ (fun _ _ _ => id)
    · rw [hl, hi]
      exact hx.trans (by simp [walkVal])
    · intro k i hk
      rw [hl, hi] at hk
      rw [walkVal, if_neg]
      rintro ⟨hk0, hki⟩
      obtain rfl : k = 0 := by omega
      exact hk ⟨rfl, by simpa using hki⟩
    · intro hlt hp
      exact h.layout.parent (hsync ▸ hd) hlt hp |>.imp fun pid hpid =>
        ⟨(congrArg (·.parent) hsync).symm.trans hpid.1, hpid.2⟩
    · intro hle
      exact (congrArg (·.parent) hsync).symm.trans (h.layout.top (hsync ▸ hd) hle)
  · refine hpath.saveNode h.layout hstep ?_ (fun _ _ _ _ _ => rfl) (fun _ _ _ => id)
    intro hlt hon
    obtain ⟨y, hy, hv⟩ := hpath d.id d.loaded (hsync ▸ hd) hlt hon
    exact ⟨y, (congrArg (·.siblingHash) hsync).symm.trans hy, hv⟩

section Climb

variable {levels j l : ℕ} {v : ℤ} {d : NodeDoc}

theorem bigIntOfText_ok {s : String} {x : ℤ} (h : Js.stringToBigInt s = some x) :
    Js.bigIntOfText s = .ok x := by
  simp only [Js.bigIntOfText, h]

/-- One iteration. -/
theorem Climb.step (hc : Climb (pairHash poseidon) levels n j l leaf (Function.update leaf j v) d db)
    (hlt : l < levels) (fuel : ℕ) :
    ∃ d' db',
      (updateParents poseidon (fuel + 1) d).run db = (updateParents poseidon fuel d').run db' ∧
      Climb (pairHash poseidon) levels n j (l + 1) leaf (Function.update leaf j v) d' db' := by
  set H := pairHash poseidon
  set leaf' := Function.update leaf j v
  obtain ⟨pid, hpid, hpkey⟩ := hc.layout.parent hc.stored (by rw [hc.level]; exact hlt) id
  rw [hc.level, hc.index, div_pow_succ] at hpkey
  obtain ⟨p, hp, hpnode, hpsync, hplevel, hpindex⟩ :=
    hc.layout.find ((hc.layout.occupied _ _).mpr ⟨pid, hpkey⟩)
  -- what the iteration reads
  obtain ⟨y, hy, hsib⟩ := hc.caches d.id d.cur hc.stored (by rw [hc.level]; exact hlt)
    (not_not.mpr ⟨hc.level.ge, by rw [hc.level, hc.index]⟩)
  rw [hc.level, hc.index] at hsib
  have hhash : Js.stringToBigInt d.cur.hash = some (subtree H leaf' l (j / 2 ^ l)) := by
    rw [hc.layout.hash hc.stored, hc.level, hc.index, walkVal_self]
  have hchildren : poseidon (if d.cur.key.index % 2 = 0
      then [subtree H leaf' l (j / 2 ^ l), subtree H leaf' l (siblingIndex (j / 2 ^ l))]
      else [subtree H leaf' l (siblingIndex (j / 2 ^ l)), subtree H leaf' l (j / 2 ^ l)])
        = subtree H leaf' (l + 1) (j / 2 ^ (l + 1)) := by
    rw [hc.index, ← div_pow_succ]
    split
    · next heven => exact (subtree_parent_of_even (H := H) heven).symm
    · next hodd => exact (subtree_parent_of_odd (H := H) hodd).symm
  have hfound : db.findByLevelAndIndex (d.cur.key.level + 1) (d.cur.key.index / 2) = some p := by
    rw [hc.level, hc.index, div_pow_succ, hp]
  set x := Js.bigIntToString (subtree H leaf' (l + 1) (j / 2 ^ (l + 1))) with hx
  have hstep : db.InStep (p.setHash x) := ⟨by show db.HasNode p.id p.loaded; rwa [hpsync],
    congrArg (·.key) hpsync.symm⟩
  have hl : (p.setHash x).loaded.key.level = l + 1 := (congrArg (·.key.level) hpsync).trans hplevel
  have hi : (p.setHash x).loaded.key.index = j / 2 ^ (l + 1) :=
    (congrArg (·.key.index) hpsync).trans hpindex
  refine ⟨{ p.setHash x with loaded := (p.setHash x).cur }, db.saveNode (p.setHash x), ?_,
    ?_, ?_, Db.hasNode_saveNode_self hstep, rfl, hplevel, hpindex⟩
  · conv_lhs => unfold updateParents
    simp only [hpid, hy, Js.bigIntOfField, bigIntOfText_ok hsib, bigIntOfText_ok hhash,
      MerkleTreeNode.findByLevelAndIndex, run_ofExcept_ok_bind, run_query_bind, hfound, hchildren]
    rfl
  · refine hc.layout.saveNode hstep ?_ ?_ ?_ ?_ (fun _ _ _ => id)
    · rw [hl, hi, walkVal_self]
      exact Js.stringToBigInt_bigIntToString _
    · intro k i hk
      rw [hl, hi] at hk
      exact walkVal_succ_of_ne hk
    · intro hlt' hno
      exact hc.layout.parent (hpsync ▸ hpnode) hlt' hno |>.imp fun pid hpid =>
        ⟨(congrArg (·.parent) hpsync).symm.trans hpid.1, hpid.2⟩
    · intro hle
      exact (congrArg (·.parent) hpsync).symm.trans (hc.layout.top (hpsync ▸ hpnode) hle)
  · have hmono : Caches levels (fun k i => subtree H leaf' k (siblingIndex i))
        (offPath j (l + 1)) db :=
      hc.caches.mono (fun _ _ _ _ => rfl) (fun k i _ hoff hon => hoff ⟨by omega, hon.2⟩)
    refine hmono.saveNode hc.layout hstep ?_ (fun _ _ _ _ _ => rfl) (fun _ _ _ => id)
    intro hlt' hon
    obtain ⟨y, hy, hv⟩ := hmono p.id p.loaded (hpsync ▸ hpnode) hlt' hon
    exact ⟨y, (congrArg (·.siblingHash) hpsync).symm.trans hy, hv⟩

/-- The loop: from any level the walk reaches the top. -/
theorem Climb.updateParents (k : ℕ) (hk : l + k = levels)
    (hc : Climb (pairHash poseidon) levels n j l leaf (Function.update leaf j v) d db) :
    ∃ d' db', (UserService.updateParents poseidon k d).run db = (.ok (), db') ∧
      Climb (pairHash poseidon) levels n j levels leaf (Function.update leaf j v) d' db' := by
  induction k generalizing l d db with
  | zero =>
      obtain rfl : l = levels := by omega
      refine ⟨d, db, ?_, hc⟩
      unfold UserService.updateParents
      rw [hc.layout.top hc.stored hc.level.ge]
      rfl
  | succ k ih =>
      obtain ⟨d₁, db₁, hrun, hc₁⟩ := hc.step (by omega) k
      obtain ⟨d', db', hrest, hc'⟩ := ih (by omega) hc₁
      exact ⟨d', db', hrun.trans hrest, hc'⟩

end Climb

/-! ## The update -/

/-- An update overwrites the first leaf with the hash, if there is one, and no other leaf. -/
theorem updateUser_leafRows (poseidon : List ℤ → ℤ) (config : IZKServerConfig)
    (leafHash newValue : String) (db : Db) :
    ((updateUser poseidon config leafHash newValue).exec db).leafRows
      = Collection.modifyFirst (fun r => r.2 = leafHash) (fun r => (r.1, newValue))
          db.leafRows := by
  have hmatch : ∀ r : IMerkleTreeNode, decide (r.key.level = 0 ∧ r.hash = leafHash)
      = (leafRow r).any fun x => decide (x.2 = leafHash) := by
    intro r
    by_cases hr : r.key.level = 0 <;> simp [leafRow, hr]
  unfold updateUser MerkleTreeNode.findLeafByHash
  rw [exec, run_query_bind]
  cases hfind : db.findLeafByHash leafHash with
  | none =>
      refine (Collection.modifyFirst_of_forall (fun x hx => ?_) _).symm
      obtain ⟨r, hr, hrx⟩ := List.mem_filterMap.mp hx
      have := Collection.findOne_eq_none.mp hfind r hr
      rwa [hmatch, hrx, Option.any_some] at this
  | some d =>
      obtain ⟨hd, hsync, hlevel, hhash⟩ := Db.findLeafByHash_eq_some hfind
      rw [run_bind_of_ok (run_save _ _)]
      refine (updateParents_leafRows _ _ _).trans ?_
      refine Collection.filterMap_modify_findOne (d := d) (f := (d.setHash newValue).merge) hmatch
        hfind ?_
      have hmerge : (d.setHash newValue).merge d.cur
          = { d.cur with hash := newValue } := by
        simp only [NodeDoc.merge, NodeDoc.setHash, hsync, if_true, ite_eq_right_iff,
          IMerkleTreeNode.mk.injEq, true_and]
        exact fun h => h.symm
      rw [hmerge]
      simp [leafRow, hlevel]

/-- The keys of the leaves in insertion order. -/
def Db.leafKeys (db : Db) : List IMerkleTreeNodeKey := db.leafRows.map Prod.fst

theorem Db.hasMember_iff_leafKeys {db : Db} {groupId : String} {i : ℤ} :
    db.HasMember groupId i ↔ ∃ k ∈ db.leafKeys, k.groupId = groupId ∧ k.indexInGroup = i := by
  simp only [Db.HasMember, Db.leafKeys, List.mem_map, exists_exists_and_eq_and]

theorem updateUser_leafKeys (poseidon : List ℤ → ℤ) (config : IZKServerConfig)
    (leafHash newValue : String) (db : Db) :
    (updateUser poseidon config leafHash newValue).wp
      (fun _ db' => db'.leafKeys = db.leafKeys) db := by
  refine (congrArg (List.map Prod.fst) (updateUser_leafRows _ _ _ newValue db)).trans ?_
  exact Collection.map_modifyFirst (f := fun r => (r.1, newValue)) (fun _ => rfl) db.leafRows

theorem removeEach_leafKeys (poseidon : List ℤ → ℤ) (config : IZKServerConfig) (groupId : String)
    (indexes : List ℤ) (db : Db) : (removeEach poseidon config groupId indexes).wp
      (fun _ db' => db'.leafKeys = db.leafKeys) db := by
  refine wp_removeEach (R := fun db db' => db'.leafKeys = db.leafKeys) (fun _ => rfl) ?_ ?_
    groupId indexes db
  · intro a b c h h'
    exact h'.trans h
  · exact fun leafHash db => updateUser_leafKeys poseidon config leafHash _ db

/-- A removal clears leaves and moves none. -/
theorem removeUsersByIndexes_leafKeys (poseidon : List ℤ → ℤ) (config : IZKServerConfig)
    (indexes : List ℤ) (groupId : String) (db : Db) :
    (removeUsersByIndexes poseidon config indexes groupId).wp
      (fun _ db' => db'.leafKeys = db.leafKeys) db :=
  wp_removeUsersByIndexes (fun _ => rfl) (removeEach_leafKeys poseidon config groupId indexes db)

/-- From a fresh path the update ends in a tree at rest with the leaf replaced. -/
theorem TreeInv.updateUser (h : TreeInv poseidon config n leaf stale db) {leafHash newValue : String}
    {v : ℤ} {d : NodeDoc} (hfind : db.findLeafByHash leafHash = some d)
    (hv : Js.stringToBigInt newValue = some v)
    (hfresh : db.FreshFrom poseidon config d.cur.key.index) :
    ∃ db', (UserService.updateUser poseidon config leafHash newValue).run db = (.ok (), db') ∧
      TreeInv poseidon config n (Function.update leaf d.cur.key.index v) (fun _ _ => True) db' := by
  obtain ⟨hd, hsync, hlevel, -⟩ := Db.findLeafByHash_eq_some hfind
  obtain ⟨d', db', hrun, hc⟩ := (h.climb hd hsync hlevel hv hfresh).updateParents
    config.merkleTreeLevels (Nat.zero_add _)
  have hrun' : (UserService.updateUser poseidon config leafHash newValue).run db
      = (.ok (), db') := by
    unfold UserService.updateUser MerkleTreeNode.findLeafByHash
    rw [run_query_bind, hfind]
    simp only
    rw [run_bind_of_ok (run_save _ _)]
    exact hrun
  have hexec : (UserService.updateUser poseidon config leafHash newValue).exec db = db' := by
    rw [exec, hrun']
  have hocc : d.cur.key.index < n := by
    have := (h.layout.occ_of_hasNode hd).2
    rwa [hlevel, pow_zero, mul_one] at this
  refine ⟨db', hrun', hc.layout.congr (fun _ _ => Iff.rfl) ?_ (fun _ _ _ _ => id), ?_, ?_, h.room,
    ?_, ?_⟩
  · intro k i hi
    unfold walkVal
    split
    · rfl
    · next hne => exact (subtree_update_of_ne fun hi' => hne ⟨hi.1, hi'⟩).symm
  · exact fun _ _ _ _ hno => absurd trivial hno
  · rw [getTotalNumberOfLeaves_eq, ← hexec, updateUser_leafRows, Collection.length_modifyFirst,
      ← getTotalNumberOfLeaves_eq, h.count]
  · intro k hk
    rw [Function.update_of_ne (by omega), h.beyond k hk]
  · rw [← hexec]
    exact ((updateUser_onlyTree _ _ leafHash newValue).exec_onlyTree db).treeZeros.trans h.seeded

/-- An update that returns and that had a parent to hash wrote a value that `BigInt` accepts. -/
theorem updateUser_numeric (poseidon : List ℤ → ℤ) {leafHash : String} {d : NodeDoc} {pid : ℕ}
    (hfind : db.findLeafByHash leafHash = some d) (hparent : d.cur.parent = some pid)
    (newValue : String) (hlevels : 0 < config.merkleTreeLevels) :
    (UserService.updateUser poseidon config leafHash newValue).wp
      (fun r _ => r = .ok () → ∃ v, Js.stringToBigInt newValue = some v) db := by
  obtain ⟨k, hk⟩ := Nat.exists_eq_succ_of_ne_zero hlevels.ne'
  unfold UserService.updateUser MerkleTreeNode.findLeafByHash
  rw [wp_bind, wp_query, andThen_ok, hfind]
  simp only [wp_bind, wp_save, andThen_ok, hk]
  unfold updateParents
  simp only [NodeDoc.setHash, hparent, wp_bind, wp_ofExcept]
  cases Js.bigIntOfField d.cur.siblingHash with
  | error e => exact fun h => nomatch h
  | ok sibling =>
      simp only [andThen_ok, wp_bind, wp_ofExcept]
      cases hvalue : Js.bigIntOfText newValue with
      | error e => exact fun h => nomatch h
      | ok v =>
          unfold Js.bigIntOfText at hvalue
          split at hvalue
          · next v hv => exact fun _ => ⟨v, hv⟩
          · cases hvalue

/-- An update of a hash that no leaf has throws and changes nothing. -/
theorem updateUser_missing {leafHash : String} (newValue : String)
    (hfind : db.findLeafByHash leafHash = none) :
    (updateUser poseidon config leafHash newValue).run db = (.error
      (.text ("The user with identity commitment " ++ leafHash ++ " doesn't exists")), db) := by
  unfold updateUser MerkleTreeNode.findLeafByHash
  rw [run_query_bind, hfind, run_throw]

end ZkChat
