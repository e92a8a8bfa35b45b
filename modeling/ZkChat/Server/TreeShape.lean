import ZkChat.Server.Appendable
import ZkChat.Server.ConcurrentTree

set_option autoImplicit false

/-! # The shape of the stored tree

Updates leave hashes behind that are not those of any tree, and appends build on them; which nodes
there are and how they are linked does not depend on that. `Laid` is a `Layout` that has forgotten
its values: of a hash it keeps that `BigInt` accepts it. Every append of a well-formed member walks
to the top (`Laying`), every update only replaces hashes, and so the nodes are those of a binary tree
over the leaves in every state of a run (`treeReached_proper`). -/

namespace ZkChat

open Prog UserService

/-! ## Layouts without values -/

/-- A layout in which every hash denotes some integer. -/
def Laid (levels : ℕ) (occ pending : ℕ → ℕ → Prop) (db : Db) : Prop :=
  ∃ val, Layout levels occ val pending db

theorem Db.inStep_of_find {db : Db} {l i : ℕ} {p d : NodeDoc}
    (h : db.findByLevelAndIndex l i = some p) (hid : d.id = p.id) (hloaded : d.loaded = p.loaded)
    (hkey : d.cur.key = p.cur.key) : db.InStep d := by
  obtain ⟨hp, hsync, -, -⟩ := Db.findByLevelAndIndex_eq_some h
  refine ⟨?_, ?_⟩
  · rwa [hid, hloaded, hsync]
  · rw [hkey, hloaded, hsync]

namespace Laid

variable {levels : ℕ} {occ occ' pending pending' : ℕ → ℕ → Prop} {db : Db} {d : NodeDoc}

theorem hash (h : Laid levels occ pending db) {id : ℕ} {r : IMerkleTreeNode}
    (hr : db.HasNode id r) : Js.BigIntText r.hash := by
  obtain ⟨val, h⟩ := h
  exact ⟨_, h.hash hr⟩

theorem find (h : Laid levels occ pending db) {l i : ℕ} (hocc : occ l i) :
    ∃ d, db.findByLevelAndIndex l i = some d := by
  obtain ⟨val, h⟩ := h
  obtain ⟨d, hd, -⟩ := h.find hocc
  exact ⟨d, hd⟩

theorem mono (h : Laid levels occ pending db) (hocc : ∀ l i, occ l i ↔ occ' l i)
    (hpending : ∀ l i, l < levels → pending l i → pending' l i) : Laid levels occ' pending' db := by
  obtain ⟨val, h⟩ := h
  exact ⟨val, h.congr hocc (fun _ _ _ => rfl) fun l i _ hlt => hpending l i hlt⟩

/-- Saving a document that is in step. -/
theorem saveNode (h : Laid levels occ pending db) (hd : db.InStep d)
    (hhash : Js.BigIntText d.cur.hash)
    (hparent : d.loaded.key.level < levels → ¬ pending' d.loaded.key.level d.loaded.key.index →
      ∃ pid, d.cur.parent = some pid ∧
        db.HasKey pid (d.loaded.key.level + 1) (d.loaded.key.index / 2))
    (htop : levels ≤ d.loaded.key.level → d.cur.parent = none)
    (hpending : ∀ l i, ¬ (l = d.loaded.key.level ∧ i = d.loaded.key.index) →
      pending l i → pending' l i) : Laid levels occ pending' (db.saveNode d) := by
  obtain ⟨val, h⟩ := h
  obtain ⟨v, hv⟩ := hhash
  refine ⟨fun l i => if l = d.loaded.key.level ∧ i = d.loaded.key.index then v else val l i,
    h.saveNode hd ?_ ?_ hparent htop hpending⟩
  · simp [hv]
  · exact fun l i hne => (if_neg hne).symm

/-- A save that leaves the link alone. -/
theorem saveNode_of_parent (h : Laid levels occ pending db) (hd : db.InStep d)
    (hhash : Js.BigIntText d.cur.hash) (hlink : d.cur.parent = d.loaded.parent) :
    Laid levels occ pending (db.saveNode d) := by
  refine h.saveNode hd hhash ?_ ?_ fun _ _ _ => id
  · obtain ⟨val, h⟩ := h
    rw [hlink]
    exact h.parent hd.1
  · obtain ⟨val, h⟩ := h
    rw [hlink]
    exact h.top hd.1

/-- A node that was searched is given a new hash. -/
theorem setHash (h : Laid levels occ pending db) {l i : ℕ} {p : NodeDoc} {x : String}
    (hfind : db.findByLevelAndIndex l i = some p) (hx : Js.BigIntText x) :
    Laid levels occ pending (db.saveNode (p.setHash x)) := by
  obtain ⟨-, hsync, -, -⟩ := Db.findByLevelAndIndex_eq_some hfind
  exact h.saveNode_of_parent (Db.inStep_of_find hfind rfl rfl rfl) hx
    (congrArg (·.parent) hsync.symm)

/-- Creating a node, without links, at a free place. -/
theorem createNode (h : Laid levels occ pending db) {r : IMerkleTreeNode}
    (hfree : ¬ occ r.key.level r.key.index) (hlink : r.parent = none) (hhash : Js.BigIntText r.hash)
    (hpending : ∀ l i, pending l i → pending' l i)
    (hnew : r.key.level < levels → pending' r.key.level r.key.index) :
    Laid levels (fun l i => occ l i ∨ (l = r.key.level ∧ i = r.key.index)) pending'
      (db.createNode r) := by
  obtain ⟨val, h⟩ := h
  obtain ⟨v, hv⟩ := hhash
  refine ⟨fun l i => if l = r.key.level ∧ i = r.key.index then v else val l i,
    h.createNode hfree hlink ?_ ?_ (fun l i _ => hpending l i) hnew⟩
  · simp [hv]
  · exact fun l i hne => (if_neg hne).symm

end Laid

/-! ## The walk of an append -/

/-- The loop invariant of an append before level `l`. -/
structure Laying (levels n l : ℕ) (d : NodeDoc) (db : Db) : Prop where
  laid : Laid levels (walkOcc levels n l) (onPath n l) db
  stored : db.HasNode d.id d.cur
  synced : d.loaded = d.cur
  level : d.cur.key.level = l
  index : d.cur.key.index = n / 2 ^ l

namespace Laying

variable {poseidon : List ℤ → ℤ} {levels n l : ℕ} {d p : NodeDoc} {db : Db} {x : String}

/-- A document in hand stays in step under assignments to its links and its cache. -/
theorem inStep (h : Laying levels n l d db) {d' : NodeDoc} (hid : d'.id = d.id)
    (hloaded : d'.loaded = d.loaded) (hkey : d'.cur.key = d.cur.key) : db.InStep d' := by
  refine ⟨?_, ?_⟩
  · rw [hid, hloaded, h.synced]; exact h.stored
  · rw [hkey, hloaded, h.synced]

/-- The parent `p` is in place. Linking the node in hand to it ends the iteration. -/
theorem link (hlaid : Laid levels (walkOcc levels n (l + 1))
      (fun k i => onPath n l k i ∨ onPath n (l + 1) k i) db)
    (hlt : l < levels) {d' : NodeDoc} (hd : db.InStep d') (hlevel : d'.loaded.key.level = l)
    (hindex : d'.loaded.key.index = n / 2 ^ l) (hhash : d'.cur.hash = d'.loaded.hash)
    (hparent : d'.cur.parent = some p.id) (hp : db.HasNode p.id p.cur) (hpsync : p.loaded = p.cur)
    (hplevel : p.cur.key.level = l + 1) (hpindex : p.cur.key.index = n / 2 ^ (l + 1)) :
    Laying levels n (l + 1) p (db.saveNode d') := by
  have hne : p.id ≠ d'.id := hp.id_ne hd.1 (Or.inl (by rw [hplevel, hlevel]; omega))
  refine ⟨hlaid.saveNode hd ?_ ?_ ?_ ?_, hp.saveNode hd hne, hpsync, hplevel, hpindex⟩
  · rw [hhash]
    exact hlaid.hash hd.1
  · intro _ _
    refine ⟨p.id, hparent, p.cur, hp, ?_, ?_⟩
    · rw [hlevel, hplevel]
    · rw [hindex, hpindex, div_pow_succ]
  · intro hle
    omega
  · rintro k i hne' (⟨rfl, rfl⟩ | hk)
    · exact absurd ⟨hlevel.symm, hindex.symm⟩ hne'
    · exact hk

/-- The parent exists and is given a new hash. -/
theorem placed_of_save (h : Laying levels n l d db)
    (hfound : db.findByLevelAndIndex (l + 1) (n / 2 ^ (l + 1)) = some p) (hx : Js.BigIntText x) :
    Laid levels (walkOcc levels n (l + 1)) (fun k i => onPath n l k i ∨ onPath n (l + 1) k i)
      (db.saveNode (p.setHash x)) ∧ (db.saveNode (p.setHash x)).HasNode d.id d.cur := by
  obtain ⟨hp, -, hplevel, hpindex⟩ := Db.findByLevelAndIndex_eq_some hfound
  have hne : d.id ≠ p.id := h.stored.id_ne hp (Or.inl (by rw [h.level, hplevel]; omega))
  refine ⟨(h.laid.setHash hfound hx).mono ?_ fun _ _ _ => Or.inl,
    h.stored.saveNode (Db.inStep_of_find hfound rfl rfl rfl) hne⟩
  intro k i
  rw [walkOcc_succ, iff_self_or]
  rintro ⟨rfl, rfl⟩
  obtain ⟨val, hlay⟩ := h.laid
  have := hlay.occ_of_hasNode hp
  rwa [hplevel, hpindex] at this

/-- The parent does not exist and is created. -/
theorem placed_of_create (h : Laying levels n l d db)
    (hfound : db.findByLevelAndIndex (l + 1) (n / 2 ^ (l + 1)) = none) {r : IMerkleTreeNode}
    (hlevel : r.key.level = l + 1) (hindex : r.key.index = n / 2 ^ (l + 1)) (hlink : r.parent = none)
    (hhash : Js.BigIntText r.hash) :
    Laid levels (walkOcc levels n (l + 1)) (fun k i => onPath n l k i ∨ onPath n (l + 1) k i)
      (db.createNode r) ∧ (db.createNode r).HasNode d.id d.cur := by
  refine ⟨(h.laid.createNode ?_ hlink hhash (fun _ _ => Or.inl) ?_).mono ?_ fun _ _ _ => id,
    Db.hasNode_createNode.mpr (Or.inl h.stored)⟩
  · obtain ⟨val, hlay⟩ := h.laid
    rw [hlevel, hindex]
    exact hlay.not_occ_of_find hfound
  · exact fun _ => Or.inr ⟨hlevel, hindex⟩
  · intro k i
    rw [walkOcc_succ, hlevel, hindex]

/-- Saving another node with its link as it was. -/
theorem saveOther (h : Laying levels n l d db) {s : NodeDoc} (hs : db.InStep s)
    (hhash : Js.BigIntText s.cur.hash) (hlink : s.cur.parent = s.loaded.parent)
    (hne : d.id ≠ s.id) : Laying levels n l d (db.saveNode s) :=
  ⟨h.laid.saveNode_of_parent hs hhash hlink, h.stored.saveNode hs hne, h.synced, h.level, h.index⟩

/-- One iteration at a left node. -/
theorem appendLeft (h : Laying levels n l d db) (hlt : l < levels) {zeros : List IMerkleTreeZero}
    {zero : IMerkleTreeZero} (hzero : zeros[l]? = some zero) (hz : Js.BigIntText zero.hash)
    (groupId : String) :
    ∃ d' db', (UserService.appendLeft poseidon zeros groupId l (n / 2 ^ l) d).run db = (.ok d', db')
      ∧ Laying levels n (l + 1) d' db' := by
  obtain ⟨x, hhash, hx⟩ := hashPair_ok_text poseidon (h.laid.hash h.stored) hz
  have hlevel : d.loaded.key.level = l := (congrArg (·.key.level) h.synced).trans h.level
  have hindex : d.loaded.key.index = n / 2 ^ l := (congrArg (·.key.index) h.synced).trans h.index
  cases hfound : db.findByLevelAndIndex (l + 1) (n / 2 ^ (l + 1)) with
  | some p =>
      obtain ⟨hp, -, hplevel, hpindex⟩ := Db.findByLevelAndIndex_eq_some hfound
      obtain ⟨hlaid, hstored⟩ := h.placed_of_save hfound hx
      refine ⟨_, _, run_appendLeft_found hzero hhash (by rwa [div_pow_succ]),
        link hlaid hlt ⟨?_, congrArg (·.key) h.synced.symm⟩ hlevel hindex
        (congrArg (·.hash) h.synced.symm) rfl
        (Db.hasNode_saveNode_self (Db.inStep_of_find hfound rfl rfl rfl)) rfl hplevel hpindex⟩
      exact h.synced ▸ hstored
  | none =>
      set r : IMerkleTreeNode :=
        { key := { groupId, level := l + 1, index := n / 2 ^ (l + 1), indexInGroup := -1 }
          hash := x }
      obtain ⟨hlaid, hstored⟩ := h.placed_of_create (r := r) hfound rfl rfl rfl hx
      have hr : r = { key := { groupId, level := l + 1, index := n / 2 ^ l / 2, indexInGroup := -1 }
                      hash := x } := by rw [div_pow_succ]
      refine ⟨_, _, run_appendLeft_created hzero hhash (by rwa [div_pow_succ]) hr,
        link (p := ⟨db.treeNodes.length, r, r⟩) hlaid hlt
        ⟨?_, congrArg (·.key) h.synced.symm⟩ hlevel hindex (congrArg (·.hash) h.synced.symm) rfl
        (Db.hasNode_createNode.mpr (Or.inr ⟨rfl, rfl⟩)) rfl rfl rfl⟩
      exact h.synced ▸ hstored

/-- One iteration at a right node. -/
theorem appendRight (h : Laying levels n l d db) (hlt : l < levels) (hodd : n / 2 ^ l % 2 ≠ 0) :
    ∃ d' db', (UserService.appendRight poseidon l (n / 2 ^ l) d).run db = (.ok d', db')
      ∧ Laying levels n (l + 1) d' db' := by
  have hpos : n / 2 ^ l ≠ 0 := fun h => hodd (by rw [h])
  obtain ⟨s, hs⟩ := h.laid.find (Or.inl (shape_sibling_of_odd hlt.le hodd))
  obtain ⟨p, hp⟩ := h.laid.find (Or.inl (shape_parent_of_odd hlt hodd))
  obtain ⟨hsnode, hssync, hslevel, hsindex⟩ := Db.findByLevelAndIndex_eq_some hs
  obtain ⟨hpnode, -, hplevel, hpindex⟩ := Db.findByLevelAndIndex_eq_some hp
  obtain ⟨x, hhash, hx⟩ :=
    hashPair_ok_text poseidon (h.laid.hash hsnode) (h.laid.hash h.stored)
  set cur' := (d.setSiblingHash s.cur.hash).setParent (p.setHash x)
  set sib' := s.setSiblingHash d.cur.hash
  have hrun := run_appendRight (l := l) (i := n / 2 ^ l) hs hhash (by rwa [div_pow_succ])
  -- the three saves are to different nodes
  have hne_dp : d.id ≠ p.id := h.stored.id_ne hpnode (Or.inl (by rw [h.level, hplevel]; omega))
  have hne_sd : s.id ≠ d.id :=
    hsnode.id_ne h.stored (Or.inr (by rw [hsindex, h.index]; exact (Nat.sub_one_lt hpos).ne))
  have hne_sp : s.id ≠ p.id := hsnode.id_ne hpnode (Or.inl (by rw [hslevel, hplevel]; omega))
  have hcomm : (db.saveNode cur').saveNode (p.setHash x)
      = (db.saveNode (p.setHash x)).saveNode cur' := Db.saveNode_comm hne_dp
  rw [hcomm] at hrun
  obtain ⟨hlaid, hstored⟩ := h.placed_of_save hp hx
  have hpstep : db.InStep (p.setHash x) := Db.inStep_of_find hp rfl rfl rfl
  have hcur : (db.saveNode (p.setHash x)).InStep cur' :=
    ⟨h.synced ▸ hstored, congrArg (·.key) h.synced.symm⟩
  have hlinked := link (p := { p.setHash x with loaded := (p.setHash x).cur }) hlaid hlt hcur
    ((congrArg (·.key.level) h.synced).trans h.level)
    ((congrArg (·.key.index) h.synced).trans h.index) (congrArg (·.hash) h.synced.symm) rfl
    (Db.hasNode_saveNode_self hpstep) rfl hplevel hpindex
  have hsib := hsnode.inStep_setSiblingHash hssync hpstep hcur hne_sp hne_sd d.cur.hash
  have hsibhash : Js.BigIntText s.cur.hash := h.laid.hash hsnode
  exact ⟨_, _, hrun, hlinked.saveOther hsib hsibhash (congrArg (·.parent) hssync.symm) hne_sp.symm⟩

/-- The loop: from any level the walk reaches the top. -/
theorem appendLevels {config : IZKServerConfig} {zeros : List IMerkleTreeZero}
    (hzeros : ∀ k < config.merkleTreeLevels, ∃ zero, zeros[k]? = some zero ∧
      Js.BigIntText zero.hash) (groupId : String) (k : ℕ) (hk : l + k = config.merkleTreeLevels)
    (h : Laying config.merkleTreeLevels n l d db) :
    ∃ d' db', (UserService.appendLevels poseidon zeros groupId k l (n / 2 ^ l) d).run db
        = (.ok (), db') ∧
      Laying config.merkleTreeLevels n config.merkleTreeLevels d' db' := by
  induction k generalizing l d db with
  | zero =>
      obtain rfl : l = config.merkleTreeLevels := by omega
      exact ⟨d, db, rfl, h⟩
  | succ k ih =>
      have hstep : ∃ d' db',
          (UserService.appendLevel poseidon zeros groupId l (n / 2 ^ l) d).run db = (.ok d', db') ∧
          Laying config.merkleTreeLevels n (l + 1) d' db' := by
        unfold UserService.appendLevel
        split
        · obtain ⟨zero, hzero, hz⟩ := hzeros l (by omega)
          exact h.appendLeft (by omega) hzero hz groupId
        · next hodd => exact h.appendRight (by omega) hodd
      obtain ⟨d₁, db₁, hrun, h₁⟩ := hstep
      obtain ⟨d', db', hrest, h'⟩ := ih (by omega) h₁
      refine ⟨d', db', ?_, h'⟩
      rw [UserService.appendLevels, run_bind_of_ok hrun, div_pow_succ, hrest]

end Laying

/-! ## The invariant -/

/-- A stored tree of `n` leaves, whatever its hashes are. -/
structure Shaped (poseidon : List ℤ → ℤ) (config : IZKServerConfig) (n : ℕ) (db : Db) : Prop where
  laid : Laid config.merkleTreeLevels (shape config.merkleTreeLevels n) (fun _ _ => False) db
  count : db.getTotalNumberOfLeaves = n
  room : n ≤ 2 ^ config.merkleTreeLevels
  levels : 0 < n → 0 < config.merkleTreeLevels
  positions : db.positions.Nodup
  seeded : Seeded poseidon config db

namespace Shaped

variable {poseidon : List ℤ → ℤ} {config : IZKServerConfig} {n : ℕ} {db : Db}

theorem empty (hseeded : Seeded poseidon config db) (hnodes : db.treeNodes = []) :
    Shaped poseidon config 0 db := by
  have htree : TreeInv poseidon config 0 (fun _ => config.zeroValue) (fun _ _ => False) db :=
    .empty hseeded hnodes
  refine ⟨⟨_, htree.layout⟩, htree.count, htree.room, fun h => absurd h (lt_irrefl 0), ?_,
    hseeded⟩
  simp [Db.positions, Db.leafRows, hnodes]

theorem treeZeros_length (h : Shaped poseidon config n db) :
    db.treeZeros.length = config.merkleTreeLevels := by
  rw [h.seeded, List.length_map, List.length_range]

/-! ## Appending -/

/-- A new member becomes leaf `n`. -/
theorem appendUser (h : Shaped poseidon config n db) (hlevels : 0 < config.merkleTreeLevels)
    {groupId : String} {user : IGroupMember} (hfree : ¬ db.HasMember groupId user.index)
    (huser : user.Numeric) (hroom : n < 2 ^ config.merkleTreeLevels) :
    ∃ db', (UserService.appendUser poseidon config db.treeZeros groupId user).run db
        = (.ok (), db') ∧ Shaped poseidon config (n + 1) db' := by
  set r := newLeaf groupId user n
  have hstart : Laying config.merkleTreeLevels n 0 ⟨db.treeNodes.length, r, r⟩
      (db.createNode r) := by
    have hpending : ∀ l i, False → onPath n 0 l i := fun _ _ => False.elim
    refine ⟨(h.laid.createNode (r := r) ?_ rfl huser hpending ?_).mono ?_
      fun _ _ _ => id, Db.hasNode_createNode.mpr (Or.inr ⟨rfl, rfl⟩), rfl, rfl, by simp [r]⟩
    · simp [shape, r]
    · exact fun _ => ⟨rfl, by simp [r]⟩
    · intro k i
      rw [walkOcc, Nat.le_zero]
      refine or_congr_right (and_congr_right ?_)
      rintro rfl
      simp [r]
  have hzeros : ∀ k < config.merkleTreeLevels, ∃ zero, db.treeZeros[k]? = some zero ∧
      Js.BigIntText zero.hash := by
    intro k hk
    obtain ⟨zero, hzero, hz⟩ := h.seeded.zero hk
    exact ⟨zero, hzero, _, hz⟩
  obtain ⟨d', db', hrun, hend⟩ := @Laying.appendLevels poseidon _ _ _ _ _ _ hzeros groupId
    config.merkleTreeLevels (Nat.zero_add _) hstart
  rw [pow_zero, Nat.div_one] at hrun
  have hrun' : (UserService.appendUser poseidon config db.treeZeros groupId user).run db
      = (.ok (), db') := (run_appendUser_of_room h.count hroom).trans hrun
  have hout := appendMember_outcome poseidon config db.treeZeros groupId user db
  rw [wp, run_appendMember_free hfree, hrun'] at hout
  have hrows := appendUser_leafRows poseidon db.treeZeros groupId user (h.count.symm ▸ hroom)
  rw [wp, hrun'] at hrows
  have hwithin : (UserService.appendUser poseidon config db.treeZeros groupId user).Within
      OnlyTree := appendUser_onlyTree db.treeZeros groupId user
  have honly := hwithin.exec_onlyTree db
  rw [exec, hrun'] at honly
  refine ⟨db', hrun', hend.laid.mono ?_ ?_, ?_, hroom, fun _ => hlevels,
    hout.nodup_positions h.positions, honly.treeZeros.trans h.seeded⟩
  · exact fun _ _ => walkOcc_top
  · intro k i hlt hp
    exact absurd hp.1 (by omega)
  · rw [getTotalNumberOfLeaves_eq, hrows, List.length_append, ← getTotalNumberOfLeaves_eq, h.count,
      List.length_singleton]

/-- One member of a list: its position is taken, or there is no room, or it gets the next leaf. -/
inductive Member (poseidon : List ℤ → ℤ) (config : IZKServerConfig) (groupId : String)
    (user : IGroupMember) (n : ℕ) (db : Db) : Except Exn Unit → Db → Prop
  | taken (h : db.HasMember groupId user.index) :
      Member poseidon config groupId user n db (.ok ()) db
  | full (hfree : ¬ db.HasMember groupId user.index) (hn : n = 2 ^ config.merkleTreeLevels) :
      Member poseidon config groupId user n db (.error (.text "The tree is full")) db
  | added (db' : Db) (hfree : ¬ db.HasMember groupId user.index)
      (hn : n < 2 ^ config.merkleTreeLevels) (h : Shaped poseidon config (n + 1) db') :
      Member poseidon config groupId user n db (.ok ()) db'

theorem appendMember (h : Shaped poseidon config n db) (hlevels : 0 < config.merkleTreeLevels)
    (groupId : String) {user : IGroupMember} (huser : user.Numeric) :
    (UserService.appendMember poseidon config db.treeZeros groupId user).wp
      (Member poseidon config groupId user n db) db := by
  by_cases hmember : db.HasMember groupId user.index
  · rw [wp, run_appendMember_taken hmember]
    exact .taken hmember
  · rw [wp, run_appendMember_free hmember]
    rcases h.room.lt_or_eq with hroom | hfull
    · obtain ⟨db', hrun, h'⟩ := h.appendUser hlevels hmember huser hroom
      rw [hrun]
      exact .added db' hmember hroom h'
    · rw [run_appendUser_full (h.count.trans hfull).ge]
      exact .full hmember hfull

/-- After some of the list has been appended, the next member is not in the tree and there is no room
    any more. -/
def ReachesFull (append : List IGroupMember → Server String) (config : IZKServerConfig)
    (groupId : String) (users : List IGroupMember) (db : Db) : Prop :=
  ∃ before user after r db', users = before ++ user :: after ∧
    (append before).run db = (.ok r, db') ∧ ¬ db'.HasMember groupId user.index ∧
    db'.getTotalNumberOfLeaves = 2 ^ config.merkleTreeLevels

theorem reachesFull_cons {zeros : List IMerkleTreeZero} {groupId : String} {user : IGroupMember}
    {users : List IGroupMember} {db₁ : Db}
    (hrun : (UserService.appendMember poseidon config zeros groupId user).run db = (.ok (), db₁))
    (hnot : db.HasMember groupId user.index ∨
      db.getTotalNumberOfLeaves ≠ 2 ^ config.merkleTreeLevels) :
    ReachesFull (UserService.appendMembers poseidon config zeros groupId) config groupId
        (user :: users) db ↔
      ReachesFull (UserService.appendMembers poseidon config zeros groupId) config groupId
        users db₁ := by
  constructor
  · rintro ⟨before, v, after, r, db', husers, hbefore, hfree, hfull⟩
    cases before with
    | nil =>
        obtain ⟨rfl, rfl⟩ := List.cons.inj husers
        obtain ⟨-, rfl⟩ := Prod.mk.inj hbefore
        exact absurd hnot (not_or.mpr ⟨hfree, not_not.mpr hfull⟩)
    | cons w before =>
        obtain ⟨rfl, rfl⟩ := List.cons.inj husers
        rw [UserService.appendMembers, run_bind_of_ok hrun] at hbefore
        exact ⟨before, v, after, r, db', rfl, hbefore, hfree, hfull⟩
  · rintro ⟨before, v, after, r, db', rfl, hbefore, hfree, hfull⟩
    refine ⟨user :: before, v, after, r, db', rfl, ?_, hfree, hfull⟩
    rw [UserService.appendMembers, run_bind_of_ok hrun]
    exact hbefore

/-- A list of members extends the tree, and throws exactly when the room ends before it does. -/
theorem appendMembers (h : Shaped poseidon config n db) (hlevels : 0 < config.merkleTreeLevels)
    (groupId : String) {users : List IGroupMember} (husers : ∀ user ∈ users, user.Numeric) :
    (UserService.appendMembers poseidon config db.treeZeros groupId users).wp
      (fun r db' => (∃ n', Shaped poseidon config n' db') ∧
        (r = .error (.text "The tree is full") ↔ ReachesFull
          (UserService.appendMembers poseidon config db.treeZeros groupId) config groupId users db))
      db := by
  induction users generalizing n db with
  | nil =>
      refine ⟨⟨n, h⟩, iff_of_false (fun hr => by cases hr) ?_⟩
      rintro ⟨before, user, after, -, -, husers, -⟩
      simp at husers
  | cons user users ih =>
      have hstep := h.appendMember hlevels groupId (husers user (by simp))
      have hrest := fun u hu => husers u (List.mem_cons_of_mem user hu)
      unfold UserService.appendMembers
      rw [wp_bind, wp]
      cases hrun : (UserService.appendMember poseidon config db.treeZeros groupId user).run db with
      | mk r db₁ =>
          rw [wp, hrun] at hstep
          cases hstep with
          | taken htaken =>
              rw [andThen_ok]
              refine wp_mono (ih h hrest) ?_
              rintro r db' ⟨hn, hfull⟩
              exact ⟨hn, hfull.trans (reachesFull_cons hrun (Or.inl htaken)).symm⟩
          | full hfree hn =>
              refine ⟨⟨n, h⟩, iff_of_true rfl ?_⟩
              exact ⟨[], user, users, _, _, rfl, rfl, hfree, h.count.trans hn⟩
          | added db₁ hfree hn h₁ =>
              have hzeros : db₁.treeZeros = db.treeZeros := h₁.seeded.trans h.seeded.symm
              have hnot : db.getTotalNumberOfLeaves ≠ 2 ^ config.merkleTreeLevels := by
                rw [h.count]
                exact hn.ne
              rw [andThen_ok, ← hzeros]
              rw [← hzeros] at hrun
              refine wp_mono (ih h₁ hrest) ?_
              rintro r db' ⟨hn, hfull⟩
              exact ⟨hn, hfull.trans (reachesFull_cons hrun (Or.inr hnot)).symm⟩

theorem ReachesFull.imp {append append' : List IGroupMember → Server String} {groupId : String}
    {users : List IGroupMember}
    (h : ∀ before db', (∃ r, (append before).run db = (.ok r, db')) →
      ∃ r, (append' before).run db = (.ok r, db'))
    (hreach : ReachesFull append config groupId users db) :
    ReachesFull append' config groupId users db := by
  obtain ⟨before, user, after, r, db', husers, hrun, hmember⟩ := hreach
  obtain ⟨r', hrun'⟩ := h before db' ⟨r, hrun⟩
  exact ⟨before, user, after, r', db', husers, hrun', hmember⟩

theorem appendUsers (h : Shaped poseidon config n db) (groupId : String)
    {users : List IGroupMember} (husers : ∀ user ∈ users, user.Numeric) :
    (UserService.appendUsers poseidon config users groupId).wp
      (fun r db' => (∃ n', Shaped poseidon config n' db') ∧
        (r = .error (.text "The tree is full") ↔ ReachesFull
          (fun users => UserService.appendUsers poseidon config users groupId) config groupId users
            db)) db := by
  rcases eq_or_ne users [] with rfl | hne
  · refine ⟨⟨n, h⟩, iff_of_false (fun hr => nomatch hr) ?_⟩
    rintro ⟨before, user, after, -, -, husers, -⟩
    simp at husers
  rw [wp]
  by_cases hzeros : db.treeZeros = []
  · -- without levels nothing was ever appended, and nothing is
    rw [run_appendUsers_unseeded hne hzeros]
    refine ⟨⟨n, h⟩, iff_of_false (by simp) ?_⟩
    rintro ⟨before, user, after, r, db', -, hrun, -, hfull⟩
    rcases eq_or_ne before [] with rfl | hbefore
    · obtain ⟨-, rfl⟩ := Prod.mk.inj hrun
      have hlevels := h.levels (by rw [← h.count, hfull]; exact Nat.two_pow_pos _)
      rw [← h.treeZeros_length, hzeros] at hlevels
      exact absurd hlevels (lt_irrefl 0)
    · rw [run_appendUsers_unseeded hbefore hzeros] at hrun
      cases hrun
  · have hlevels : 0 < config.merkleTreeLevels :=
      h.treeZeros_length ▸ List.length_pos_of_ne_nil hzeros
    rw [run_appendUsers hne hzeros]
    obtain ⟨hn, hfull⟩ := h.appendMembers hlevels groupId husers
    -- the part of the list before the member that is reached is appended by the same loop
    refine ⟨hn, hfull.trans ⟨ReachesFull.imp ?_, ReachesFull.imp ?_⟩⟩
    all_goals
      rintro before db' ⟨r, hrun⟩
      rcases eq_or_ne before [] with rfl | hbefore
      · exact ⟨_, congrArg (Except.ok _, ·) (Prod.mk.inj hrun).2⟩
    · exact ⟨r, (run_appendUsers hbefore hzeros).trans hrun⟩
    · exact ⟨r, (run_appendUsers hbefore hzeros).symm.trans hrun⟩

end Shaped

/-! ## Updating -/

namespace Laid

variable {poseidon : List ℤ → ℤ} {config : IZKServerConfig} {levels : ℕ}
  {occ pending : ℕ → ℕ → Prop} {db : Db}

theorem updateParents (h : Laid levels occ pending db) (fuel : ℕ) (node : NodeDoc) :
    (UserService.updateParents poseidon fuel node).wp
      (fun _ db' => Laid levels occ pending db') db := by
  refine updateParents_invariant (P := Laid levels occ pending) ?_ fuel node db h
  exact fun db' l i p z hp h' => h'.setHash hp (Js.bigIntText_bigIntToString z)

/-- An update replaces hashes and links nothing. -/
theorem updateUser (h : Laid levels occ pending db) (leafHash : String) {newValue : String}
    (hvalue : Js.BigIntText newValue) :
    (UserService.updateUser poseidon config leafHash newValue).wp
      (fun _ db' => Laid levels occ pending db') db := by
  unfold UserService.updateUser MerkleTreeNode.findLeafByHash
  rw [wp_bind, wp_query, andThen_ok]
  cases hfind : db.findLeafByHash leafHash with
  | none => exact h
  | some d =>
      obtain ⟨hd, hsync, -, -⟩ := Db.findLeafByHash_eq_some hfind
      simp only [wp_bind, wp_save, andThen_ok]
      exact (h.saveNode_of_parent (d := d.setHash newValue)
        ⟨hsync ▸ hd, congrArg (·.key) hsync.symm⟩ hvalue
        (congrArg (·.parent) hsync.symm)).updateParents _ _

theorem removeEach (h : Laid levels occ pending db) (groupId : String) (indexes : List ℤ) :
    (UserService.removeEach poseidon config groupId indexes).wp
      (fun _ db' => Laid levels occ pending db') db := by
  refine wp_removeEach (R := fun db db' => Laid levels occ pending db → Laid levels occ pending db')
    (fun _ h => h) (fun h h' hdb => h' (h hdb)) ?_ groupId indexes db h
  exact fun leafHash db hdb => hdb.updateUser leafHash (Js.bigIntText_bigIntToString _)

theorem removeUsersByIndexes (h : Laid levels occ pending db) (indexes : List ℤ)
    (groupId : String) : (UserService.removeUsersByIndexes poseidon config indexes groupId).wp
      (fun _ db' => Laid levels occ pending db') db :=
  wp_removeUsersByIndexes (fun _ => h) (h.removeEach groupId indexes)

end Laid

/-! ## Runs -/

/-- The states that operations of a kind lead to, one after another, from a seeded store. -/
inductive TreeReached (poseidon : List ℤ → ℤ) (config : IZKServerConfig) (ok : TreeOp → Prop) :
    Db → Prop
  | seeded {db : Db}
      (h : (seedZeros poseidon config.zeroValue config.merkleTreeLevels).run {} = (.ok (), db)) :
      TreeReached poseidon config ok db
  | op {db : Db} (h : TreeReached poseidon config ok db) (o : TreeOp) (hok : ok o) :
      TreeReached poseidon config ok (o.exec poseidon config db)

section

variable {poseidon : List ℤ → ℤ} {config : IZKServerConfig} {n : ℕ} {db db' : Db}

theorem Db.positions_eq (db : Db) :
    db.positions = db.leafKeys.map fun k => (k.groupId, k.indexInGroup) := by
  simp [Db.positions, Db.leafKeys]

/-- Where the leaves keep their keys and the nodes their links, the shape stays. -/
theorem Shaped.of_leafKeys (h : Shaped poseidon config n db)
    (hlaid : Laid config.merkleTreeLevels (shape config.merkleTreeLevels n) (fun _ _ => False) db')
    (hkeys : db'.leafKeys = db.leafKeys) (honly : OnlyTree db db') :
    Shaped poseidon config n db' := by
  refine ⟨hlaid, ?_, h.room, h.levels, ?_, honly.treeZeros.trans h.seeded⟩
  · have hlength := congrArg List.length hkeys
    simp only [Db.leafKeys, List.length_map] at hlength
    rw [getTotalNumberOfLeaves_eq, hlength, ← getTotalNumberOfLeaves_eq, h.count]
  · rw [Db.positions_eq, hkeys, ← Db.positions_eq]
    exact h.positions

theorem Shaped.exec (h : Shaped poseidon config n db) (o : TreeOp) (ho : o.Numeric) :
    ∃ n', Shaped poseidon config n' (o.exec poseidon config db) := by
  cases o with
  | appendUsers users groupId => exact (h.appendUsers groupId ho).1
  | removeUsersByIndexes indexes groupId =>
      exact ⟨n, h.of_leafKeys (h.laid.removeUsersByIndexes indexes groupId)
        (removeUsersByIndexes_leafKeys poseidon config indexes groupId db)
        ((removeUsersByIndexes_onlyTree indexes groupId).exec_onlyTree db)⟩
  | updateUser leafHash newValue =>
      exact ⟨n, h.of_leafKeys (h.laid.updateUser leafHash ho)
        (updateUser_leafKeys poseidon config leafHash newValue db)
        ((updateUser_onlyTree poseidon config leafHash newValue).exec_onlyTree db)⟩

theorem TreeReached.shaped (h : TreeReached poseidon config TreeOp.Numeric db) :
    ∃ n, Shaped poseidon config n db := by
  induction h with
  | seeded hrun =>
      obtain ⟨db', hrun', hseeded, hnodes⟩ := seedZeros_seeded poseidon config
      obtain rfl := (Prod.mk.inj (hrun'.symm.trans hrun)).2
      exact ⟨0, .empty hseeded hnodes⟩
  | op _ o hok ih =>
      obtain ⟨n, hn⟩ := ih
      exact hn.exec o hok

end

/-! ## What the shape says -/

/-- The indexes of the nodes at a level, in insertion order. -/
def Db.indexesAt (l : ℕ) (db : Db) : List ℕ :=
  (db.treeNodes.filter fun r => r.key.level = l).map fun r => r.key.index

/-- A binary tree over the leaves: level `l` has the indexes below `⌈n / 2 ^ l⌉`, positions in groups
    are distinct, every node below the top is linked to its parent, and only the top has none. -/
structure Db.ProperTree (config : IZKServerConfig) (db : Db) : Prop where
  room : db.getTotalNumberOfLeaves ≤ 2 ^ config.merkleTreeLevels
  levels : ∀ l, (db.indexesAt l).Perm (List.range (if l ≤ config.merkleTreeLevels then
    (db.getTotalNumberOfLeaves + 2 ^ l - 1) / 2 ^ l else 0))
  positions : db.positions.Nodup
  parent : ∀ id r, db.HasNode id r → r.key.level < config.merkleTreeLevels →
    ∃ pid, r.parent = some pid ∧ db.HasKey pid (r.key.level + 1) (r.key.index / 2)
  root : ∃ id, db.HasKey id config.merkleTreeLevels 0 ∧
    (∀ id' r, db.HasNode id' r → (r.parent = none ↔ id' = id)) ∧
    ∃ d, db.findRoot = some d ∧ d.id = id

theorem Layout.nodup_indexesAt {levels : ℕ} {occ pending : ℕ → ℕ → Prop} {val : ℕ → ℕ → ℤ} {db : Db}
    (h : Layout levels occ val pending db) (l : ℕ) : (db.indexesAt l).Nodup := by
  rw [Db.indexesAt, List.Nodup, List.pairwise_map, List.pairwise_filter, List.pairwise_iff_getElem]
  intro i j hi hj hij hlevel hlevel' heq
  exact hij.ne (h.unique ⟨_, List.getElem?_eq_getElem hi, of_decide_eq_true hlevel, heq⟩
    ⟨_, List.getElem?_eq_getElem hj, of_decide_eq_true hlevel', rfl⟩)

theorem Db.mem_indexesAt {l i : ℕ} {db : Db} : i ∈ db.indexesAt l ↔ ∃ id, db.HasKey id l i := by
  simp only [Db.indexesAt, List.mem_map, List.mem_filter, decide_eq_true_eq, Db.HasKey, Db.HasNode]
  constructor
  · rintro ⟨r, ⟨hr, hl⟩, hi⟩
    obtain ⟨id, hid⟩ := List.mem_iff_getElem?.mp hr
    exact ⟨id, r, hid, hl, hi⟩
  · rintro ⟨id, r, hid, hl, hi⟩
    exact ⟨r, ⟨List.mem_of_getElem? hid, hl⟩, hi⟩

/-- A level of `n` leaves ends at `n / 2 ^ l`, rounded up. -/
theorem shape_iff_lt {levels n l i : ℕ} :
    shape levels n l i ↔ i < if l ≤ levels then (n + 2 ^ l - 1) / 2 ^ l else 0 := by
  have hpos := Nat.two_pow_pos l
  unfold shape
  split
  · next hle =>
      rw [and_iff_right hle]
      show _ ↔ i + 1 ≤ _
      rw [Nat.le_div_iff_mul_le hpos, Nat.add_mul, Nat.one_mul]
      omega
  · next hle => simp [hle]

section

variable {poseidon : List ℤ → ℤ} {config : IZKServerConfig} {n : ℕ} {db : Db}

theorem Shaped.proper (h : Shaped poseidon config n db) (hn : 0 < n) : db.ProperTree config := by
  obtain ⟨val, hlay⟩ := h.laid
  refine ⟨h.count.symm ▸ h.room, fun l => ?_, h.positions,
    fun id r hr hlt => hlay.parent hr hlt fun hf => hf, ?_⟩
  · rw [List.perm_ext_iff_of_nodup (hlay.nodup_indexesAt l) List.nodup_range]
    intro i
    rw [Db.mem_indexesAt, ← hlay.occupied, List.mem_range, h.count, shape_iff_lt]
  · obtain ⟨id, hid⟩ := (hlay.occupied config.merkleTreeLevels 0).mp ⟨le_rfl, by simpa using hn⟩
    have honly : ∀ id' r, db.HasNode id' r → (r.parent = none ↔ id' = id) := by
      intro id' r hr
      constructor
      · intro hnone
        obtain ⟨hle, hlt⟩ := hlay.occ_of_hasNode hr
        have hlevel : r.key.level = config.merkleTreeLevels := by
          refine hle.antisymm (not_lt.mp fun hlt' => ?_)
          obtain ⟨pid, hpid, -⟩ := hlay.parent hr hlt' (fun hf => hf)
          rw [hnone] at hpid
          cases hpid
        have hindex : r.key.index = 0 := by
          rw [hlevel] at hlt
          by_contra hne
          have := Nat.mul_le_mul_right (2 ^ config.merkleTreeLevels)
            (Nat.one_le_iff_ne_zero.mpr hne)
          have := h.room
          omega
        exact hlay.unique ⟨r, hr, hlevel, hindex⟩ hid
      · rintro rfl
        obtain ⟨r', hr', hlevel, -⟩ := hid
        obtain rfl := hr.unique hr'
        exact hlay.top hr hlevel.ge
    refine ⟨id, hid, honly, ?_⟩
    obtain ⟨r, hr, -⟩ := hid
    obtain ⟨d, hfind⟩ : ∃ d, db.findRoot = some d := Collection.findOne_isSome_of_getElem? hr
      (by simpa using (honly id r hr).mpr rfl)
    obtain ⟨hd, -, hnone⟩ := Collection.findOne_eq_some hfind
    exact ⟨d, hfind, (honly d.id d.cur hd).mp (by simpa using hnone)⟩

/-- In every state of a run the nodes are a binary tree over the leaves, and an append throws "The
    tree is full" exactly when it reaches a new member without room. -/
theorem treeReached_proper (h : TreeReached poseidon config TreeOp.Numeric db) :
    (0 < db.getTotalNumberOfLeaves → db.ProperTree config) ∧
    ∀ users groupId, (∀ user ∈ users, user.Numeric) →
      (((appendUsers poseidon config users groupId).run db).1 = .error (.text "The tree is full") ↔
        Shaped.ReachesFull (fun users => appendUsers poseidon config users groupId) config groupId
          users db) := by
  obtain ⟨n, hn⟩ := h.shaped
  exact ⟨fun hleaf => hn.proper (hn.count ▸ hleaf),
    fun users groupId husers => (hn.appendUsers groupId husers).2⟩

end

/-! ## A malformed new value -/

namespace Demo

/-- A member joins, its leaf is overwritten with a text that is no number, and another one joins. -/
def brokenTree : Db :=
  TreeOp.exec sumHash configTwoLevels (.appendUsers [⟨1, "2"⟩] "g")
    (TreeOp.exec sumHash configTwoLevels (.updateUser "1" "x")
      (TreeOp.exec sumHash configTwoLevels (.appendUsers [⟨0, "1"⟩] "g") seeded))

theorem numeric {users : List IGroupMember} {groupId : String}
    (h : ∀ user ∈ users, user.Numeric) : (TreeOp.appendUsers users groupId).Numeric :=
  h

theorem reached_seeded {ok : TreeOp → Prop} : TreeReached sumHash configTwoLevels ok seeded :=
  .seeded rfl

end Demo

/-- `updateUser` writes whatever it is given. After a value that `BigInt` rejects, an append throws
    between the new leaf and its parent. -/
theorem malformed_update_breaks_shape :
    ¬ ∀ (poseidon : List ℤ → ℤ) (config : IZKServerConfig) (db : Db),
      TreeReached poseidon config (fun o => ∀ users groupId, o = .appendUsers users groupId →
        o.Numeric) db → 0 < db.getTotalNumberOfLeaves → db.ProperTree config := by
  intro h
  have hreached : TreeReached sumHash Demo.configTwoLevels (fun o => ∀ users groupId,
      o = .appendUsers users groupId → o.Numeric) Demo.brokenTree := by
    refine ((Demo.reached_seeded.op (.appendUsers [⟨0, "1"⟩] "g") ?_).op (.updateUser "1" "x") ?_).op
      (.appendUsers [⟨1, "2"⟩] "g") ?_
    · exact fun _ _ _ => Demo.numeric (by decide +kernel)
    · exact fun _ _ h => nomatch h
    · exact fun _ _ _ => Demo.numeric (by decide +kernel)
  have hproper := h _ _ _ hreached (by decide +kernel)
  have hleaf : Demo.brokenTree.HasNode 3
      { key := { groupId := "g", level := 0, indexInGroup := 1, index := 1 }, hash := "2" } := rfl
  obtain ⟨pid, hpid, -⟩ := hproper.parent _ _ hleaf (by decide)
  cases hpid

/-- Two members join and one of them is removed. -/
theorem small_tree_is_proper :
    (TreeOp.exec sumHash Demo.configTwoLevels (.removeUsersByIndexes [0] "g")
      (TreeOp.exec sumHash Demo.configTwoLevels (.appendUsers [⟨0, "1"⟩, ⟨1, "2"⟩] "g")
        Demo.seeded)).ProperTree Demo.configTwoLevels := by
  refine (@treeReached_proper sumHash _ _ ((Demo.reached_seeded.op
    (.appendUsers [⟨0, "1"⟩, ⟨1, "2"⟩] "g") ?_).op (.removeUsersByIndexes [0] "g") trivial)).1 ?_
  · exact Demo.numeric (by decide +kernel)
  · decide +kernel

end ZkChat
