import ZkChat.Lib.Attempts
import ZkChat.Server.AppendList
import ZkChat.Server.Removal
import ZkChat.Server.Semaphore

set_option autoImplicit false

/-! # The steps of a synchroniser

A run of a synchroniser is a list of steps: an append or a removal, and the update of the stored
group that follows it. What becomes of a step can be told from its list and from the store it starts
in, in three cases. It has nothing to write, and the store stays as it is unless the step completes;
it has everything it needs, and completes; or it is an append that stops at its first new member,
after the leaf of that member. In between lie the steps that write and then throw. -/

namespace ZkChat

open HashTree Prog UserService GroupService

/-- What `getRoot` answers, the exception of an empty tree included. -/
def Db.rootResult (db : Db) : Except Exn String := (getRoot.run db).1

/-! ## Appends and removals, by what they find -/

namespace Db

variable (poseidon : List ℤ → ℤ) (config : IZKServerConfig) (users : List IGroupMember)
  (groupId : String) (indexes : List ℤ) (db : Db)

/-- No member is new, there are no zero hashes, or the tree is full. -/
def AppendsNothing : Prop :=
  newMembers (db.groupIndexes groupId) users = [] ∨ db.treeZeros = [] ∨
    2 ^ config.merkleTreeLevels ≤ db.getTotalNumberOfLeaves

/-- The list is empty; or there are zero hashes, and no member is new or the tree can be appended to
    and the new members are well formed and fit. -/
def AppendsAll : Prop :=
  users = [] ∨ db.treeZeros ≠ [] ∧ (newMembers (db.groupIndexes groupId) users = [] ∨
    db.Appendable poseidon config ∧
      (∀ user ∈ newMembers (db.groupIndexes groupId) users, user.Numeric) ∧
      db.getTotalNumberOfLeaves + (newMembers (db.groupIndexes groupId) users).length
        ≤ 2 ^ config.merkleTreeLevels)

/-- The first new member is malformed, and the tree has a root. -/
def AppendsMalformed : Prop :=
  0 < config.merkleTreeLevels ∧ db.findRoot ≠ none ∧
    ∀ user ∈ (newMembers (db.groupIndexes groupId) users).head?, ¬ user.Numeric

/-- There are no zero hashes, or the first of the indexes, if any, has no leaf. -/
def RemovesNothing : Prop :=
  db.treeZeros = [] ∨ ∀ index ∈ indexes.head?, ¬ db.HasMember groupId index

/-- The list is empty; or there are zero hashes, the nodes are linked to their parents, and every
    index has a leaf. -/
def RemovesAll : Prop :=
  indexes = [] ∨ db.treeZeros ≠ [] ∧ db.Linked config.merkleTreeLevels ∧
    ∀ index ∈ indexes, db.HasMember groupId index

end Db

section

variable (poseidon : List ℤ → ℤ) {config : IZKServerConfig} {users : List IGroupMember}
  {groupId : String} {indexes : List ℤ} {db : Db}

theorem run_appendUsers_of_nothing (h : db.AppendsNothing config users groupId) :
    ∃ r, (appendUsers poseidon config users groupId).run db = (r, db) := by
  rcases eq_or_ne users [] with rfl | hne
  · exact ⟨_, rfl⟩
  rcases eq_or_ne db.treeZeros [] with hzeros | hzeros
  · exact ⟨_, run_appendUsers_unseeded hne hzeros⟩
  rw [run_appendUsers_new hne hzeros]
  rcases h with hnone | hnone | hfull
  · rw [hnone]
    exact ⟨_, rfl⟩
  · exact absurd hnone hzeros
  · cases newMembers (db.groupIndexes groupId) users with
    | nil => exact ⟨_, rfl⟩
    | cons user new => exact ⟨_, run_bind_of_error (run_appendUser_full hfull)⟩

/-- An append that is not over before its first new member. -/
theorem run_appendUsers_of_something (h : ¬ db.AppendsNothing config users groupId) :
    ∃ user new, newMembers (db.groupIndexes groupId) users = user :: new ∧ db.treeZeros ≠ [] ∧
      db.getTotalNumberOfLeaves < 2 ^ config.merkleTreeLevels ∧
      (appendUsers poseidon config users groupId).run db
        = (appendNew poseidon config db.treeZeros groupId (user :: new)).run db := by
  obtain ⟨hnew, hzeros, hroom⟩ := (not_or.mp h).imp_right not_or.mp
  obtain ⟨user, new, hcons⟩ := List.exists_cons_of_ne_nil hnew
  have hne : users ≠ [] := by
    rintro rfl
    exact hnew rfl
  refine ⟨user, new, hcons, hzeros, not_le.mp hroom, ?_⟩
  rw [run_appendUsers_new hne hzeros, hcons]

variable {poseidon} in
/-- Appending one new member after another. -/
theorem Db.Appendable.run_appendNew (h : db.Appendable poseidon config) (groupId : String)
    {new : List IGroupMember} (hnumeric : ∀ user ∈ new, user.Numeric)
    (hroom : db.getTotalNumberOfLeaves + new.length ≤ 2 ^ config.merkleTreeLevels) :
    ∃ db', (appendNew poseidon config db.treeZeros groupId new).run db = (.ok "Done", db') := by
  induction new generalizing db with
  | nil => exact ⟨db, rfl⟩
  | cons user new ih =>
      rw [List.length_cons] at hroom
      obtain ⟨db₁, hrun, h₁, hrows, hzeros⟩ :=
        h.appendUser groupId (hnumeric user (by simp)) (by omega)
      have hcount : db₁.getTotalNumberOfLeaves = db.getTotalNumberOfLeaves + 1 := by
        rw [getTotalNumberOfLeaves_eq, hrows, List.length_append, ← getTotalNumberOfLeaves_eq,
          List.length_singleton]
      obtain ⟨db', hrest⟩ := ih h₁ (fun u hu => hnumeric u (by simp [hu])) (by omega)
      refine ⟨db', ?_⟩
      rw [appendNew, run_bind_of_ok hrun, ← hzeros, hrest]

theorem run_appendUsers_of_all (h : db.AppendsAll poseidon config users groupId) :
    ∃ r db', (appendUsers poseidon config users groupId).run db = (.ok r, db') := by
  rcases h with rfl | ⟨hzeros, h⟩
  · exact ⟨_, _, rfl⟩
  rcases eq_or_ne users [] with rfl | hne
  · exact ⟨_, _, rfl⟩
  rw [run_appendUsers_new hne hzeros]
  rcases h with hnone | ⟨htree, hnumeric, hroom⟩
  · rw [hnone]
    exact ⟨_, _, rfl⟩
  · obtain ⟨db', hrun⟩ := htree.run_appendNew groupId hnumeric hroom
    exact ⟨_, db', hrun⟩

/-- A malformed member leaves its leaf behind, and nothing else. -/
theorem run_appendUser_malformed (hlevels : 0 < config.merkleTreeLevels)
    (hroom : db.getTotalNumberOfLeaves < 2 ^ config.merkleTreeLevels) (zeros : List IMerkleTreeZero)
    (groupId : String) {user : IGroupMember} (huser : ¬ user.Numeric) :
    ∃ e, (appendUser poseidon config zeros groupId user).run db
      = (.error e, db.createNode (newLeaf groupId user db.getTotalNumberOfLeaves)) := by
  have hhash : ∀ a x, hashPair poseidon a user.identityCommitment ≠ .ok x ∧
      hashPair poseidon user.identityCommitment a ≠ .ok x :=
    fun a x => ⟨fun h => huser (hashPair_eq_ok h).2, fun h => huser (hashPair_eq_ok h).1⟩
  obtain ⟨k, hk⟩ := Nat.exists_eq_succ_of_ne_zero hlevels.ne'
  rw [run_appendUser_of_room rfl hroom, hk, appendLevels]
  suffices hlevel : ∃ e, (appendLevel poseidon zeros groupId 0 db.getTotalNumberOfLeaves
      ⟨db.treeNodes.length, newLeaf groupId user db.getTotalNumberOfLeaves,
        newLeaf groupId user db.getTotalNumberOfLeaves⟩).run
      (db.createNode (newLeaf groupId user db.getTotalNumberOfLeaves))
        = (.error e, db.createNode (newLeaf groupId user db.getTotalNumberOfLeaves)) by
    obtain ⟨e, hlevel⟩ := hlevel
    exact ⟨e, run_bind_of_error hlevel⟩
  unfold appendLevel
  split
  · rcases appendLeft_cases poseidon zeros groupId 0 db.getTotalNumberOfLeaves _ _ with
      herror | ⟨zero, x, -, hx⟩
    · exact herror
    · exact absurd hx (hhash _ x).2
  · rcases appendRight_cases poseidon 0 db.getTotalNumberOfLeaves _ _ with
      herror | ⟨s, x, p, -, hx, -⟩
    · exact herror
    · exact absurd hx (hhash _ x).1

theorem rootResult_of_findRoot {d : NodeDoc} (h : db.findRoot = some d) :
    db.rootResult = .ok d.cur.hash := by
  unfold Db.rootResult getRoot MerkleTreeNode.findRoot
  rw [run_query_bind, h]
  rfl

theorem rootResult_of_none (h : db.findRoot = none) :
    db.rootResult = .error (.text "Root not found") := by
  unfold Db.rootResult getRoot MerkleTreeNode.findRoot
  rw [run_query_bind, h]
  rfl

/-- A node that comes last is the root only if there was none. -/
theorem rootResult_createNode {r : IMerkleTreeNode} (h : db.findRoot ≠ none) :
    (db.createNode r).rootResult = db.rootResult := by
  obtain ⟨d, hd⟩ := Option.ne_none_iff_exists'.mp h
  have hd' : (db.createNode r).findRoot = some d := Collection.findOne_append hd [r]
  rw [rootResult_of_findRoot hd, rootResult_of_findRoot hd']

/-- An append that stops at its first new member leaves the root as it was. -/
theorem rootResult_of_appendsMalformed (h : db.AppendsMalformed config users groupId) :
    ((appendUsers poseidon config users groupId).exec db).rootResult = db.rootResult := by
  by_cases hnothing : db.AppendsNothing config users groupId
  · obtain ⟨r, hr⟩ := run_appendUsers_of_nothing poseidon hnothing
    rw [exec, hr]
  · obtain ⟨hlevels, hroot, hhead⟩ := h
    obtain ⟨user, new, hcons, -, hroom, happend⟩ := run_appendUsers_of_something poseidon hnothing
    rw [hcons] at hhead
    obtain ⟨e, hrun⟩ := run_appendUser_malformed poseidon hlevels hroom db.treeZeros groupId
      (hhead user rfl)
    rw [exec, happend, appendNew, run_bind_of_error hrun]
    exact rootResult_createNode hroot

theorem run_removeUsersByIndexes_of_nothing (h : db.RemovesNothing groupId indexes) :
    ∃ r, (removeUsersByIndexes poseidon config indexes groupId).run db = (r, db) := by
  cases indexes with
  | nil => exact ⟨_, rfl⟩
  | cons index indexes =>
      rcases eq_or_ne db.treeZeros [] with hzeros | hzeros
      · exact ⟨_, run_removeUsersByIndexes_unseeded (List.cons_ne_nil _ _) hzeros⟩
      · have hfree := h.resolve_left hzeros index rfl
        rw [run_removeUsersByIndexes (List.cons_ne_nil _ _) hzeros]
        unfold removeEach MerkleTreeNode.findLeafByGroupIdAndIndexInGroup
        rw [run_query_bind, findLeafByGroupIdAndIndexInGroup_eq_none.mpr hfree]
        exact ⟨_, rfl⟩

theorem run_removeUsersByIndexes_of_all (h : db.RemovesAll config groupId indexes) :
    ∃ r db', (removeUsersByIndexes poseidon config indexes groupId).run db = (.ok r, db') := by
  rcases eq_or_ne indexes [] with rfl | hne
  · exact ⟨_, _, rfl⟩
  obtain ⟨hzeros, hlinked, hmembers⟩ := h.resolve_left hne
  have hdone : ((removeEach poseidon config groupId indexes).run db).1 = .ok "Done" :=
    ((hlinked.removeEach groupId indexes).2 hmembers).1
  exact ⟨"Done", _, (run_removeUsersByIndexes hne hzeros).trans (Prod.ext hdone rfl)⟩

end

/-! ## The steps -/

/-- A step of a run: what it does to the tree, and what it records of the group. -/
inductive TreeStep where
  | addGroup (users : List IGroupMember) (g : IGroup)
  | addMembers (users : List IGroupMember) (groupId : String) (number_of_leaves : ℕ)
  | removeMembers (indexes : List ℤ) (groupInDb groupId : String) (size : ℕ)
  /-- The removal of Semaphore, which is given objects. -/
  | removeObjects (members : List IGroupMember) (groupId : String) (size : ℕ)
deriving DecidableEq

namespace TreeStep

variable (poseidon : List ℤ → ℤ) (config : IZKServerConfig)

def prog : TreeStep → Prog Store Exn Unit
  | addGroup users g => do
      let _ ← onDb (appendUsers poseidon config users g.group_id)
      saveGroup g
  | addMembers users groupId number_of_leaves => do
      let _ ← onDb (appendUsers poseidon config users groupId)
      updateNumberOfLeaves groupId number_of_leaves
  | removeMembers indexes groupInDb groupId size => do
      let _ ← onDb (removeUsersByIndexes poseidon config indexes groupInDb)
      updateSize groupId size
  | removeObjects members groupId size => do
      let _ ← onDb (removeUsersByObjects members)
      updateSize groupId size

/-- Its list is empty, and the group is stored already. -/
def Empty : TreeStep → Prop
  | addGroup _ _ => False
  | addMembers users _ _ => users = []
  | removeMembers indexes _ _ _ => indexes = []
  | removeObjects members _ _ => members = []

/-- It finds nothing to write in the tree. -/
def WritesNothing (s : Store) : TreeStep → Prop
  | addGroup users g => s.db.AppendsNothing config users g.group_id
  | addMembers users groupId _ => s.db.AppendsNothing config users groupId
  | removeMembers indexes groupInDb _ _ => s.db.RemovesNothing groupInDb indexes
  | removeObjects _ _ _ => True

/-- It has all that it needs. -/
def Prepared (s : Store) : TreeStep → Prop
  | addGroup users g => s.db.AppendsAll poseidon config users g.group_id ∧
      ∀ x ∈ s.groups, x.group_id ≠ g.group_id
  | addMembers users groupId _ => s.db.AppendsAll poseidon config users groupId
  | removeMembers indexes groupInDb _ _ => s.db.RemovesAll config groupInDb indexes
  | removeObjects members _ _ => members = []

/-- It is an append that stops at its first new member, below a root. -/
def StopsAtFirst (s : Store) : TreeStep → Prop
  | addGroup users g => s.db.AppendsMalformed config users g.group_id
  | addMembers users groupId _ => s.db.AppendsMalformed config users groupId
  | removeMembers _ _ _ _ => False
  | removeObjects _ _ _ => False

/-- It never writes to the tree. -/
def Objects : TreeStep → Prop
  | removeObjects _ _ _ => True
  | _ => False

end TreeStep

/-! ## What becomes of a step -/

section

variable {α : Type} {q : Server α} {record : Prog Store Exn Unit} {s : Store} {r : α} {db' : Db}

theorem run_record_of_ok (h : q.run s.db = (.ok r, db')) :
    (do let _ ← onDb q; record : Prog Store Exn Unit).run s = record.run { s with db := db' } :=
  run_bind_of_ok (by rw [run_onDb, h])

theorem run_record_of_error {e : Exn} (h : q.run s.db = (.error e, db')) :
    (do let _ ← onDb q; record : Prog Store Exn Unit).run s = (.error e, { s with db := db' }) :=
  run_bind_of_error (by rw [run_onDb, h])

/-- Recording leaves the tree as it is. -/
theorem exec_record_db (hrecord : ∀ s : Store, (record.exec s).db = s.db) (s : Store) :
    ((do let _ ← onDb q; record : Prog Store Exn Unit).exec s).db = q.exec s.db := by
  rw [exec, exec]
  cases h : q.run s.db with
  | mk out db' =>
      cases out with
      | ok r =>
          rw [run_record_of_ok h]
          exact hrecord _
      | error e => rw [run_record_of_error h]

theorem exec_saveGroup_db (g : IGroup) (s : Store) : ((saveGroup g).exec s).db = s.db := by
  rw [exec, saveGroup, run_await]
  split <;> rfl

theorem exec_updateNumberOfLeaves_db (groupId : String) (n : ℕ) (s : Store) :
    ((updateNumberOfLeaves groupId n).exec s).db = s.db := rfl

/-- Where the list is passed without a write, the step completes or has changed nothing. -/
theorem completes_or_unchanged {out : Except Exn α} (h : q.run s.db = (out, s.db))
    (hrecord : (record.run s).1 = .ok () ∨ record.exec s = s) :
    ((do let _ ← onDb q; record : Prog Store Exn Unit).run s).1 = .ok () ∨
      (do let _ ← onDb q; record : Prog Store Exn Unit).exec s = s := by
  cases out with
  | ok r =>
      rw [exec, run_record_of_ok h]
      exact hrecord
  | error e =>
      rw [exec, run_record_of_error h]
      exact Or.inr rfl

end

namespace TreeStep

variable {poseidon : List ℤ → ℤ} {config : IZKServerConfig} {s : Store} {p : TreeStep}

theorem Empty.completes (h : p.Empty) (poseidon : List ℤ → ℤ) (config : IZKServerConfig)
    (s : Store) : ((p.prog poseidon config).run s).1 = .ok () := by
  cases p with
  | addGroup users g => exact h.elim
  | addMembers users groupId n =>
      obtain rfl : users = [] := h
      rfl
  | removeMembers indexes groupInDb groupId size =>
      obtain rfl : indexes = [] := h
      rfl
  | removeObjects members groupId size =>
      obtain rfl : members = [] := h
      rfl

theorem Prepared.completes (h : p.Prepared poseidon config s) :
    ((p.prog poseidon config).run s).1 = .ok () := by
  cases p with
  | addGroup users g =>
      obtain ⟨happend, hfree⟩ := h
      obtain ⟨r, db', hrun⟩ := run_appendUsers_of_all poseidon happend
      have hnone : s.groups.any (·.group_id = g.group_id) = false := by
        simpa using hfree
      rw [prog, run_record_of_ok hrun, saveGroup, run_await, hnone]
      rfl
  | addMembers users groupId n =>
      obtain ⟨r, db', hrun⟩ := run_appendUsers_of_all poseidon h
      rw [prog, run_record_of_ok hrun]
      rfl
  | removeMembers indexes groupInDb groupId size =>
      obtain ⟨r, db', hrun⟩ := run_removeUsersByIndexes_of_all poseidon h
      rw [prog, run_record_of_ok hrun]
      rfl
  | removeObjects members groupId size =>
      obtain rfl : members = [] := h
      rfl

theorem WritesNothing.completes_or_unchanged (h : p.WritesNothing config s)
    (poseidon : List ℤ → ℤ) :
    ((p.prog poseidon config).run s).1 = .ok () ∨ (p.prog poseidon config).exec s = s := by
  cases p with
  | addGroup users g =>
      obtain ⟨r, hrun⟩ := run_appendUsers_of_nothing poseidon h
      refine ZkChat.completes_or_unchanged hrun ?_
      rw [exec, saveGroup, run_await]
      split
      · exact Or.inr rfl
      · exact Or.inl rfl
  | addMembers users groupId n =>
      obtain ⟨r, hrun⟩ := run_appendUsers_of_nothing poseidon h
      exact ZkChat.completes_or_unchanged hrun (Or.inl rfl)
  | removeMembers indexes groupInDb groupId size =>
      obtain ⟨r, hrun⟩ := run_removeUsersByIndexes_of_nothing poseidon h
      exact ZkChat.completes_or_unchanged hrun (Or.inl rfl)
  | removeObjects members groupId size =>
      obtain ⟨r, hrun⟩ := run_removeUsersByObjects members s.db
      exact ZkChat.completes_or_unchanged hrun (Or.inl rfl)

theorem StopsAtFirst.rootResult (h : p.StopsAtFirst config s) :
    ((p.prog poseidon config).exec s).db.rootResult = s.db.rootResult := by
  cases p with
  | addGroup users g =>
      rw [prog, exec_record_db (exec_saveGroup_db g)]
      exact rootResult_of_appendsMalformed poseidon h
  | addMembers users groupId n =>
      rw [prog, exec_record_db fun _ => rfl]
      exact rootResult_of_appendsMalformed poseidon h
  | removeMembers indexes groupInDb groupId size => exact h.elim
  | removeObjects members groupId size => exact h.elim

theorem Objects.writesNothing (h : p.Objects) : p.WritesNothing config s := by
  cases p with
  | removeObjects members groupId size => exact trivial
  | addGroup users g => exact h.elim
  | addMembers users groupId n => exact h.elim
  | removeMembers indexes groupInDb groupId size => exact h.elim

theorem Objects.rootResult (h : p.Objects) (s : Store) :
    ((p.prog poseidon config).exec s).db.rootResult = s.db.rootResult := by
  cases p with
  | removeObjects members groupId size =>
      obtain ⟨r, hrun⟩ := run_removeUsersByObjects members s.db
      rw [prog, exec_record_db fun _ => rfl, exec, hrun]
  | addGroup users g => exact h.elim
  | addMembers users groupId n => exact h.elim
  | removeMembers indexes groupInDb groupId size => exact h.elim

end TreeStep

/-! ## A list of steps -/

section

variable (poseidon : List ℤ → ℤ) (config : IZKServerConfig) (s : Store)

/-- The first step that finds something to write has all that it needs, or it is an append that
    stops at its first new member and nothing is written after it. -/
def FirstWriteDone : List TreeStep → Prop
  | [] => True
  | p :: ps => p.Prepared poseidon config s ∨ p.WritesNothing config s ∧ FirstWriteDone ps ∨
      p.StopsAtFirst config s ∧ ∀ q ∈ ps, q.Objects

/-- Some list is empty, or the first write is done. -/
def RootWatched (steps : List TreeStep) : Prop :=
  (∃ p ∈ steps, p.Empty) ∨ FirstWriteDone poseidon config s steps

end

section

variable {poseidon : List ℤ → ℤ} {config : IZKServerConfig} {s : Store} {steps : List TreeStep}

theorem FirstWriteDone.of_objects (h : ∀ p ∈ steps, p.Objects) :
    FirstWriteDone poseidon config s steps := by
  induction steps with
  | nil => exact trivial
  | cons p ps ih =>
      exact Or.inr (Or.inl ⟨(h p (by simp)).writesNothing, ih fun q hq => h q (by simp [hq])⟩)

theorem FirstWriteDone.completes_or (h : FirstWriteDone poseidon config s steps) :
    SomeCompletes (steps.map (·.prog poseidon config)) s ∨
      (execAll (steps.map (·.prog poseidon config)) s).db.rootResult = s.db.rootResult := by
  induction steps with
  | nil => exact Or.inr rfl
  | cons p ps ih =>
      rcases h with hprepared | ⟨hnothing, hrest⟩ | ⟨hstops, hobjects⟩
      · exact Or.inl (Or.inl hprepared.completes)
      · rcases hnothing.completes_or_unchanged poseidon with hdone | hsame
        · exact Or.inl (Or.inl hdone)
        · rcases ih hrest with hsome | hkept
          · exact Or.inl (Or.inr (by rwa [hsame]))
          · right
            rw [List.map_cons, execAll, hsame]
            exact hkept
      · right
        rw [List.map_cons, execAll]
        have hkept : ∀ q ∈ ps.map (·.prog poseidon config), ∀ s : Store,
            (q.exec s).db.rootResult = s.db.rootResult := by
          intro q hq s
          obtain ⟨t, ht, rfl⟩ := List.mem_map.mp hq
          exact (hobjects t ht).rootResult s
        exact (execAll_of_keeps (fun s : Store => s.db.rootResult) hkept _).trans
          hstops.rootResult

/-- Then some step completes, or the root is what it was. -/
theorem RootWatched.completes_or (h : RootWatched poseidon config s steps) :
    SomeCompletes (steps.map (·.prog poseidon config)) s ∨
      (execAll (steps.map (·.prog poseidon config)) s).db.rootResult = s.db.rootResult := by
  rcases h with ⟨p, hp, hempty⟩ | h
  · exact Or.inl (someCompletes_of_mem (List.mem_map_of_mem hp)
      (hempty.completes poseidon config) s)
  · exact h.completes_or

end

/-! ## On a tree at rest -/

section

variable {poseidon : List ℤ → ℤ} {config : IZKServerConfig} {n : ℕ} {leaf : ℕ → ℤ}
  {stale : ℕ → ℕ → Prop} {db : Db}

theorem TreeInv.appendable (h : TreeInv poseidon config n leaf stale db) :
    db.Appendable poseidon config := by
  refine ⟨fun l i hocc => ?_, fun id r hr => ⟨_, h.layout.hash hr⟩, h.seeded⟩
  rw [h.count] at hocc
  exact (h.layout.occupied l i).mp hocc

/-- An append that returns has had well-formed members, and room for them. -/
theorem TreeInv.fits_of_appendNew_ok (h : TreeInv poseidon config n leaf stale db)
    (hlevels : 0 < config.merkleTreeLevels) {groupId : String} {new : List IGroupMember}
    {r : String} {db' : Db}
    (hrun : (appendNew poseidon config db.treeZeros groupId new).run db = (.ok r, db')) :
    (∀ user ∈ new, user.Numeric) ∧ n + new.length ≤ 2 ^ config.merkleTreeLevels := by
  by_cases hnum : ∀ user ∈ new.take (2 ^ config.merkleTreeLevels - n), user.Numeric
  · obtain ⟨leaf', db₁, hrun', -, -⟩ := h.appendNewMembers groupId hnum
    rw [hrun] at hrun'
    split at hrun'
    · next hfits => exact ⟨by rwa [List.take_of_length_le (by omega)] at hnum, hfits⟩
    · cases hrun'
  · obtain ⟨db₁, id, row, hrun', -⟩ := h.appendNewMembers_malformed hlevels groupId hnum
    rw [hrun] at hrun'
    cases hrun'

/-- Wherever an append to a tree with leaves stops, these leaves are where they were below the
    root. -/
theorem TreeInv.appendNew_rootResult (h : TreeInv poseidon config n leaf stale db) (hn : 0 < n)
    (hlevels : 0 < config.merkleTreeLevels) (groupId : String) (new : List IGroupMember) :
    ∃ leaf' text, ((appendNew poseidon config db.treeZeros groupId new).exec db).rootResult
        = .ok text ∧
      Js.stringToBigInt text = some (root (pairHash poseidon) leaf' config.merkleTreeLevels) ∧
      ∀ i < n, leaf' i = leaf i := by
  have hhere : ∃ text, db.rootResult = .ok text ∧
      Js.stringToBigInt text = some (root (pairHash poseidon) leaf config.merkleTreeLevels) := by
    obtain ⟨text, hrun, htext⟩ := h.getRoot hn
    exact ⟨text, congrArg Prod.fst hrun, htext⟩
  obtain ⟨text, htext, hvalue⟩ := hhere
  induction new generalizing n leaf db text with
  | nil => exact ⟨leaf, text, htext, hvalue, fun _ _ => rfl⟩
  | cons user new ih =>
      rw [exec, appendNew]
      rcases h.room.lt_or_eq with hroom | hfull
      · by_cases huser : user.Numeric
        · obtain ⟨v, hv⟩ := huser
          obtain ⟨db₁, hrun, h₁, -, honly⟩ := h.appendUser groupId hroom hv
          obtain ⟨text₁, hrun₁, htext₁⟩ := h₁.getRoot (Nat.succ_pos n)
          obtain ⟨leaf', text', hroot, hvalue', hold⟩ :=
            ih h₁ (Nat.succ_pos n) text₁ (congrArg Prod.fst hrun₁) htext₁
          refine ⟨leaf', text', ?_, hvalue', fun i hi => ?_⟩
          · rw [run_bind_of_ok hrun, ← honly.treeZeros]
            exact hroot
          · rw [hold i (by omega), Function.update_of_ne (by omega)]
        · obtain ⟨d, hfind, -⟩ := h.findRoot hn
          obtain ⟨e, hrun⟩ := run_appendUser_malformed poseidon hlevels (h.count.trans_lt hroom)
            db.treeZeros groupId huser
          refine ⟨leaf, text, ?_, hvalue, fun _ _ => rfl⟩
          rw [run_bind_of_error hrun, rootResult_createNode (by simp [hfind]), htext]
      · refine ⟨leaf, text, ?_, hvalue, fun _ _ => rfl⟩
        rw [run_bind_of_error (h.appendUser_full _ groupId user hfull.ge), htext]

theorem TreeInv.rootResult_of_empty (h : TreeInv poseidon config 0 leaf stale db) :
    db.rootResult = .error (.text "Root not found") := by
  refine rootResult_of_none (Collection.findOne_eq_none.mpr fun r hr => ?_)
  obtain ⟨id, hid⟩ : ∃ id, db.HasNode id r := List.mem_iff_getElem?.mp hr
  have hindex := (h.layout.occ_of_hasNode hid).2
  omega

/-- With an injective hash, an append that gets past its first new member changes the root. -/
theorem TreeInv.rootResult_ne_of_appendNew (h : TreeInv poseidon config n leaf stale db)
    (hinjective : Function.Injective2 (pairHash poseidon)) (hlevels : 0 < config.merkleTreeLevels)
    (groupId : String) {user : IGroupMember} (new : List IGroupMember)
    (hroom : n < 2 ^ config.merkleTreeLevels) (huser : n = 0 ∨ user.Numeric)
    (hnonzero : Js.stringToBigInt user.identityCommitment ≠ some config.zeroValue) :
    ((appendNew poseidon config db.treeZeros groupId (user :: new)).exec db).rootResult
      ≠ db.rootResult := by
  intro hsame
  rw [exec, appendNew] at hsame
  by_cases hnumeric : user.Numeric
  · obtain ⟨v, hv⟩ := hnumeric
    obtain ⟨db₁, hrun, h₁, -, honly⟩ := h.appendUser groupId hroom hv
    obtain ⟨leaf', text, hroot, hvalue, hold⟩ :=
      h₁.appendNew_rootResult (Nat.succ_pos n) hlevels groupId new
    rw [run_bind_of_ok hrun, ← honly.treeZeros] at hsame
    rw [exec, hsame] at hroot
    rcases Nat.eq_zero_or_pos n with rfl | hn
    · rw [h.rootResult_of_empty] at hroot
      cases hroot
    · obtain ⟨text₀, hrun₀, htext₀⟩ := h.getRoot hn
      obtain rfl : text₀ = text :=
        Except.ok.inj ((congrArg Prod.fst hrun₀).symm.trans hroot)
      have hroots := Option.some.inj (htext₀.symm.trans hvalue)
      -- the new leaf is where there was the zero value
      have hleaf := (subtree_eq_iff hinjective).mp hroots n (Nat.div_eq_of_lt hroom)
      rw [h.beyond n le_rfl, hold n (Nat.lt_succ_self n), Function.update_self] at hleaf
      exact hnonzero (by rw [hv, hleaf])
  · obtain rfl := huser.resolve_right hnumeric
    obtain ⟨e, hrun⟩ := run_appendUser_malformed poseidon hlevels (h.count.trans_lt hroom)
      db.treeZeros groupId hnumeric
    rw [run_bind_of_error hrun, h.rootResult_of_empty] at hsame
    obtain ⟨d, hd⟩ : ∃ d, (db.createNode (newLeaf groupId user
        db.getTotalNumberOfLeaves)).findRoot = some d :=
      Collection.findOne_isSome_of_getElem? (Db.hasNode_createNode.mpr (Or.inr ⟨rfl, rfl⟩))
        (decide_eq_true rfl)
    rw [rootResult_of_findRoot hd] at hsame
    cases hsame

variable {users : List IGroupMember} {groupId : String}

/-- An append that neither has all it needs nor is over before its first new member throws. -/
theorem TreeInv.appendUsers_throws (h : TreeInv poseidon config n leaf stale db)
    (hlevels : 0 < config.merkleTreeLevels)
    (hall : ¬ db.AppendsAll poseidon config users groupId)
    (hnothing : ¬ db.AppendsNothing config users groupId) :
    ∃ e db', (UserService.appendUsers poseidon config users groupId).run db = (.error e, db') := by
  obtain ⟨user, new, hcons, hzeros, -, hrun⟩ := run_appendUsers_of_something poseidon hnothing
  cases happend : (UserService.appendUsers poseidon config users groupId).run db with
  | mk out db' =>
      cases out with
      | error e => exact ⟨e, db', rfl⟩
      | ok r =>
          -- it would have had all it needs
          obtain ⟨hnumeric, hfits⟩ := h.fits_of_appendNew_ok hlevels (hrun.symm.trans happend)
          rw [← h.count] at hfits
          rw [← hcons] at hnumeric hfits
          exact absurd (Or.inr ⟨hzeros, Or.inr ⟨h.appendable, hnumeric, hfits⟩⟩) hall

/-- And the root is another one, unless the append stops at its first new member. -/
theorem TreeInv.appendUsers_changes_root (h : TreeInv poseidon config n leaf stale db)
    (hinjective : Function.Injective2 (pairHash poseidon)) (hlevels : 0 < config.merkleTreeLevels)
    (hnonzero : ∀ user ∈ newMembers (db.groupIndexes groupId) users,
      Js.stringToBigInt user.identityCommitment ≠ some config.zeroValue)
    (hnothing : ¬ db.AppendsNothing config users groupId)
    (hstops : ¬ db.AppendsMalformed config users groupId) :
    ((UserService.appendUsers poseidon config users groupId).exec db).rootResult ≠ db.rootResult := by
  obtain ⟨user, new, hcons, -, hroom, hrun⟩ := run_appendUsers_of_something poseidon hnothing
  rw [exec, hrun]
  refine h.rootResult_ne_of_appendNew hinjective hlevels groupId new (h.count ▸ hroom) ?_
    (hnonzero user (by simp [hcons]))
  -- a malformed first member would stop the append at a root that is there
  by_contra hnot
  obtain ⟨hn, huser⟩ := not_or.mp hnot
  obtain ⟨d, hd, -⟩ := h.findRoot (Nat.pos_of_ne_zero hn)
  refine hstops ⟨hlevels, by simp [hd], fun u hu => ?_⟩
  rw [hcons] at hu
  obtain rfl := Option.some.inj hu
  exact huser

end

section

variable {poseidon : List ℤ → ℤ} {config : IZKServerConfig} {s : Store} {users : List IGroupMember}
  {groupId : String} {record : Prog Store Exn Unit}

/-- On a tree at rest an append that is in none of the three cases throws, and the root is another
    one. -/
theorem AtRest.throws_and_changes_root (h : AtRest poseidon config s.db)
    (hinjective : Function.Injective2 (pairHash poseidon))
    (hnonzero : ∀ user ∈ newMembers (s.db.groupIndexes groupId) users,
      Js.stringToBigInt user.identityCommitment ≠ some config.zeroValue)
    (hrecord : ∀ s : Store, (record.exec s).db = s.db)
    (hall : ¬ s.db.AppendsAll poseidon config users groupId)
    (hnothing : ¬ s.db.AppendsNothing config users groupId)
    (hstops : ¬ s.db.AppendsMalformed config users groupId) :
    ((do let _ ← onDb (appendUsers poseidon config users groupId); record :
        Prog Store Exn Unit).run s).1 ≠ .ok () ∧
      ((do let _ ← onDb (appendUsers poseidon config users groupId); record :
        Prog Store Exn Unit).exec s).db.rootResult ≠ s.db.rootResult := by
  obtain ⟨n, leaf, hinv⟩ := h
  have hlevels : 0 < config.merkleTreeLevels := by
    have hlength : s.db.treeZeros.length = config.merkleTreeLevels := by
      rw [hinv.seeded, List.length_map, List.length_range]
    obtain ⟨-, -, -, hzeros, -⟩ := run_appendUsers_of_something poseidon hnothing
    rw [← hlength]
    exact List.length_pos_iff.mpr hzeros
  constructor
  · obtain ⟨e, db', happend⟩ := hinv.appendUsers_throws hlevels hall hnothing
    rw [run_record_of_error happend]
    exact fun hok => nomatch hok
  · rw [exec_record_db hrecord]
    exact hinv.appendUsers_changes_root hinjective hlevels hnonzero hnothing hstops

end

namespace TreeStep

variable {poseidon : List ℤ → ℤ} {config : IZKServerConfig} {s : Store} {p : TreeStep}

/-- The objects are never removed. -/
theorem Objects.throws (h : p.Objects) (hne : ¬ p.Empty) (s : Store) :
    ((p.prog poseidon config).run s).1 ≠ .ok () := by
  cases p with
  | removeObjects members groupId size =>
      obtain ⟨e, hrun⟩ : ∃ e, (removeUsersByObjects members).run s.db = (.error e, s.db) := by
        unfold removeUsersByObjects MerkleTreeZero.findZeros
        rw [if_neg (fun hlength => hne (List.length_eq_zero_iff.mp hlength)), run_query_bind]
        split
        · exact ⟨_, rfl⟩
        · exact ⟨_, rfl⟩
      rw [prog, run_record_of_error hrun]
      exact fun h => nomatch h
  | addGroup users g => exact h.elim
  | addMembers users groupId n => exact h.elim
  | removeMembers indexes groupInDb groupId size => exact h.elim

/-- After a step that throws and changes the root, objects bring neither the event nor the root
    back. -/
theorem not_completes_or {rest : List TreeStep}
    (hthrows : ((p.prog poseidon config).run s).1 ≠ .ok ())
    (hroot : ((p.prog poseidon config).exec s).db.rootResult ≠ s.db.rootResult)
    (hobjects : ∀ q ∈ rest, q.Objects) (hne : ∀ q ∈ rest, ¬ q.Empty) :
    ¬ (SomeCompletes ((p :: rest).map (·.prog poseidon config)) s ∨
      (execAll ((p :: rest).map (·.prog poseidon config)) s).db.rootResult = s.db.rootResult) := by
  have hnone : ∀ s : Store, ¬ SomeCompletes (rest.map (·.prog poseidon config)) s := by
    clear hthrows hroot
    induction rest with
    | nil => exact fun s h => h
    | cons q rest ih =>
        rintro s (h | h)
        · exact (hobjects q (by simp)).throws (hne q (by simp)) s h
        · exact ih (fun t ht => hobjects t (by simp [ht])) (fun t ht => hne t (by simp [ht])) _ h
  have hkept : ∀ q ∈ rest.map (·.prog poseidon config), ∀ s : Store,
      (q.exec s).db.rootResult = s.db.rootResult := by
    intro q hq s
    obtain ⟨t, ht, rfl⟩ := List.mem_map.mp hq
    exact (hobjects t ht).rootResult s
  rintro ((h | h) | h)
  · exact hthrows h
  · exact hnone _ h
  · rw [List.map_cons, execAll, execAll_of_keeps (fun s : Store => s.db.rootResult) hkept] at h
    exact hroot h

end TreeStep

end ZkChat
