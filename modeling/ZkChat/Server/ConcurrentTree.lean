import ZkChat.Lib.Sections
import ZkChat.Server.RootRefinement

set_option autoImplicit false

/-! # Tree calls that run at the same time

The group sync runs on a timer that does not wait for the previous run, and a ban updates the tree
from a message handler, so calls of `appendUsers` and `updateUser` interleave. A member that is
appended is one section of its call: from the search for its position to the new root. Where the
sections do not overlap, the tree ends as it should (`exclusive_calls_keep_tree`); nothing in the
code makes them so, and two syncs of one group can append its members twice. -/

namespace ZkChat

open HashTree Prog UserService

/-! ## Calls and their sections -/

inductive TreeCall where
  | appendUsers (users : List IGroupMember) (groupId : String)
  | updateUser (leafHash newValue : String)

namespace TreeCall

variable (poseidon : List ℤ → ℤ) (config : IZKServerConfig)

def program : TreeCall → Server Unit
  | appendUsers users groupId => do
      let _ ← UserService.appendUsers poseidon config users groupId
      pure ()
  | updateUser leafHash newValue => UserService.updateUser poseidon config leafHash newValue

def isUpdate : TreeCall → Bool
  | appendUsers .. => false
  | updateUser .. => true

end TreeCall

/-- Where a call rests: before its first action, between two members, at the end. -/
inductive TreeTask where
  | call (c : TreeCall)
  | members (zeros : List IMerkleTreeZero) (groupId : String) (users : List IGroupMember)
  | done

namespace TreeTask

variable (poseidon : List ℤ → ℤ) (config : IZKServerConfig)

/-- The first section of `appendUsers`. -/
def readZeros (users : List IGroupMember) (groupId : String) : Server TreeTask := do
  let zeros ← MerkleTreeZero.findZeros
  if zeros.length = 0 then throw (.text "The zero hashes have not yet been created")
  else pure (members zeros groupId users)

def next : TreeTask → Option (Server TreeTask)
  | call (.appendUsers users groupId) =>
      if users.length = 0 then none else some (readZeros users groupId)
  | call (.updateUser leafHash newValue) => some do
      UserService.updateUser poseidon config leafHash newValue
      pure done
  | members _ _ [] => none
  | members zeros groupId (user :: users) => some do
      appendMember poseidon config zeros groupId user
      pure (members zeros groupId users)
  | done => none

def whole : TreeTask → Server Unit
  | call c => c.program poseidon config
  | members zeros groupId users => do
      let _ ← appendMembers poseidon config zeros groupId users
      pure ()
  | done => pure ()

theorem whole_eq (task : TreeTask) : task.whole poseidon config =
    (task.next poseidon config).elim (.ret ()) fun p => p.bind (whole poseidon config) := by
  match task with
  | call (.appendUsers users groupId) =>
      simp only [whole, TreeCall.program, next, UserService.appendUsers]
      split
      · rfl
      · refine congrArg (Prog.step id) (funext fun db => ?_)
        show (ite _ _ _ : Server String).bind _ = (ite _ _ _ : Server TreeTask).bind _
        split <;> rfl
  | call (.updateUser leafHash newValue) =>
      show _ = ((UserService.updateUser poseidon config leafHash newValue).bind _).bind _
      rw [Prog.bind_bind]
      exact (Prog.bind_ret _).symm
  | members zeros groupId [] => rfl
  | members zeros groupId (user :: users) =>
      show ((appendMember poseidon config zeros groupId user).bind _).bind _
        = ((appendMember poseidon config zeros groupId user).bind _).bind _
      rw [Prog.bind_bind, Prog.bind_bind]
      rfl
  | done => rfl

/-- The sections there are. -/
theorem next_eq_some {task : TreeTask} {p : Server TreeTask}
    (h : task.next poseidon config = some p) :
    (∃ users groupId, task = call (.appendUsers users groupId) ∧ p = readZeros users groupId) ∨
    (∃ leafHash newValue, task = call (.updateUser leafHash newValue) ∧
      p = UserService.updateUser poseidon config leafHash newValue >>= fun _ => pure done) ∨
    ∃ zeros groupId user users, task = members zeros groupId (user :: users) ∧
      p = appendMember poseidon config zeros groupId user >>= fun _ =>
        pure (members zeros groupId users) := by
  match task with
  | call (.appendUsers users groupId) =>
      simp only [next, Option.ite_none_left_eq_some, Option.some.injEq] at h
      exact Or.inl ⟨users, groupId, rfl, h.2.symm⟩
  | call (.updateUser leafHash newValue) =>
      exact Or.inr (Or.inl ⟨leafHash, newValue, rfl, (Option.some.inj h).symm⟩)
  | members zeros groupId [] => cases h
  | members zeros groupId (user :: users) =>
      exact Or.inr (Or.inr ⟨zeros, groupId, user, users, rfl, (Option.some.inj h).symm⟩)
  | done => cases h

/-- Every section begins with a search. -/
theorem acts (task : TreeTask) (p : Server TreeTask) (h : task.next poseidon config = some p) :
    ∃ act rest, p = .step act rest := by
  rcases next_eq_some poseidon config h with ⟨_, _, -, rfl⟩ | ⟨_, _, -, rfl⟩ | ⟨_, _, _, _, -, rfl⟩
  all_goals exact ⟨_, _, rfl⟩

/-- The sections of the tree calls. -/
def sections : Sections Db Exn TreeTask :=
  { next := next poseidon config
    whole := whole poseidon config
    whole_eq := whole_eq poseidon config
    acts := acts poseidon config }

end TreeTask

/-! ## What the leaves should be -/

/-- The positions in groups that have a leaf. -/
def Db.positions (db : Db) : List (String × ℤ) :=
  db.leafRows.map fun row => (row.1.groupId, row.1.indexInGroup)

/-- No two leaves have the same index, and no two the same position in a group. -/
def Db.DistinctLeaves (db : Db) : Prop :=
  (db.leafRows.map (·.1.index)).Nodup ∧ db.positions.Nodup

instance (db : Db) : Decidable db.DistinctLeaves :=
  inferInstanceAs (Decidable (List.Nodup _ ∧ List.Nodup _))

/-- The store is a tree, all node hashes and cached sibling hashes are right. -/
def Db.Proper (poseidon : List ℤ → ℤ) (config : IZKServerConfig) (db : Db) : Prop :=
  (∃ n leaf, TreeInv poseidon config n leaf (fun _ _ => False) db) ∧ db.positions.Nodup

/-- The leaves are distinct, and with a leaf `getRoot` returns the root over them. -/
def Db.Sound (poseidon : List ℤ → ℤ) (config : IZKServerConfig) (db : Db) : Prop :=
  db.DistinctLeaves ∧ (0 < db.getTotalNumberOfLeaves → db.RootAgrees poseidon config)

/-- The calls, none of which has begun. -/
def concurrentCalls (poseidon : List ℤ → ℤ) (config : IZKServerConfig) (calls : List TreeCall)
    (db : Db) : Pool Unit Db Exn Unit :=
  { threads := calls.map fun c => ((), c.program poseidon config), state := db }

section

variable {poseidon : List ℤ → ℤ} {config : IZKServerConfig} {db db' : Db} {u : ℕ}

theorem Db.mem_positions {groupId : String} {i : ℤ} :
    (groupId, i) ∈ db.positions ↔ db.HasMember groupId i := by
  simp only [Db.positions, List.mem_map, Db.HasMember, Prod.mk.injEq]

/-- A member takes a position that was free. -/
theorem MemberOutcome.nodup_positions {groupId : String} {user : IGroupMember}
    {r : Except Exn Unit} (h : MemberOutcome groupId user db r db') (hnodup : db.positions.Nodup) :
    db'.positions.Nodup := by
  cases h with
  | taken => exact hnodup
  | full => exact hnodup
  | added _ hfree hrows =>
      rw [Db.positions, hrows, List.map_append, List.map_singleton]
      refine List.nodup_append.mpr ⟨hnodup, by simp, ?_⟩
      rintro p hp q hq rfl
      rw [List.mem_singleton] at hq
      exact hfree (Db.mem_positions.mp (hq ▸ hp))

theorem TreeInv.mono {n : ℕ} {leaf : ℕ → ℤ} {stale stale' : ℕ → ℕ → Prop}
    (h : TreeInv poseidon config n leaf stale db) (hstale : ∀ l i, stale l i → stale' l i) :
    TreeInv poseidon config n leaf stale' db :=
  { h with caches := h.caches.mono (fun _ _ _ _ => rfl) fun l i _ => hstale l i }

/-- The nodes of a tree are at different places, so its leaves have different indexes. -/
theorem TreeInv.nodup_index {n : ℕ} {leaf : ℕ → ℤ} {stale : ℕ → ℕ → Prop}
    (h : TreeInv poseidon config n leaf stale db) : (db.leafRows.map (·.1.index)).Nodup := by
  rw [List.Nodup, List.pairwise_map, Db.leafRows, List.pairwise_filterMap,
    List.pairwise_iff_getElem]
  intro i j hi hj hij row hrow row' hrow' heq
  simp only [leafRow, Option.ite_none_right_eq_some, Option.some.injEq] at hrow hrow'
  obtain ⟨hlevel, rfl⟩ := hrow
  obtain ⟨hlevel', rfl⟩ := hrow'
  exact hij.ne (h.layout.unique ⟨_, List.getElem?_eq_getElem hi, hlevel, heq⟩
    ⟨_, List.getElem?_eq_getElem hj, hlevel', rfl⟩)

/-! ## What one section does -/

/-- The invariant between sections: a tree at rest whose caches are all right until the update. -/
structure TreeAt (poseidon : List ℤ → ℤ) (config : IZKServerConfig) (u : ℕ) (db : Db) : Prop where
  tree : ∃ n leaf, TreeInv poseidon config n leaf (fun _ _ => 0 < u) db
  positions : db.positions.Nodup

theorem TreeAt.sound (h : TreeAt poseidon config u db) : db.Sound poseidon config := by
  obtain ⟨n, leaf, htree⟩ := h.tree
  exact ⟨⟨htree.nodup_index, h.positions⟩, fun hleaf => htree.rootAgrees (htree.count ▸ hleaf)⟩

/-- A member that is appended without an exception leaves a tree at rest. -/
theorem TreeAt.appendMember (h : TreeAt poseidon config u db) (hlevels : 0 < config.merkleTreeLevels)
    {groupId : String} {user : IGroupMember}
    (hrun : (UserService.appendMember poseidon config db.treeZeros groupId user).run db
      = (.ok (), db')) : TreeAt poseidon config u db' := by
  obtain ⟨n, leaf, htree⟩ := h.tree
  refine ⟨?_, ?_⟩
  · unfold UserService.appendMember MerkleTreeNode.findLeafByGroupIdAndIndexInGroup at hrun
    simp only [run_query_bind] at hrun
    cases hfind : db.findLeafByGroupIdAndIndexInGroup groupId user.index with
    | some d =>
        rw [hfind] at hrun
        obtain rfl := (Prod.mk.inj hrun).2
        exact ⟨n, leaf, htree⟩
    | none =>
        rw [hfind] at hrun
        have hnum := appendUser_numeric poseidon hlevels db.treeZeros groupId user db
        rw [wp, hrun] at hnum
        obtain ⟨v, hv⟩ := hnum rfl
        rcases Nat.lt_or_ge n (2 ^ config.merkleTreeLevels) with hroom | hfull
        · obtain ⟨db₁, hrun₁, h₁, -⟩ := htree.appendUser groupId hroom hv
          obtain rfl := (Prod.mk.inj (hrun₁.symm.trans hrun)).2
          exact ⟨n + 1, _, h₁⟩
        · rw [htree.appendUser_full _ groupId user hfull] at hrun
          cases hrun
  · have hout := appendMember_outcome poseidon config db.treeZeros groupId user db
    rw [wp, hrun] at hout
    exact hout.nodup_positions h.positions

/-- The first update finds fresh caches. -/
theorem TreeAt.updateUser (h : TreeAt poseidon config 0 db) {leafHash newValue : String}
    (hvalue : 0 < config.merkleTreeLevels ∨ ∃ v, Js.stringToBigInt newValue = some v)
    (hrun : (UserService.updateUser poseidon config leafHash newValue).run db = (.ok (), db')) :
    TreeAt poseidon config 1 db' := by
  obtain ⟨n, leaf, htree⟩ := h.tree
  refine ⟨?_, ?_⟩
  · cases hfind : db.findLeafByHash leafHash with
    | none =>
        rw [updateUser_missing newValue hfind] at hrun
        cases hrun
    | some d =>
        obtain ⟨hd, hsync, hlevel, -⟩ := Db.findLeafByHash_eq_some hfind
        obtain ⟨v, hv⟩ : ∃ v, Js.stringToBigInt newValue = some v := by
          rcases hvalue with hlevels | hv
          · obtain ⟨pid, hpid, -⟩ := htree.layout.parent hd (hlevel ▸ hlevels) id
            have hnum := updateUser_numeric poseidon hfind hpid newValue hlevels
            rw [wp, hrun] at hnum
            exact hnum rfl
          · exact hv
        have hocc : d.cur.key.index < n := by
          have := (htree.layout.occ_of_hasNode hd).2
          rwa [hlevel, pow_zero, mul_one] at this
        have hfresh : TreeInv poseidon config n leaf (fun _ _ => False) db :=
          htree.mono fun _ _ hlt => absurd hlt (lt_irrefl 0)
        obtain ⟨db₁, hrun₁, h₁⟩ := hfresh.updateUser hfind hv (hfresh.freshFrom hocc)
        obtain rfl := (Prod.mk.inj (hrun₁.symm.trans hrun)).2
        exact ⟨n, _, h₁.mono fun _ _ _ => Nat.one_pos⟩
  · have hrows := updateUser_leafRows poseidon config leafHash newValue db
    rw [exec, hrun] at hrows
    rw [Db.positions, hrows]
    refine (congrArg List.Nodup ?_).mpr h.positions
    exact Collection.map_modifyFirst (fun _ => by rfl) _

/-- The zero rows that seeding wrote. -/
def zeroRows (poseidon : List ℤ → ℤ) (config : IZKServerConfig) : List IMerkleTreeZero :=
  (List.range config.merkleTreeLevels).map (zeroRow poseidon config.zeroValue)

namespace TreeTask

/-- What a call that rests holds in its hands. -/
def Ok (poseidon : List ℤ → ℤ) (config : IZKServerConfig) : TreeTask → Prop
  | call (.updateUser _ newValue) =>
      0 < config.merkleTreeLevels ∨ ∃ v, Js.stringToBigInt newValue = some v
  | members zeros _ _ => zeros = zeroRows poseidon config ∧ 0 < config.merkleTreeLevels
  | _ => True

def cost : TreeTask → ℕ
  | call (.updateUser ..) => 1
  | _ => 0

theorem sum_cost (calls : List TreeCall) :
    ((calls.map call).map cost).sum = calls.countP TreeCall.isUpdate := by
  induction calls with
  | nil => rfl
  | cons c calls ih =>
      cases c with
      | appendUsers users groupId =>
          rw [List.countP_cons_of_neg (by simp [TreeCall.isUpdate]), ← ih]
          exact Nat.zero_add _
      | updateUser leafHash newValue =>
          rw [List.countP_cons_of_pos rfl, ← ih]
          exact Nat.add_comm 1 _

/-- Reading the zero hashes changes nothing; without them the call fails. -/
theorem run_readZeros {users : List IGroupMember} {groupId : String} {task : TreeTask}
    (h : (readZeros users groupId).run db = (.ok task, db')) :
    db' = db ∧ db.treeZeros.length ≠ 0 ∧ task = members db.treeZeros groupId users := by
  unfold readZeros MerkleTreeZero.findZeros at h
  rw [run_query_bind] at h
  split at h
  · cases h
  · next hne =>
      obtain ⟨htask, rfl⟩ := Prod.mk.inj h
      exact ⟨rfl, hne, (Except.ok.inj htask).symm⟩

/-- The rules for the sections of the tree calls, with a budget of one update. -/
theorem rules (poseidon : List ℤ → ℤ) (config : IZKServerConfig) :
    (sections poseidon config).Rules (Seeded poseidon config) (Ok poseidon config)
      (TreeAt poseidon config) cost 1 where
  quiet task p hp := by
    suffices Within OnlyTree p from this.mono fun s t hst hs => hst.treeZeros.trans hs
    rcases next_eq_some poseidon config hp with
      ⟨users, groupId, -, rfl⟩ | ⟨leafHash, newValue, -, rfl⟩ | ⟨zeros, groupId, user, users, -, rfl⟩
    · refine .bind (.query OnlyTree.refl _) fun zeros => ?_
      split
      · exact .raise _
      · exact .ret _
    · exact .bind (updateUser_onlyTree _ _ _ _) fun _ => .ret _
    · exact .bind (appendMember_onlyTree zeros groupId user) fun _ => .ret _
  ok task p db task' db' hp hseeded hok hrun := by
    rcases next_eq_some poseidon config hp with
      ⟨users, groupId, rfl, rfl⟩ | ⟨leafHash, newValue, rfl, rfl⟩ |
      ⟨zeros, groupId, user, users, rfl, rfl⟩
    · obtain ⟨-, hne, rfl⟩ := run_readZeros hrun
      refine ⟨⟨hseeded, Nat.pos_of_ne_zero fun hzero => hne ?_⟩, le_rfl⟩
      rw [hseeded, List.length_map, List.length_range, hzero]
    · obtain ⟨_, _, -, h⟩ := run_bind_ok_iff.mp hrun
      obtain rfl := Except.ok.inj (Prod.mk.inj h).1
      exact ⟨trivial, Nat.zero_le 1⟩
    · obtain ⟨_, _, -, h⟩ := run_bind_ok_iff.mp hrun
      obtain rfl := Except.ok.inj (Prod.mk.inj h).1
      exact ⟨hok, le_rfl⟩
  inv task p u db task' db' hp hok hinv hu hrun := by
    rcases next_eq_some poseidon config hp with
      ⟨users, groupId, rfl, rfl⟩ | ⟨leafHash, newValue, rfl, rfl⟩ |
      ⟨zeros, groupId, user, users, rfl, rfl⟩
    · obtain ⟨rfl, -, rfl⟩ := run_readZeros hrun
      exact ⟨u, hinv, le_rfl⟩
    · obtain ⟨_, db₁, hupdate, h⟩ := run_bind_ok_iff.mp hrun
      obtain ⟨htask, rfl⟩ := Prod.mk.inj h
      obtain rfl := Except.ok.inj htask
      obtain rfl : u = 0 := Nat.le_zero.mp (Nat.le_of_add_le_add_right hu)
      exact ⟨1, hinv.updateUser hok hupdate, le_rfl⟩
    · obtain ⟨_, db₁, happend, h⟩ := run_bind_ok_iff.mp hrun
      obtain ⟨htask, rfl⟩ := Prod.mk.inj h
      obtain rfl := Except.ok.inj htask
      obtain ⟨n, leaf, htree⟩ := hinv.tree
      obtain ⟨rfl, hlevels⟩ := hok
      have hzeros : db.treeZeros = zeroRows poseidon config := htree.seeded
      rw [← hzeros] at happend
      exact ⟨u, hinv.appendMember hlevels happend, le_rfl⟩

end TreeTask

/-- Where the calls append their members and update their leaf one at a time, and all return, the
    tree is sound. -/
theorem exclusive_calls_keep_tree {calls : List TreeCall} {schedule : List ℕ}
    (hproper : db.Proper poseidon config) (hupdates : calls.countP TreeCall.isUpdate ≤ 1)
    (hvalues : ∀ leafHash newValue, .updateUser leafHash newValue ∈ calls →
      0 < config.merkleTreeLevels ∨ ∃ v, Js.stringToBigInt newValue = some v)
    (hexclusive : (TreeTask.sections poseidon config).Exclusive
      (Sections.init (calls.map .call) db) schedule)
    (hdone : ∀ thread ∈ ((concurrentCalls poseidon config calls db).steps schedule).threads,
      thread.2.Returned) :
    ((concurrentCalls poseidon config calls db).steps schedule).state.Sound poseidon config := by
  obtain ⟨⟨n, leaf, htree⟩, hpositions⟩ := hproper
  have hpool : (TreeTask.sections poseidon config).eraseState
      (Sections.init (calls.map .call) db) = concurrentCalls poseidon config calls db := by
    simp only [Sections.eraseState, Sections.init, List.map_map, concurrentCalls]
    rfl
  have hok : ∀ task ∈ calls.map TreeTask.call, task.Ok poseidon config := by
    intro task htask
    obtain ⟨c, hc, rfl⟩ := List.mem_map.mp htask
    cases c with
    | appendUsers users groupId => trivial
    | updateUser leafHash newValue => exact hvalues leafHash newValue hc
  have hbudget : 0 + ((calls.map TreeTask.call).map TreeTask.cost).sum ≤ 1 := by
    rwa [Nat.zero_add, TreeTask.sum_cost]
  have hat : TreeAt poseidon config 0 db :=
    ⟨⟨n, leaf, htree.mono fun _ _ => False.elim⟩, hpositions⟩
  rw [← hpool] at hdone ⊢
  obtain ⟨u, hinv⟩ := Sections.inv_of_exclusive (TreeTask.rules poseidon config) htree.seeded hok
    hat hbudget hexclusive hdone
  exact hinv.sound

end

/-! ## Two syncs of one group -/

theorem seededStore_proper : seededStore.Proper sumHash twoLevels := by
  obtain ⟨db, hrun, hseeded, hnodes⟩ := seedZeros_seeded sumHash twoLevels
  obtain rfl : seededStore = db := congrArg Prod.snd hrun
  exact ⟨⟨0, _, TreeInv.empty hseeded hnodes⟩, by decide +kernel⟩

/-- A sync of the group `g`. -/
def syncTwo : TreeCall := .appendUsers twoMembers "g"

/-- A second sync starts before the first has created its leaf: both find the position of the
    member free, and both count no leaf. -/
theorem overlapping_syncs_append_twice :
    ¬ ∀ (poseidon : List ℤ → ℤ) (config : IZKServerConfig) (db : Db) (calls : List TreeCall)
      (schedule : List ℕ), db.Proper poseidon config → calls.countP TreeCall.isUpdate ≤ 1 →
      (∀ thread ∈ ((concurrentCalls poseidon config calls db).steps schedule).threads,
        thread.2.Returned) →
      ((concurrentCalls poseidon config calls db).steps schedule).state.Sound poseidon config := by
  intro h
  have hsound := h sumHash twoLevels seededStore [syncTwo, syncTwo]
    (List.replicate 30 [0, 1]).flatten seededStore_proper (by decide) (by decide +kernel)
  exact absurd hsound.1 (by decide +kernel)

/-- Two syncs of one group overlap, and an update follows: both read the zero hashes, the first
    appends a member, the second finds it and appends the other one, and the first finds that. -/
theorem successive_syncs_keep_tree :
    ((concurrentCalls sumHash twoLevels [syncTwo, syncTwo, .updateUser "1" "10"]
      seededStore).steps (List.replicate 1 0 ++ List.replicate 1 1 ++ List.replicate 9 0
        ++ List.replicate 12 1 ++ List.replicate 1 0 ++ List.replicate 10 2)
        ).state.Sound sumHash twoLevels := by
  refine exclusive_calls_keep_tree seededStore_proper (by decide) ?_
    (.append _ (.append _ (.append _ (.append _ (.append _ ?_ ?_) ?_) ?_) ?_) ?_)
    (by decide +kernel)
  · exact fun _ _ _ => Or.inl Nat.two_pos
  all_goals exact Sections.exclusive_replicate _ (by decide +kernel) _

end ZkChat
