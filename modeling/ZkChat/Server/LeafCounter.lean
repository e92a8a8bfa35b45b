import Mathlib.Data.List.Nodup
import ZkChat.Server.InterRep

set_option autoImplicit false

/-! # The recorded number of leaves

`number_of_leaves` of a stored group is the offset from which the next run loads its members. It is
right as long as the tree has a leaf at every position below it (`Recorded`). A run advances it to
the remote number once the loaded members have been appended without an exception; but a request
that fails has been turned into an empty page by then, and a list that is cut off after a page is
appended like any other. So the counter is right as long as every first page reaches all the positions
that have no leaf yet. -/

namespace ZkChat

open Prog UserService InterRepSynchronizer InterRepFunctions GroupService

/-! ## The statement -/

/-- The leaves of a group. -/
def Db.groupLeaves (groupId : String) (db : Db) : List (IMerkleTreeNodeKey × String) :=
  db.leafRows.filter fun row => row.1.groupId = groupId

/-- Where a run starts loading the members of a group. -/
def storedLeaves (groupsInDb : List IGroup) (g : IInterRepGroupV2) : ℕ :=
  match findGroup groupsInDb g with
  | none => 0
  | some groupInDb => groupInDb.number_of_leaves

/-- The page of members at an offset, as it was answered. -/
def InterRepAnswers.page (answers : InterRepAnswers) (place offset : ℕ) : List IGroupMember :=
  getMembersForGroup (answers.members place 100 offset) offset

/-- The first page that a run loads for a group has every position below the remote number of leaves
    that has no leaf in the store before the run. -/
def FirstPageReaches (answers : InterRepAnswers) (groupsInDb : List IGroup) (place : ℕ)
    (g : IInterRepGroupV2) (db : Db) : Prop :=
  ∀ i : ℕ, storedLeaves groupsInDb g ≤ i → i < g.numberOfLeaves → db.HasMember g.g_id i ∨
    i < storedLeaves groupsInDb g + (answers.page place (storedLeaves groupsInDb g)).length

/-- The same for every group of the run. -/
def FirstPagesReach (answers : InterRepAnswers) (s : Store) : Prop :=
  ∀ place g, (getAllGroups answers.groups)[place]? = some g →
    FirstPageReaches answers s.groups place g s.db

/-- Every request for members fails, or is answered with its page of a list of `numberOfLeaves`
    members. -/
def ServedOrFailed (answers : InterRepAnswers) : Prop :=
  ∀ place g, (getAllGroups answers.groups)[place]? = some g →
    ∃ members : List String, members.length = g.numberOfLeaves ∧ ∀ limit offset,
      answers.members place limit offset = none ∨
        answers.members place limit offset = served members limit offset

/-- Runs that return, one after another, from a server that has stored no group yet. `seen` are the
    remote groups so far: their numbers of leaves only grow. Every run satisfies `ok`. -/
inductive InterRepRuns (poseidon : List ℤ → ℤ) (config : IZKServerConfig)
    (ok : InterRepAnswers → Store → Prop) : List IInterRepGroupV2 → Store → Prop
  | start (db : Db) : InterRepRuns poseidon config ok [] { db }
  | sync {seen : List IInterRepGroupV2} {s s' : Store} (h : InterRepRuns poseidon config ok seen s)
      (answers : InterRepAnswers) (fuel : ℕ)
      (hgrows : ∀ g ∈ seen, ∀ g' ∈ getAllGroups answers.groups, g'.g_id = g.g_id →
        g.numberOfLeaves ≤ g'.numberOfLeaves)
      (hok : ok answers s)
      (hrun : (syncCommitmentsFromInterRep poseidon config answers fuel).run s = (.ok (), s')) :
      InterRepRuns poseidon config ok (seen ++ getAllGroups answers.groups) s'

/-- No stored group has more leaves recorded than it has in the tree. -/
def CountersRight (s : Store) : Prop :=
  ∀ g ∈ s.groups, g.number_of_leaves ≤ (s.db.groupLeaves g.group_id).length

/-! ## Positions that are taken -/

/-- Positions that are taken stay taken. -/
def KeepsMembers (db db' : Db) : Prop :=
  ∀ groupId i, db.HasMember groupId i → db'.HasMember groupId i

theorem KeepsMembers.refl (db : Db) : KeepsMembers db db := fun _ _ h => h

theorem KeepsMembers.trans {a b c : Db} (h : KeepsMembers a b) (h' : KeepsMembers b c) :
    KeepsMembers a c :=
  fun groupId i hi => h' groupId i (h groupId i hi)

theorem KeepsMembers.of_leafKeys {db db' : Db} (h : db'.leafKeys = db.leafKeys) :
    KeepsMembers db db' := by
  intro groupId i hi
  rw [Db.hasMember_iff_leafKeys] at hi ⊢
  rwa [h]

/-- The tree has a leaf at every position of the group below `n`. -/
def Db.HasFirst (groupId : String) (n : ℕ) (db : Db) : Prop :=
  ∀ i : ℕ, i < n → db.HasMember groupId i

/-- As many leaves as positions. -/
theorem Db.HasFirst.le_length {groupId : String} {n : ℕ} {db : Db} (h : db.HasFirst groupId n) :
    n ≤ (db.groupLeaves groupId).length := by
  have hnodup : ((List.range n).map Int.ofNat).Nodup :=
    List.nodup_range.map fun _ _ => Int.ofNat.inj
  have hsub : (List.range n).map Int.ofNat ⊆
      (db.groupLeaves groupId).map fun row => row.1.indexInGroup := by
    intro x hx
    obtain ⟨i, hi, rfl⟩ := List.mem_map.mp hx
    obtain ⟨row, hrow, hgroup, hindex⟩ := h i (List.mem_range.mp hi)
    exact List.mem_map.mpr ⟨row, List.mem_filter.mpr ⟨hrow, decide_eq_true hgroup⟩, hindex⟩
  simpa using (hnodup.subperm hsub).length_le

section Tree

variable {poseidon : List ℤ → ℤ} {config : IZKServerConfig}

/-- An append that returns has a leaf for every member of its list. -/
theorem appendMembers_hasMember (zeros : List IMerkleTreeZero) (groupId : String)
    (users : List IGroupMember) (db : Db) :
    (appendMembers poseidon config zeros groupId users).wp (fun r db' => KeepsMembers db db' ∧
      ∀ x, r = .ok x → ∀ user ∈ users, db'.HasMember groupId user.index) db := by
  induction users generalizing db with
  | nil => exact ⟨.refl db, by simp⟩
  | cons user users ih =>
      unfold appendMembers
      rw [wp_bind]
      refine wp_mono (appendMember_outcome poseidon config zeros groupId user db) ?_
      have hkept : ∀ {r db₁}, MemberOutcome groupId user db r db₁ → KeepsMembers db db₁ := by
        intro r db₁ hout
        cases hout with
        | taken => exact .refl db
        | full => exact .refl db
        | added r _ hrows =>
            rintro group i ⟨row, hrow, hi⟩
            exact ⟨row, by rw [hrows]; exact List.mem_append_left _ hrow, hi⟩
      rintro (e | u) db₁ hout
      · exact ⟨hkept hout, fun x hx => by cases hx⟩
      · rw [andThen_ok]
        refine wp_mono (ih db₁) fun r db₂ h => ⟨(hkept hout).trans h.1, fun x hx v hv => ?_⟩
        rcases List.mem_cons.mp hv with rfl | hv
        · exact h.1 _ _ (hout.memberAdded.taken rfl)
        · exact h.2 x hx v hv

theorem appendUsers_hasMember (users : List IGroupMember) (groupId : String) (db : Db) :
    (appendUsers poseidon config users groupId).wp (fun r db' => KeepsMembers db db' ∧
      ∀ x, r = .ok x → ∀ user ∈ users, db'.HasMember groupId user.index) db := by
  refine wp_appendUsers (fun hnone => ?_) (fun e => ?_) (appendMembers_hasMember _ groupId users db)
  · rw [hnone]
    exact ⟨.refl db, by simp⟩
  · refine ⟨.refl db, fun x hx => ?_⟩
    cases hx

end Tree

/-! ## What a load brings -/

theorem prefix_of_loadPages {α : Type} {request : ℕ → List α} {limit upTo fuel offset : ℕ}
    {page loaded result : List α}
    (h : loadPages request limit upTo fuel offset page loaded = .ok result) : loaded <+: result := by
  induction fuel generalizing offset page loaded with
  | zero =>
      unfold loadPages at h
      split at h
      · cases h
      · exact Except.ok.inj h ▸ List.prefix_rfl
  | succ fuel ih =>
      unfold loadPages at h
      split at h
      · exact (List.prefix_append _ _).trans (ih h)
      · exact Except.ok.inj h ▸ List.prefix_rfl

/-- The page at an offset has the positions from the offset on. -/
theorem mem_getMembersForGroup {answer : Option (List String)} {offset i : ℕ} (hle : offset ≤ i)
    (hlt : i < offset + (getMembersForGroup answer offset).length) :
    ∃ user ∈ getMembersForGroup answer offset, user.index = (i : ℤ) := by
  cases answer with
  | none =>
      simp only [getMembersForGroup, List.length_nil] at hlt
      omega
  | some data =>
      simp only [getMembersForGroup, length_indexed] at hlt
      have hget : (data.zipIdx offset)[i - offset]? = some (data[i - offset], i) := by
        rw [List.getElem?_zipIdx, List.getElem?_eq_getElem (by omega), Option.map_some,
          Nat.add_sub_cancel' hle]
      exact ⟨⟨i, data[i - offset]⟩, List.mem_map.mpr ⟨_, List.mem_of_getElem? hget, rfl⟩, rfl⟩

/-- A load that returns has the members of its first page. -/
theorem mem_of_load {answers : InterRepAnswers} {place fuel offset upTo i : ℕ}
    {users : List IGroupMember}
    (h : loadGroupMembersWithPagination (answers.members place) fuel offset upTo = .ok users)
    (hle : offset ≤ i) (hlt : i < offset + (answers.page place offset).length) :
    ∃ user ∈ users, user.index = (i : ℤ) := by
  obtain ⟨user, huser, hi⟩ := mem_getMembersForGroup hle hlt
  exact ⟨user, (prefix_of_loadPages h).subset huser, hi⟩

/-! ## One run -/

/-- Every position below a recorded number of leaves is taken. -/
def Recorded (s : Store) : Prop := ∀ g ∈ s.groups, s.db.HasFirst g.group_id g.number_of_leaves

theorem Recorded.countersRight {s : Store} (h : Recorded s) : CountersRight s :=
  fun g hg => (h g hg).le_length

/-- A step of a run: no position is lost, and what is recorded stays right. -/
structure Steady (s s' : Store) : Prop where
  kept : KeepsMembers s.db s'.db
  recorded : Recorded s → Recorded s'

namespace Steady

theorem refl (s : Store) : Steady s s := ⟨.refl _, id⟩

theorem trans {a b c : Store} (h : Steady a b) (h' : Steady b c) : Steady a c :=
  ⟨h.kept.trans h'.kept, fun hr => h'.recorded (h.recorded hr)⟩

/-- The tree grows and the groups stay. -/
theorem of_db {s : Store} {db : Db} (h : KeepsMembers s.db db) : Steady s { s with db } :=
  ⟨h, fun hr g hg i hi => h _ _ (hr g hg i hi)⟩

/-- A group is stored or updated whose positions are all taken. -/
theorem of_groups {s : Store} {groups : List IGroup}
    (h : ∀ g ∈ groups, g ∈ s.groups ∨ s.db.HasFirst g.group_id g.number_of_leaves) :
    Steady s { s with groups } :=
  ⟨.refl _, fun hr g hg => (h g hg).elim (hr g) id⟩

end Steady

section Run

variable {poseidon : List ℤ → ℤ} {config : IZKServerConfig} {answers : InterRepAnswers} {fuel : ℕ}
  {place : ℕ} {g : IInterRepGroupV2} {s : Store}

@[simp] theorem wp_onDb {α : Type} {Q : Except Exn α → Store → Prop} (p : Server α) (s : Store) :
    (onDb p).wp Q s = p.wp (fun r db => Q r { s with db }) s.db := by
  simp [wp]

/-- Recording the remote number of leaves once the loaded members are appended. -/
theorem append_then_record {users : List IGroupMember} {offset : ℕ} {record : Prog Store Exn Unit}
    (changed : Bool)
    (hload : loadGroupMembersWithPagination (answers.members place) fuel offset g.numberOfLeaves
      = .ok users)
    (hbelow : s.db.HasFirst g.g_id offset)
    (hreach : ∀ i : ℕ, offset ≤ i → i < g.numberOfLeaves → s.db.HasMember g.g_id i ∨
      i < offset + (answers.page place offset).length)
    (hrecord : ∀ s : Store, s.db.HasFirst g.g_id g.numberOfLeaves →
      record.wp (fun _ s' => Steady s s') s) :
    (Prog.tryCatch
      (do
        let _ ← onDb (appendUsers poseidon config users g.g_id)
        record
        pure true)
      fun _ => pure changed).wp (fun _ s' => Steady s s') s := by
  rw [wp_tryCatch, wp_bind, wp_onDb]
  refine wp_mono (appendUsers_hasMember users g.g_id s.db) ?_
  rintro (e | x) db ⟨hkept, htaken⟩
  · exact .of_db hkept
  · have hfirst : db.HasFirst g.g_id g.numberOfLeaves := by
      intro i hi
      rcases Nat.lt_or_ge i offset with hlt | hge
      · exact hkept _ _ (hbelow i hlt)
      rcases hreach i hge hi with htaken' | hpage
      · exact hkept _ _ htaken'
      · obtain ⟨user, huser, hindex⟩ := mem_of_load hload hge hpage
        exact hindex ▸ htaken x rfl user huser
    rw [andThen_ok, wp_bind]
    refine wp_mono (hrecord { s with db } hfirst) ?_
    rintro (e | u) s' h
    · exact (Steady.of_db hkept).trans h
    · exact (Steady.of_db hkept).trans h

theorem wp_saveGroup_steady {x : IGroup} (h : s.db.HasFirst x.group_id x.number_of_leaves) :
    (saveGroup x).wp (fun _ s' => Steady s s') s := by
  unfold saveGroup
  rw [wp_await]
  split
  · exact .refl s
  · refine .of_groups fun y hy => ?_
    rcases List.mem_append.mp hy with hy | hy
    · exact Or.inl hy
    · rw [List.mem_singleton.mp hy]
      exact Or.inr h

theorem wp_updateNumberOfLeaves_steady {group_id : String} {n : ℕ}
    (h : s.db.HasFirst group_id n) :
    (updateNumberOfLeaves group_id n).wp (fun _ s' => Steady s s') s := by
  refine .of_groups fun y hy => ?_
  rcases Collection.mem_modifyFirst hy with hy | ⟨x, -, hx, rfl⟩
  · exact Or.inl hy
  · exact Or.inr (of_decide_eq_true hx ▸ h)

/-- A group that is not stored is loaded from the start, a stored one from its recorded number. -/
theorem addGroup_steady (changed : Bool) (hreach : ∀ i : ℕ, 0 ≤ i → i < g.numberOfLeaves →
      s.db.HasMember g.g_id i ∨ i < 0 + (answers.page place 0).length) :
    (addGroup poseidon config answers fuel place g changed).wp (fun _ s' => Steady s s') s := by
  unfold addGroup
  rw [wp_bind, wp_ofExcept]
  cases hload : loadGroupMembersWithPagination (answers.members place) fuel 0 g.numberOfLeaves with
  | error e => exact .refl s
  | ok users =>
      exact append_then_record changed hload (fun i hi => absurd hi (Nat.not_lt_zero i)) hreach
        fun s h => wp_saveGroup_steady h

theorem addMembers_steady {groupInDb : IGroup} (changed : Bool)
    (hbelow : s.db.HasFirst g.g_id groupInDb.number_of_leaves)
    (hreach : ∀ i : ℕ, groupInDb.number_of_leaves ≤ i → i < g.numberOfLeaves →
      s.db.HasMember g.g_id i ∨ i < groupInDb.number_of_leaves
        + (answers.page place groupInDb.number_of_leaves).length) :
    (addMembers poseidon config answers fuel place g groupInDb changed).wp
      (fun _ s' => Steady s s') s := by
  unfold addMembers
  split
  · rw [wp_bind, wp_ofExcept]
    cases hload : loadGroupMembersWithPagination (answers.members place) fuel
        groupInDb.number_of_leaves g.numberOfLeaves with
    | error e => exact .refl s
    | ok users =>
        exact append_then_record changed hload hbelow hreach
          fun s h => wp_updateNumberOfLeaves_steady h
  · exact .refl s

/-- Removing members keeps their leaves, and the size is not the number of leaves. -/
theorem removeMembers_steady (groupInDb : IGroup) (changed : Bool) (s : Store) :
    (removeMembers poseidon config answers fuel place g groupInDb changed).wp
      (fun _ s' => Steady s s') s := by
  unfold removeMembers
  split
  · rw [wp_bind, wp_ofExcept]
    cases loadRemovedGroupMembersWithPagination (answers.removedMembers place) fuel 0 g.size with
    | error e => exact .refl s
    | ok indexes =>
        rw [andThen_ok, wp_tryCatch, wp_bind, wp_onDb]
        refine wp_mono (removeUsersByIndexes_leafKeys _ _ indexes groupInDb.group_id s.db) ?_
        rintro (e | x) db hkeys
        · exact .of_db (.of_leafKeys hkeys)
        · refine ⟨.of_leafKeys hkeys, fun hr y hy => ?_⟩
          -- the update changes the size alone
          rcases Collection.mem_modifyFirst hy with hy | ⟨z, hz, -, rfl⟩
          · exact (Steady.of_db (KeepsMembers.of_leafKeys hkeys)).recorded hr y hy
          · exact (Steady.of_db (KeepsMembers.of_leafKeys hkeys)).recorded hr z hz
  · exact .refl s

theorem findGroup_eq_some {groupsInDb : List IGroup} {groupInDb : IGroup}
    (h : findGroup groupsInDb g = some groupInDb) :
    groupInDb ∈ groupsInDb ∧ groupInDb.group_id = g.g_id := by
  unfold findGroup at h
  have hmatch := List.find?_some h
  exact ⟨List.mem_of_find?_eq_some h, (of_decide_eq_true hmatch).1⟩

theorem syncGroup_steady {groupsInDb : List IGroup} (changed : Bool)
    (hstored : ∀ x ∈ groupsInDb, s.db.HasFirst x.group_id x.number_of_leaves)
    (hreach : FirstPageReaches answers groupsInDb place g s.db) :
    (syncGroup poseidon config answers fuel groupsInDb place g changed).wp
      (fun _ s' => Steady s s') s := by
  unfold FirstPageReaches storedLeaves at hreach
  unfold syncGroup
  cases hfind : findGroup groupsInDb g with
  | none =>
      rw [hfind] at hreach
      exact addGroup_steady changed hreach
  | some groupInDb =>
      rw [hfind] at hreach
      obtain ⟨hmem, hid⟩ := findGroup_eq_some hfind
      simp only [wp_bind]
      refine wp_mono (addMembers_steady changed (hid ▸ hstored groupInDb hmem) hreach) ?_
      rintro (e | b) s₁ h
      · exact h
      · exact wp_mono (removeMembers_steady groupInDb b s₁) fun _ _ h' => h.trans h'

theorem FirstPageReaches.mono {groupsInDb : List IGroup} {db db' : Db}
    (h : FirstPageReaches answers groupsInDb place g db) (hkept : KeepsMembers db db') :
    FirstPageReaches answers groupsInDb place g db' :=
  fun i hle hlt => (h i hle hlt).imp_left (hkept _ _)

/-- The groups one after another, all of them compared with what was stored before the run. -/
theorem syncGroups_steady {groupsInDb : List IGroup} {gs : List IInterRepGroupV2} (changed : Bool)
    (hstored : ∀ x ∈ groupsInDb, s.db.HasFirst x.group_id x.number_of_leaves)
    (hreach : ∀ k g, gs[k]? = some g →
      FirstPageReaches answers groupsInDb (place + k) g s.db) :
    (syncGroups poseidon config answers fuel groupsInDb place gs changed).wp
      (fun _ s' => Steady s s') s := by
  induction gs generalizing place changed s with
  | nil => exact .refl s
  | cons g gs ih =>
      unfold syncGroups
      rw [wp_bind]
      refine wp_mono (syncGroup_steady changed hstored (hreach 0 g rfl)) ?_
      rintro (e | b) s₁ h
      · exact h
      · refine wp_mono (ih b ?_ ?_) fun _ _ h' => h.trans h'
        · exact fun x hx i hi => h.kept _ _ (hstored x hx i hi)
        · intro k g' hk
          rw [Nat.add_assoc, Nat.add_comm 1]
          exact (hreach (k + 1) g' (by simpa using hk)).mono h.kept

/-- One run. -/
theorem sync_steady (hrecorded : Recorded s) (hreach : FirstPagesReach answers s) :
    (syncCommitmentsFromInterRep poseidon config answers fuel).wp (fun _ s' => Steady s s') s := by
  unfold syncCommitmentsFromInterRep getGroups
  simp only [wp_bind, wp_query, andThen_ok]
  refine wp_mono (syncGroups_steady false hrecorded fun k g hk => ?_) ?_
  · rw [Nat.zero_add]
    exact hreach k g hk
  · rintro (e | b) s₁ h
    · exact h
    · cases b with
      | false => exact h
      | true => exact h.trans (.of_db fun _ _ hi => hi)

end Run

variable {poseidon : List ℤ → ℤ} {config : IZKServerConfig} {seen : List IInterRepGroupV2}
  {s : Store}

theorem InterRepRuns.recorded (h : InterRepRuns poseidon config FirstPagesReach seen s) :
    Recorded s := by
  induction h with
  | start db => exact fun g hg => nomatch hg
  | sync _ answers fuel _ hok hrun ih =>
      have hsteady : (syncCommitmentsFromInterRep poseidon config answers fuel).wp
          (fun _ s' => Steady _ s') _ := sync_steady ih hok
      rw [wp, hrun] at hsteady
      exact hsteady.recorded ih

/-- As long as every first page reaches the positions that have no leaf, no stored group has more
    leaves recorded than it has in the tree. -/
theorem interRepRuns_countersRight
    (h : InterRepRuns poseidon config FirstPagesReach seen s) : CountersRight s :=
  h.recorded.countersRight

/-! ## A group of one member -/

namespace Demo

def oneMember : IInterRepGroupV2 :=
  { provider := "github", name := "GOLD", size := 1, numberOfLeaves := 1 }

/-- The requests for its members are answered with `answer`. -/
def answersOf (answer : ℕ → ℕ → Option (List String)) : InterRepAnswers :=
  { groups := some [oneMember], members := fun _ => answer, removedMembers := fun _ _ _ => none }

def afterOneRun (answers : InterRepAnswers) : Store :=
  (syncCommitmentsFromInterRep sumHash configTwoLevels answers 0).exec { db := seeded }

theorem oneMember_of_getElem? {place : ℕ} {g : IInterRepGroupV2}
    (h : (getAllGroups (some [oneMember]))[place]? = some g) : place = 0 ∧ g = oneMember := by
  cases place with
  | zero => exact ⟨rfl, (Option.some.inj h).symm⟩
  | succ place => simp [getAllGroups] at h

end Demo

/-- The request for the only member fails, and the group is stored with one leaf. -/
theorem failed_request_is_counted :
    ¬ ∀ (poseidon : List ℤ → ℤ) (config : IZKServerConfig) (seen : List IInterRepGroupV2)
      (s : Store), InterRepRuns poseidon config (fun answers _ => ServedOrFailed answers) seen s →
        CountersRight s := by
  intro h
  have hserved : ServedOrFailed (Demo.answersOf fun _ _ => none) := by
    intro place g hg
    obtain ⟨-, rfl⟩ := Demo.oneMember_of_getElem? hg
    exact ⟨["5"], rfl, fun _ _ => Or.inl rfl⟩
  have hruns : InterRepRuns sumHash Demo.configTwoLevels (fun answers _ => ServedOrFailed answers)
      [] { db := Demo.seeded } := .start Demo.seeded
  have hright := h _ _ _ _ (hruns.sync (Demo.answersOf fun _ _ => none) 0 (by simp) hserved rfl)
    ⟨"github_GOLD", "github", "GOLD", 1, 1⟩ (List.mem_singleton_self _)
  exact absurd hright (by decide +kernel)

/-- The same run with the request answered. -/
theorem answered_request_is_counted :
    CountersRight (Demo.afterOneRun (Demo.answersOf (served ["5"]))) := by
  refine @interRepRuns_countersRight sumHash Demo.configTwoLevels _ _
    (.sync (.start Demo.seeded) (Demo.answersOf (served ["5"])) 0 (by simp) ?_ rfl)
  intro place g hg i _ hi
  obtain ⟨rfl, rfl⟩ := Demo.oneMember_of_getElem? hg
  exact Or.inr hi

end ZkChat
