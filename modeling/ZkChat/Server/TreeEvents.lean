import ZkChat.Server.LeafCounter
import ZkChat.Server.TreeSteps

set_option autoImplicit false

/-! # Which changes of the root are published

Both synchronisers publish `TREE_UPDATE` when `tree_root_changed` is set, and each step of a run (an
append or a removal, with the update of the stored group) sets it as its last statement, inside a
`try` whose handler goes on. So the event is published exactly when some step completed. A step that
throws may have changed the tree before that, member by member, and of such a change no client is
told, unless another step of the run completes. Whether that can happen is told from the lists that
were received and the store before the run (`RootWatched`). -/

namespace ZkChat

open Prog UserService GroupService

/-! ## The statement -/

/-- Between two states `TREE_UPDATE` was published. -/
def UpdatePublished (db db' : Db) : Prop :=
  .event "TREE_UPDATE" ∈ db'.published.drop db.published.length

instance (db db' : Db) : Decidable (UpdatePublished db db') :=
  inferInstanceAs (Decidable (_ ∈ _))

/-- If the root is another one, the event was published. -/
def RootAnnounced (db db' : Db) : Prop := db'.rootResult ≠ db.rootResult → UpdatePublished db db'

/-! ## The steps of a run -/

namespace SemaphoreSynchronizer

open SemaphoreFunctions

variable (answers : SemaphoreAnswers)

def groupSteps (groupsInDb : List IGroup) (g : ISemaphoreRepGroupV2) : List TreeStep :=
  let groupMembers := getMembersForGroup (answers.members g.id)
  match groupsInDb.find? (·.group_id = g.id) with
  | none =>
      [.addGroup groupMembers
        { group_id := g.id, provider := "Semaphore", name := g.name, size := groupMembers.length
          number_of_leaves := groupMembers.length }]
  | some groupInDb =>
      (if groupInDb.number_of_leaves < groupMembers.length then
        [.addMembers groupMembers g.id groupMembers.length]
      else []) ++
      if groupMembers.length ≠ groupInDb.size then
        [.removeObjects (getRemovedMembersForGroup (answers.removedMembers g.id)) g.id
          groupMembers.length]
      else []

/-- The steps of a run that starts with these stored groups. -/
def steps (groupsInDb : List IGroup) : List TreeStep :=
  getAllGroups.flatMap (groupSteps answers groupsInDb)

end SemaphoreSynchronizer

namespace InterRepSynchronizer

open InterRepFunctions

variable (answers : InterRepAnswers) (fuel : ℕ)

/-- The step after a load; a load that never returns has none. -/
def afterLoad {α : Type} (load : Except Exn α) (step : α → TreeStep) : List TreeStep :=
  match load with
  | .ok loaded => [step loaded]
  | .error _ => []

def groupSteps (groupsInDb : List IGroup) (place : ℕ) (g : IInterRepGroupV2) : List TreeStep :=
  match findGroup groupsInDb g with
  | none =>
      afterLoad (loadGroupMembersWithPagination (answers.members place) fuel 0 g.numberOfLeaves)
        fun groupMembers => .addGroup groupMembers
          { group_id := g.g_id, provider := g.provider, name := g.name, size := g.size
            number_of_leaves := g.numberOfLeaves }
  | some groupInDb =>
      (if groupInDb.number_of_leaves < g.numberOfLeaves then
        afterLoad (loadGroupMembersWithPagination (answers.members place) fuel
            groupInDb.number_of_leaves g.numberOfLeaves)
          fun groupMembers => .addMembers groupMembers g.g_id g.numberOfLeaves
      else []) ++
      if g.size ≠ groupInDb.size then
        afterLoad (loadRemovedGroupMembersWithPagination (answers.removedMembers place) fuel 0
            g.size)
          fun indexesOfRemovedMembers =>
            .removeMembers indexesOfRemovedMembers groupInDb.group_id g.g_id g.size
      else []

/-- The steps of a run that starts with these stored groups. -/
def steps (groupsInDb : List IGroup) : List TreeStep :=
  ((getAllGroups answers.groups).zipIdx).flatMap fun g =>
    groupSteps answers fuel groupsInDb g.2 g.1

end InterRepSynchronizer

/-! ## A run is its steps -/

section Runs

variable {poseidon : List ℤ → ℤ} {config : IZKServerConfig}

namespace SemaphoreSynchronizer

open SemaphoreFunctions

variable {answers : SemaphoreAnswers} {groupsInDb : List IGroup}

theorem syncGroup_eq_attempts (g : ISemaphoreRepGroupV2) (flag : Bool) :
    syncGroup poseidon config answers groupsInDb g flag
      = attempts ((groupSteps answers groupsInDb g).map (·.prog poseidon config)) flag := by
  unfold syncGroup groupSteps
  cases hfind : groupsInDb.find? (·.group_id = g.id) with
  | none => exact tryCatch_eq_attempts _ _ flag
  | some groupInDb =>
      simp only [List.map_append, attempts_append, addMembers, removeMembers]
      congr 1
      · split
        · exact tryCatch_eq_attempts _ _ flag
        · rfl
      · funext flag
        split
        · exact tryCatch_eq_attempts _ _ flag
        · rfl

theorem syncGroups_eq_attempts (gs : List ISemaphoreRepGroupV2) (flag : Bool) :
    syncGroups poseidon config answers groupsInDb gs flag
      = attempts ((gs.flatMap (groupSteps answers groupsInDb)).map (·.prog poseidon config))
          flag := by
  induction gs generalizing flag with
  | nil => rfl
  | cons g gs ih =>
      rw [List.flatMap_cons, List.map_append, attempts_append, ← syncGroup_eq_attempts]
      simp only [syncGroups, ih]

end SemaphoreSynchronizer

namespace InterRepSynchronizer

open InterRepFunctions

variable {answers : InterRepAnswers} {fuel : ℕ} {groupsInDb : List IGroup} {s s' : Store} {b : Bool}

/-- The part of a group that loads something and then takes a step. -/
theorem run_afterLoad {α β : Type} {load : Except Exn α} {p : α → Prog Store Exn β}
    {record : α → Prog Store Exn Unit} {step : α → TreeStep} {flag : Bool}
    (hstep : ∀ loaded, (step loaded).prog poseidon config = do let _ ← p loaded; record loaded)
    (h : (do
      let loaded ← Prog.ofExcept load
      .tryCatch (do let _ ← p loaded; record loaded; pure true) fun _ => pure flag :
        Prog Store Exn Bool).run s = (.ok b, s')) :
    (attempts ((afterLoad load step).map (·.prog poseidon config)) flag).run s = (.ok b, s') := by
  cases load with
  | error e => exact nomatch congrArg Prod.fst h
  | ok loaded =>
      rw [run_ofExcept_ok_bind, tryCatch_eq_attempts, ← hstep] at h
      exact h

theorem run_syncGroup {place : ℕ} {g : IInterRepGroupV2} {flag : Bool}
    (h : (syncGroup poseidon config answers fuel groupsInDb place g flag).run s = (.ok b, s')) :
    (attempts ((groupSteps answers fuel groupsInDb place g).map (·.prog poseidon config))
      flag).run s = (.ok b, s') := by
  unfold syncGroup at h
  unfold groupSteps
  cases hfind : findGroup groupsInDb g with
  | none =>
      rw [hfind] at h
      exact run_afterLoad (fun _ => rfl) h
  | some groupInDb =>
      rw [hfind] at h
      simp only [addMembers, removeMembers] at h
      obtain ⟨b₁, s₁, hadd, hremove⟩ := run_bind_ok_iff.mp h
      simp only [List.map_append, attempts_append]
      refine run_bind_ok_iff.mpr ⟨b₁, s₁, ?_, ?_⟩
      · split at hadd
        · next hmore =>
            rw [if_pos hmore]
            exact run_afterLoad (fun _ => rfl) hadd
        · next hmore =>
            rw [if_neg hmore]
            exact hadd
      · split at hremove
        · next hsize =>
            rw [if_pos hsize]
            exact run_afterLoad (fun _ => rfl) hremove
        · next hsize =>
            rw [if_neg hsize]
            exact hremove

theorem run_syncGroups {place : ℕ} {gs : List IInterRepGroupV2} {flag : Bool}
    (h : (syncGroups poseidon config answers fuel groupsInDb place gs flag).run s = (.ok b, s')) :
    (attempts (((gs.zipIdx place).flatMap fun g =>
      groupSteps answers fuel groupsInDb g.2 g.1).map (·.prog poseidon config)) flag).run s
      = (.ok b, s') := by
  induction gs generalizing place flag s with
  | nil => exact h
  | cons g gs ih =>
      obtain ⟨b₁, s₁, hg, hgs⟩ := run_bind_ok_iff.mp h
      rw [List.zipIdx_cons, List.flatMap_cons, List.map_append, attempts_append]
      exact run_bind_ok_iff.mpr ⟨b₁, s₁, run_syncGroup hg, ih hgs⟩

end InterRepSynchronizer

end Runs

/-! ## What the steps write -/

/-- Nothing was published. -/
def SamePublished (s s' : Store) : Prop := s'.db.published = s.db.published

theorem SamePublished.refl (s : Store) : SamePublished s s := rfl

theorem SamePublished.trans {a b c : Store} (h : SamePublished a b) (h' : SamePublished b c) :
    SamePublished a c :=
  Eq.trans h' h

theorem onDb_samePublished {α : Type} {p : Server α} (hp : Within OnlyTree p) :
    Within SamePublished (onDb p) := by
  refine hp.zoom ?_
  rintro s _ ⟨nodes, rfl⟩
  rfl

theorem saveGroup_samePublished (g : IGroup) : Within SamePublished (saveGroup g) := by
  refine .await fun s => ?_
  split
  · exact .refl s
  · rfl

theorem findOneAndUpdate_samePublished (group_id : String) (update : IGroup → IGroup) :
    Within SamePublished (findOneAndUpdate group_id update) :=
  .modify fun _ => rfl

section Published

variable {poseidon : List ℤ → ℤ} {config : IZKServerConfig}

theorem removeUsersByObjects_onlyTree (indexes : List IGroupMember) :
    Within OnlyTree (removeUsersByObjects indexes) := by
  unfold removeUsersByObjects
  split
  · exact .ret _
  · refine .bind (.query OnlyTree.refl _) fun zeros => ?_
    split
    · exact .raise _
    · exact .raise _

/-- No step publishes anything. -/
theorem TreeStep.prog_samePublished (p : TreeStep) :
    Within SamePublished (p.prog poseidon config) := by
  cases p with
  | addGroup users g =>
      exact .bind (onDb_samePublished (appendUsers_onlyTree _ _)) fun _ => saveGroup_samePublished g
  | addMembers users groupId n =>
      exact .bind (onDb_samePublished (appendUsers_onlyTree _ _)) fun _ =>
        findOneAndUpdate_samePublished _ _
  | removeMembers indexes groupInDb groupId size =>
      exact .bind (onDb_samePublished (removeUsersByIndexes_onlyTree _ _)) fun _ =>
        findOneAndUpdate_samePublished _ _
  | removeObjects members groupId size =>
      exact .bind (onDb_samePublished (removeUsersByObjects_onlyTree _)) fun _ =>
        findOneAndUpdate_samePublished _ _

end Published

/-! ## The end of a run -/

section

variable {poseidon : List ℤ → ℤ} {config : IZKServerConfig} {s s' : Store}

/-- The event is published exactly when some step completed, so a changed root is announced when one
    did, and otherwise only if it has not changed after all. -/
theorem announced_iff {steps : List TreeStep} {changed : Bool}
    (hchanged : changed = true ↔ SomeCompletes (steps.map (·.prog poseidon config)) s) :
    RootAnnounced s.db ((if changed then onDb (publish (.event "TREE_UPDATE")) else pure () :
        Prog Store Exn Unit).exec (execAll (steps.map (·.prog poseidon config)) s)).db ↔
      SomeCompletes (steps.map (·.prog poseidon config)) s ∨
        (execAll (steps.map (·.prog poseidon config)) s).db.rootResult = s.db.rootResult := by
  have hsame : (execAll (steps.map (·.prog poseidon config)) s).db.published = s.db.published := by
    refine execAll_within SamePublished.refl (fun _ _ _ => SamePublished.trans) ?_ s
    intro p hp
    obtain ⟨t, -, rfl⟩ := List.mem_map.mp hp
    exact t.prog_samePublished
  cases changed with
  | true =>
      refine iff_of_true (fun _ => ?_) (Or.inl (hchanged.mp rfl))
      have hpublished : ((onDb (publish (.event "TREE_UPDATE")) : Prog Store Exn Unit).exec
          (execAll (steps.map (·.prog poseidon config)) s)).db.published
            = s.db.published ++ [.event "TREE_UPDATE"] :=
        congrArg (fun l : List ISyncMessage => l ++ [.event "TREE_UPDATE"]) hsame
      rw [UpdatePublished, if_pos rfl, hpublished, List.drop_left]
      exact List.mem_singleton_self _
  | false =>
      have hnone : ¬ SomeCompletes (steps.map (·.prog poseidon config)) s :=
        fun h => nomatch hchanged.mpr h
      have hquiet : ¬ UpdatePublished s.db (execAll (steps.map (·.prog poseidon config)) s).db := by
        unfold UpdatePublished
        rw [hsame, List.drop_length]
        exact List.not_mem_nil
      rw [or_iff_right hnone]
      exact not_imp_comm.trans ⟨fun h => h hquiet, fun h _ => h⟩

namespace SemaphoreSynchronizer

variable {answers : SemaphoreAnswers}

theorem sync_announced_iff :
    RootAnnounced s.db ((syncCommitmentsFromSemaphore poseidon config answers).exec s).db ↔
      SomeCompletes ((steps answers s.groups).map (·.prog poseidon config)) s ∨
        (execAll ((steps answers s.groups).map (·.prog poseidon config)) s).db.rootResult
          = s.db.rootResult := by
  obtain ⟨b, hrun, hb⟩ := run_attempts ((steps answers s.groups).map (·.prog poseidon config))
    false s
  have hexec : (syncCommitmentsFromSemaphore poseidon config answers).exec s
      = (if b then onDb (publish (.event "TREE_UPDATE")) else pure () :
        Prog Store Exn Unit).exec
          (execAll ((steps answers s.groups).map (·.prog poseidon config)) s) := by
    unfold syncCommitmentsFromSemaphore getGroups
    rw [exec, run_query_bind, syncGroups_eq_attempts]
    exact congrArg Prod.snd (run_bind_of_ok hrun)
  rw [hexec]
  exact announced_iff (by simpa using hb)

open SemaphoreFunctions in
/-- On a tree at rest, with an injective hash and no zero value among the new members. -/
theorem watched_of_announced (hrest : AtRest poseidon config s.db)
    (hinjective : Function.Injective2 (pairHash poseidon))
    (hnonzero : ∀ user ∈ newMembers (s.db.groupIndexes "1") (getMembersForGroup (answers.members "1")),
      Js.stringToBigInt user.identityCommitment ≠ some config.zeroValue)
    (h : RootAnnounced s.db ((syncCommitmentsFromSemaphore poseidon config answers).exec s).db) :
    RootWatched poseidon config s (steps answers s.groups) := by
  rw [sync_announced_iff] at h
  by_contra hnot
  revert h
  rw [steps, getAllGroups, List.flatMap_singleton, groupSteps] at hnot ⊢
  obtain ⟨hempty, hfirst⟩ := not_or.mp hnot
  have hempty := fun p hp hp' => hempty ⟨p, hp, hp'⟩
  clear hnot
  cases hfind : s.groups.find? (·.group_id = "1") with
  | none =>
      rw [hfind] at hempty hfirst
      have hfree : ∀ x ∈ s.groups, x.group_id ≠ "1" := fun x hx => by
        simpa using List.find?_eq_none.mp hfind x hx
      obtain ⟨hprepared, hfirst⟩ := not_or.mp hfirst
      obtain ⟨hnothing, hstops⟩ := not_or.mp hfirst
      obtain ⟨hthrows, hroot⟩ := hrest.throws_and_changes_root hinjective hnonzero
        (exec_saveGroup_db _) (fun hall => hprepared ⟨hall, hfree⟩)
        (fun h => hnothing ⟨h, trivial⟩) fun h => hstops ⟨h, fun q hq => nomatch hq⟩
      exact TreeStep.not_completes_or hthrows hroot (fun q hq => nomatch hq) fun q hq => nomatch hq
  | some groupInDb =>
      rw [hfind] at hempty hfirst
      dsimp only at hempty hfirst ⊢
      generalize hremovals : (if (getMembersForGroup (answers.members "1")).length ≠ groupInDb.size
        then [TreeStep.removeObjects _ _ _] else []) = removals at hempty hfirst ⊢
      have hobjects : ∀ q ∈ removals, q.Objects := by
        intro q hq
        rw [← hremovals] at hq
        split at hq
        · obtain rfl := List.mem_singleton.mp hq
          exact trivial
        · cases hq
      by_cases hmore : groupInDb.number_of_leaves < (getMembersForGroup (answers.members "1")).length
      · simp only [if_pos hmore, List.singleton_append] at hempty hfirst ⊢
        obtain ⟨hprepared, hfirst⟩ := not_or.mp hfirst
        obtain ⟨hnothing, hstops⟩ := not_or.mp hfirst
        obtain ⟨hthrows, hroot⟩ := hrest.throws_and_changes_root hinjective hnonzero
          (exec_updateNumberOfLeaves_db "1" _) hprepared
          (fun h => hnothing ⟨h, .of_objects hobjects⟩) fun h => hstops ⟨h, hobjects⟩
        exact TreeStep.not_completes_or hthrows hroot hobjects
          fun q hq => hempty q (List.mem_cons_of_mem _ hq)
      · simp only [if_neg hmore, List.nil_append] at hfirst
        exact absurd (.of_objects hobjects) hfirst

end SemaphoreSynchronizer

namespace InterRepSynchronizer

open InterRepFunctions

variable {answers : InterRepAnswers} {fuel : ℕ}

theorem sync_announced_iff
    (hrun : (syncCommitmentsFromInterRep poseidon config answers fuel).run s = (.ok (), s')) :
    RootAnnounced s.db s'.db ↔
      SomeCompletes ((steps answers fuel s.groups).map (·.prog poseidon config)) s ∨
        (execAll ((steps answers fuel s.groups).map (·.prog poseidon config)) s).db.rootResult
          = s.db.rootResult := by
  unfold syncCommitmentsFromInterRep getGroups at hrun
  simp only [run_query_bind] at hrun
  obtain ⟨b, s₁, hgroups, hpublish⟩ := run_bind_ok_iff.mp hrun
  obtain ⟨b', hattempts, hb⟩ :=
    run_attempts ((steps answers fuel s.groups).map (·.prog poseidon config)) false s
  obtain ⟨hbb', rfl⟩ := Prod.mk.inj ((run_syncGroups hgroups).symm.trans hattempts)
  obtain rfl : b = b' := Except.ok.inj hbb'
  obtain rfl : _ = s' := congrArg Prod.snd hpublish
  exact announced_iff (by simpa using hb)

end InterRepSynchronizer

end

namespace Demo

/-- Both requests of a run with Semaphore are answered with the list `L`. -/
def semaphoreAnswers (L : List String) : SemaphoreAnswers := ⟨fun _ => some L, fun _ => some L⟩

/-- The zero hashes of two levels, of an injective hash. -/
def seededPairs : Db := (seedZeros pairs 0 2).exec {}

theorem pairHash_pairs_injective : Function.Injective2 (pairHash pairs) :=
  fun _ _ _ _ h => pair_injective h

/-- A stored group of one member, whose leaf is the only one. -/
def storedGroup : Store := afterOneRun (answersOf (InterRepSynchronizer.served ["5"]))

/-- The group has two members more, of which the second has a malformed commitment, and the first is
    removed, with one that does not exist. -/
def cancelling : InterRepAnswers :=
  { groups := some [{ oneMember with size := 2, numberOfLeaves := 3 }]
    members := fun _ => InterRepSynchronizer.served ["5", "7", "x"]
    removedMembers := fun _ => InterRepSynchronizer.served [1, 9] }

def twoMore : List IGroupMember := [⟨1, "7"⟩, ⟨2, "x"⟩]

end Demo

/-- With InterRep the converse fails: here one step that throws undoes what another one did. -/
theorem throwing_steps_cancel :
    ¬ ∀ (poseidon : List ℤ → ℤ) (config : IZKServerConfig) (s : Store) (answers : InterRepAnswers)
      (fuel : ℕ) (s' : Store), (InterRepSynchronizer.syncCommitmentsFromInterRep poseidon config
        answers fuel).run s = (.ok (), s') → RootAnnounced s.db s'.db →
      RootWatched poseidon config s (InterRepSynchronizer.steps answers fuel s.groups) := by
  intro h
  have hsame : (Db.rootResult ((InterRepSynchronizer.syncCommitmentsFromInterRep sumHash
      Demo.configTwoLevels Demo.cancelling 0).exec Demo.storedGroup).db)
        = Demo.storedGroup.db.rootResult := by decide +kernel
  have hsteps : InterRepSynchronizer.steps Demo.cancelling 0 Demo.storedGroup.groups
      = [.addMembers Demo.twoMore Demo.oneMember.g_id 3,
        .removeMembers [1, 9] Demo.oneMember.g_id Demo.oneMember.g_id 2] := by decide +kernel
  have hwatched := h sumHash Demo.configTwoLevels Demo.storedGroup Demo.cancelling 0 _ rfl
    (absurd hsame)
  rw [hsteps] at hwatched
  rcases hwatched with ⟨p, hp, hempty⟩ | (happends | ⟨hnothing, -⟩ | ⟨hstops, -⟩)
  · rcases List.mem_pair.mp hp with rfl | rfl
    · cases hempty
    · cases hempty
  · rcases happends with hnil | ⟨-, hnone | ⟨-, hnumeric, -⟩⟩
    · cases hnil
    · exact absurd hnone (by decide +kernel)
    · exact absurd hnumeric (by decide +kernel)
  · rcases hnothing with hnone | hnone | hfull
    · exact absurd hnone (by decide +kernel)
    · exact absurd hnone (by decide +kernel)
    · exact absurd hfull (by decide +kernel)
  · exact absurd hstops.2.2 (by decide +kernel)

end ZkChat
