import ZkChat.Server.Semaphore

set_option autoImplicit false

/-! # Syncing the groups with InterRep

`InterRepSynchronizer` differs from the synchroniser of Semaphore in where the numbers come from: the
remote list of groups says how many leaves and how many members a group has, and the members
themselves are requested page by page, from the stored number of leaves on.

The loop over the pages compares the length of the last page with the total it is to reach, and not
with the offset it is at. So a list that is served page by page is loaded completely when it ends
with the first page and the total is close to it; otherwise it is cut off after a page, or requested
for ever (`loadWithPagination_eq`). -/

namespace ZkChat

open Prog UserService

/-- A group of the remote list. -/
structure IInterRepGroupV2 where
  provider : String
  name : String
  size : ℕ
  numberOfLeaves : ℕ

/-- `g.provider + "_" + g.name`. -/
def IInterRepGroupV2.g_id (g : IInterRepGroupV2) : String := g.provider ++ "_" ++ g.name

/-- What the requests of one run are answered with; a request that fails has no answer. Those for the
    members of a group have the place of the group in the list, the limit and the offset. -/
structure InterRepAnswers where
  groups : Option (List IInterRepGroupV2)
  members : ℕ → ℕ → ℕ → Option (List String)
  removedMembers : ℕ → ℕ → ℕ → Option (List ℤ)

namespace InterRepFunctions

/-- Returns only the supported groups. -/
def getAllGroups (answer : Option (List IInterRepGroupV2)) : List IInterRepGroupV2 :=
  answer.getD []

/-- Returns an ordered list of members in the group. -/
def getMembersForGroup (answer : Option (List String)) (offset : ℕ) : List IGroupMember :=
  match answer with
  | some data => SemaphoreFunctions.indexed offset data
  | none => []

/-- Returns an ordered list of the leaf indexes of removed members in the group. -/
def getRemovedMembersForGroup (answer : Option (List ℤ)) : List ℤ := answer.getD []

end InterRepFunctions

namespace InterRepSynchronizer

open InterRepFunctions GroupService

/-! ## Loading page by page -/

section Paging

variable {α : Type} (request : ℕ → List α) (limit upTo : ℕ)

/-- The `while` loop over the pages: `page` is the one at `offset`, `loaded` is what was loaded so
    far, with it. Each further request takes a unit of fuel. -/
def loadPages : ℕ → ℕ → List α → List α → Except Exn (List α)
  | fuel, offset, page, loaded =>
    if page.length + limit ≤ upTo then
      match fuel with
      | 0 => .error .cutOff
      | fuel + 1 =>
          let page := request (offset + limit)
          loadPages fuel (offset + limit) page (loaded ++ page)
    else .ok loaded

/-- Both loads: the first page, and the loop. -/
def loadWithPagination (fuel offset : ℕ) : Except Exn (List α) :=
  let page := request offset
  loadPages request limit upTo fuel offset page page

end Paging

def loadGroupMembersWithPagination (answer : ℕ → ℕ → Option (List String)) (fuel offset upTo : ℕ) :
    Except Exn (List IGroupMember) :=
  loadWithPagination (fun offset => getMembersForGroup (answer 100 offset) offset) 100 upTo fuel offset

def loadRemovedGroupMembersWithPagination (answer : ℕ → ℕ → Option (List ℤ))
    (fuel offset upTo : ℕ) : Except Exn (List ℤ) :=
  loadWithPagination (fun offset => getRemovedMembersForGroup (answer 100 offset)) 100 upTo fuel offset

/-! ## One run -/

section

variable (poseidon : List ℤ → ℤ) (config : IZKServerConfig) (answers : InterRepAnswers) (fuel : ℕ)

/-- Group doesn't exist, load all members for that group. -/
def addGroup (place : ℕ) (g : IInterRepGroupV2) (tree_root_changed : Bool) :
    Prog Store Exn Bool := do
  let groupMembers ← Prog.ofExcept
    (loadGroupMembersWithPagination (answers.members place) fuel 0 g.numberOfLeaves)
  .tryCatch
    (do
      let _ ← onDb (appendUsers poseidon config groupMembers g.g_id)
      saveGroup
        { group_id := g.g_id, provider := g.provider, name := g.name, size := g.size
          number_of_leaves := g.numberOfLeaves }
      pure true)
    fun _ => pure tree_root_changed

/-- Load new members only if there are more leaves than are stored locally. -/
def addMembers (place : ℕ) (g : IInterRepGroupV2) (groupInDb : IGroup) (tree_root_changed : Bool) :
    Prog Store Exn Bool :=
  if groupInDb.number_of_leaves < g.numberOfLeaves then do
    let groupMembers ← Prog.ofExcept (loadGroupMembersWithPagination (answers.members place) fuel
      groupInDb.number_of_leaves g.numberOfLeaves)
    .tryCatch
      (do
        let _ ← onDb (appendUsers poseidon config groupMembers g.g_id)
        updateNumberOfLeaves g.g_id g.numberOfLeaves
        pure true)
      fun _ => pure tree_root_changed
  else pure tree_root_changed

/-- Delete the members that were removed. -/
def removeMembers (place : ℕ) (g : IInterRepGroupV2) (groupInDb : IGroup)
    (tree_root_changed : Bool) : Prog Store Exn Bool :=
  if g.size ≠ groupInDb.size then do
    let indexesOfRemovedMembers ← Prog.ofExcept
      (loadRemovedGroupMembersWithPagination (answers.removedMembers place) fuel 0 g.size)
    .tryCatch
      (do
        let _ ← onDb
          (removeUsersByIndexes poseidon config indexesOfRemovedMembers groupInDb.group_id)
        updateSize g.g_id g.size
        pure true)
      fun _ => pure tree_root_changed
  else pure tree_root_changed

/-- The stored group of a remote one. -/
def findGroup (groupsInDb : List IGroup) (g : IInterRepGroupV2) : Option IGroup :=
  groupsInDb.find? fun x => x.group_id = g.g_id ∧ x.name = g.name ∧ x.provider = g.provider

/-- The body of the loop over the groups. -/
def syncGroup (groupsInDb : List IGroup) (place : ℕ) (g : IInterRepGroupV2)
    (tree_root_changed : Bool) : Prog Store Exn Bool :=
  match findGroup groupsInDb g with
  | none => addGroup poseidon config answers fuel place g tree_root_changed
  | some groupInDb => do
      let tree_root_changed ←
        addMembers poseidon config answers fuel place g groupInDb tree_root_changed
      removeMembers poseidon config answers fuel place g groupInDb tree_root_changed

def syncGroups (groupsInDb : List IGroup) :
    ℕ → List IInterRepGroupV2 → Bool → Prog Store Exn Bool
  | _, [], tree_root_changed => pure tree_root_changed
  | place, g :: gs, tree_root_changed => do
      let tree_root_changed ←
        syncGroup poseidon config answers fuel groupsInDb place g tree_root_changed
      syncGroups groupsInDb (place + 1) gs tree_root_changed

def syncCommitmentsFromInterRep : Prog Store Exn Unit := do
  let allGroupsOnNet := getAllGroups answers.groups
  let groupsInDb ← getGroups
  let tree_root_changed ←
    syncGroups poseidon config answers fuel groupsInDb 0 allGroupsOnNet false
  if tree_root_changed then onDb (publish (.event "TREE_UPDATE")) else pure ()

end

/-! ## What a load returns -/

section Load

variable {α : Type} {request : ℕ → List α} {limit upTo : ℕ}

/-- Where every page is long enough for another request, the requests never end. -/
theorem loadPages_of_forall {offset : ℕ}
    (h : ∀ o, offset ≤ o → (request o).length + limit ≤ upTo) (fuel : ℕ) (loaded : List α) :
    loadPages request limit upTo fuel offset (request offset) loaded = .error .cutOff := by
  induction fuel generalizing offset loaded with
  | zero =>
      unfold loadPages
      rw [if_pos (h offset le_rfl)]
  | succ fuel ih =>
      unfold loadPages
      rw [if_pos (h offset le_rfl)]
      exact ih (fun o ho => h o (by omega)) _

/-- Later pages are no longer than the first. If that is long enough for a second request, so are all
    of them: a load returns the first page or never returns. -/
theorem loadWithPagination_eq (hlater : ∀ o o', o ≤ o' → (request o').length ≤ (request o).length)
    (fuel offset : ℕ) :
    loadWithPagination request limit upTo fuel offset
      = if (request offset).length + limit ≤ upTo then .error .cutOff else .ok (request offset) := by
  unfold loadWithPagination
  split
  · next hmore =>
      refine loadPages_of_forall (fun o ho => ?_) fuel _
      have := hlater offset o ho
      omega
  · next hstop =>
      unfold loadPages
      exact if_neg hstop

end Load

/-! ## Served pages -/

/-- The page of a list that a request with this limit and offset is answered with. -/
def served {α : Type} (list : List α) (limit offset : ℕ) : Option (List α) :=
  some ((list.drop offset).take limit)

section Served

variable {fuel offset upTo : ℕ}

theorem loadGroupMembersWithPagination_served (members : List String) :
    loadGroupMembersWithPagination (served members) fuel offset upTo
      = if min 100 (members.length - offset) + 100 ≤ upTo then .error .cutOff
        else .ok (SemaphoreFunctions.indexed offset ((members.drop offset).take 100)) := by
  unfold loadGroupMembersWithPagination
  rw [loadWithPagination_eq]
  · simp [getMembersForGroup, served]
  · intro o o' ho
    simp only [getMembersForGroup, served, length_indexed, List.length_take, List.length_drop]
    omega

theorem loadRemovedGroupMembersWithPagination_served (removed : List ℤ) :
    loadRemovedGroupMembersWithPagination (served removed) fuel offset upTo
      = if min 100 (removed.length - offset) + 100 ≤ upTo then .error .cutOff
        else .ok ((removed.drop offset).take 100) := by
  unfold loadRemovedGroupMembersWithPagination
  rw [loadWithPagination_eq]
  · simp [getRemovedMembersForGroup, served]
  · intro o o' ho
    simp only [getRemovedMembersForGroup, served, Option.getD_some, List.length_take,
      List.length_drop]
    omega

/-- The members from an offset on are all loaded exactly when one page holds them and the offset
    itself is on the first page of the group. -/
theorem loadGroupMembers_iff {members : List String} (hoffset : offset ≤ members.length) :
    (∃ fuel, loadGroupMembersWithPagination (served members) fuel offset members.length
        = .ok (SemaphoreFunctions.indexed offset (members.drop offset))) ↔
      members.length ≤ offset + 100 ∧ offset < 100 := by
  simp only [loadGroupMembersWithPagination_served, exists_const]
  split
  · next hmore =>
      simp only [reduceCtorEq, false_iff, not_and, not_lt]
      omega
  · next hstop =>
      rw [Except.ok.injEq]
      constructor
      · intro h
        have hlen := congrArg List.length h
        simp only [length_indexed, List.length_take, List.length_drop] at hlen
        omega
      · rintro ⟨hpage, -⟩
        rw [List.take_of_length_le (by rw [List.length_drop]; omega)]

theorem loadRemovedGroupMembers_iff (removed : List ℤ) (upTo : ℕ) :
    (∃ fuel, loadRemovedGroupMembersWithPagination (served removed) fuel 0 upTo = .ok removed) ↔
      removed.length ≤ 100 ∧ upTo < removed.length + 100 := by
  simp only [loadRemovedGroupMembersWithPagination_served, exists_const, List.drop_zero,
    Nat.sub_zero]
  split
  · next hmore =>
      simp only [reduceCtorEq, false_iff, not_and, not_lt]
      omega
  · next hstop =>
      rw [Except.ok.injEq, List.take_eq_self_iff]
      omega

end Served

/-- Loading ends with exactly the rest of the members when the group ends within one page of the
    offset and the offset is below one page; loading the removed members does when they fill one page
    at most and the bound is less than a page more than their number. -/
theorem paging_exact_iff (members : List String) (offset : ℕ) (removed : List ℤ) (upTo : ℕ) :
    (offset ≤ members.length →
      ((∃ fuel, loadGroupMembersWithPagination (served members) fuel offset members.length
          = .ok (SemaphoreFunctions.indexed offset (members.drop offset))) ↔
        members.length ≤ offset + 100 ∧ offset < 100)) ∧
    ((∃ fuel, loadRemovedGroupMembersWithPagination (served removed) fuel 0 upTo = .ok removed) ↔
      removed.length ≤ 100 ∧ upTo < removed.length + 100) :=
  ⟨loadGroupMembers_iff, loadRemovedGroupMembers_iff removed upTo⟩

/-- The members of a group of two full pages are requested for ever. -/
theorem second_page_is_never_exact :
    ¬ ((∀ (members : List String) (offset : ℕ), offset ≤ members.length →
        ∃ fuel, loadGroupMembersWithPagination (served members) fuel offset members.length
          = .ok (SemaphoreFunctions.indexed offset (members.drop offset))) ∧
      ∀ (removed : List ℤ) (upTo : ℕ),
        ∃ fuel, loadRemovedGroupMembersWithPagination (served removed) fuel 0 upTo = .ok removed) := by
  rintro ⟨hmembers, -⟩
  have hload := hmembers (List.replicate 200 "5") 0 (Nat.zero_le _)
  rw [loadGroupMembers_iff (Nat.zero_le _), List.length_replicate] at hload
  omega

/-- Three members after the first two, and one removed member of a group of five. -/
theorem paging_exact_of_one_page :
    (∃ fuel, loadGroupMembersWithPagination (served ["5", "6", "7", "8", "9"]) fuel 2 5
      = .ok [⟨2, "7"⟩, ⟨3, "8"⟩, ⟨4, "9"⟩]) ∧
    ∃ fuel, loadRemovedGroupMembersWithPagination (served [3]) fuel 0 5 = .ok [3] :=
  have h := paging_exact_iff ["5", "6", "7", "8", "9"] 2 [3] 5
  ⟨(h.1 (by decide)).mpr (by decide), h.2.mpr (by decide)⟩

end InterRepSynchronizer

end ZkChat
