import Mathlib.Data.List.Basic
import Mathlib.Tactic.Common

set_option autoImplicit false

/-! # Keeping the tree up to date

`checkRootUpToDate` asks the server for the root and then for the leaves, and declares both up to
date when it has the answers. What arrives in between is forgotten: a `TREE_UPDATE` that comes after
the leaves were read only sets a flag that the call is about to clear. -/

namespace ZkChat

/-- What the server answers about its tree. -/
structure RlnTree where
  root : String
  leaves : List String
deriving DecidableEq

/-- A call of `checkRootUpToDate`, at the await at which it stands. -/
inductive CheckRoot where
  | getRlnRoot
  | getLeaves (new_rln_root : Option String)
  /-- Both answers are there. -/
  | update (new_rln_root : Option String) (new_leaves : List String)
deriving DecidableEq

structure RootState where
  /-- The earlier trees of the server. -/
  past : List RlnTree
  now : RlnTree
  /-- The position of the last tree whose `TREE_UPDATE` has arrived. -/
  received : ℕ
  root_hash : Option String
  leaves : List String
  root_up_to_date : Bool
  calls : List CheckRoot

namespace RootState

/-- The trees of the server, in order. -/
def history (s : RootState) : List RlnTree := s.past ++ [s.now]

/-! ## `ChatManager` -/

def setRootObsolete (s : RootState) : RootState := { s with root_up_to_date := false }

def isRootObsolete (s : RootState) : Bool := !s.root_up_to_date

/-- The call up to its first await. -/
def checkRootUpToDate (s : RootState) : RootState :=
  if s.isRootObsolete then { s with calls := s.calls ++ [.getRlnRoot] } else s

/-- A request that fails is answered with `null`. -/
def getRlnRoot (s : RootState) (answered : Bool) : Option String :=
  if answered then some s.now.root else none

/-- A request that fails is answered with the empty list. -/
def getLeaves (s : RootState) (answered : Bool) : List String :=
  if answered then s.now.leaves else []

/-- What the `i`-th call does next: one of its requests is answered, or it goes on after the second
    answer. -/
def proceed (s : RootState) (i : ℕ) (answered : Bool) : RootState :=
  match s.calls[i]? with
  | none => s
  | some .getRlnRoot => { s with calls := s.calls.set i (.getLeaves (s.getRlnRoot answered)) }
  | some (.getLeaves new_rln_root) =>
      { s with calls := s.calls.set i (.update new_rln_root (s.getLeaves answered)) }
  | some (.update new_rln_root new_leaves) =>
      { s with root_hash := new_rln_root, leaves := new_leaves, root_up_to_date := true
               calls := s.calls.eraseIdx i }

end RootState

/-! ## Runs -/

inductive RootEvent where
  | treeChange (tree : RlnTree)
  /-- The `TREE_UPDATE` of the tree at this position arrives. -/
  | treeUpdate (position : ℕ)
  /-- By `recover_profile`. -/
  | setRootObsolete
  | checkRootUpToDate
  | proceed (i : ℕ) (answered : Bool)

def RootState.on (s : RootState) : RootEvent → RootState
  | .treeChange tree => { s with past := s.history, now := tree }
  | .treeUpdate position =>
      if position < s.history.length then
        { s with received := max s.received position }.setRootObsolete
      else s
  | .setRootObsolete => s.setRootObsolete
  | .checkRootUpToDate => s.checkRootUpToDate
  | .proceed i answered => s.proceed i answered

/-- A client whose profile has the tree of the server. -/
def RootState.initial (tree : RlnTree) : RootState where
  past := []
  now := tree
  received := 0
  root_hash := some tree.root
  leaves := tree.leaves
  root_up_to_date := true
  calls := []

inductive RootRun (ok : RootState → RootEvent → Prop) : RootState → Prop
  | initial (tree : RlnTree) : RootRun ok (.initial tree)
  | event {s : RootState} (e : RootEvent) (h : RootRun ok s) (hok : ok s e) : RootRun ok (s.on e)

namespace RootState

/-- The leaves of the server at some moment that is not before the tree at this position. -/
def LeavesSince (s : RootState) (position : ℕ) (leaves : List String) : Prop :=
  ∃ tree ∈ s.history.drop position, tree.leaves = leaves

/-- No tree update is missed. -/
def UpToDate (s : RootState) : Prop :=
  s.calls = [] → s.isRootObsolete = false → s.LeavesSince s.received s.leaves

/-- No request for leaves fails, and no `TREE_UPDATE` finds a call that has leaves from before the
    change and has not gone on. -/
def Careful (s : RootState) : RootEvent → Prop
  | .treeUpdate position => ∀ new_rln_root new_leaves,
      .update new_rln_root new_leaves ∈ s.calls → s.LeavesSince position new_leaves
  | .proceed i answered => ∀ new_rln_root,
      s.calls[i]? = some (.getLeaves new_rln_root) → answered = true
  | _ => True

/-- What careful runs keep: the leaves of the profile, while the flag is set, and those of the calls
    are not older than the last `TREE_UPDATE`. -/
structure Inv (s : RootState) : Prop where
  received : s.received < s.history.length
  profile : s.isRootObsolete = false → s.LeavesSince s.received s.leaves
  calls : ∀ new_rln_root new_leaves, .update new_rln_root new_leaves ∈ s.calls →
    s.LeavesSince s.received new_leaves

section

variable {s : RootState} {position position' : ℕ} {leaves : List String}

/-! ## One event -/

theorem leavesSince_now (h : position < s.history.length) :
    s.LeavesSince position s.now.leaves := by
  have hpast : position ≤ s.past.length := by simpa [history, Nat.lt_succ_iff] using h
  refine ⟨s.now, ?_, rfl⟩
  simp [history, List.drop_append_of_le_length hpast]

theorem LeavesSince.max (h : s.LeavesSince position leaves) (h' : s.LeavesSince position' leaves) :
    s.LeavesSince (max position position') leaves := by
  by_cases hle : position ≤ position'
  · rwa [Nat.max_eq_right hle]
  · rwa [Nat.max_eq_left (by omega)]

theorem LeavesSince.treeChange (h : s.LeavesSince position leaves) (tree : RlnTree) :
    (s.on (.treeChange tree)).LeavesSince position leaves := by
  obtain ⟨old, hold, hleaves⟩ := h
  refine ⟨old, ?_, hleaves⟩
  show old ∈ (s.history ++ [tree]).drop position
  rw [List.drop_append]
  exact List.mem_append_left _ hold

theorem Inv.treeChange (h : s.Inv) (tree : RlnTree) : (s.on (.treeChange tree)).Inv where
  received := by
    have hreceived : s.received < s.history.length := h.received
    show s.received < (s.history ++ [tree]).length
    rw [List.length_append]
    omega
  profile hflag := (h.profile hflag).treeChange tree
  calls root leaves hmem := (h.calls root leaves hmem).treeChange tree

theorem Inv.setRootObsolete (h : s.Inv) : s.setRootObsolete.Inv where
  received := h.received
  profile hflag := by cases hflag
  calls := h.calls

theorem Inv.treeUpdate (h : s.Inv) (hcareful : s.Careful (.treeUpdate position)) :
    (s.on (.treeUpdate position)).Inv := by
  simp only [on]
  by_cases hposition : position < s.history.length
  · rw [if_pos hposition]
    exact
      { received := Nat.max_lt.mpr ⟨h.received, hposition⟩
        profile := fun hflag => by cases hflag
        calls := fun root leaves hmem =>
          (h.calls root leaves hmem).max (hcareful root leaves hmem) }
  · rwa [if_neg hposition]

theorem Inv.checkRootUpToDate (h : s.Inv) : s.checkRootUpToDate.Inv := by
  unfold RootState.checkRootUpToDate
  by_cases hflag : s.isRootObsolete = true
  · rw [if_pos hflag]
    refine ⟨h.received, h.profile, fun root leaves hmem => ?_⟩
    rcases List.mem_append.mp hmem with hmem | hmem
    · exact h.calls root leaves hmem
    · simp at hmem
  · rwa [if_neg hflag]

theorem Inv.proceed (h : s.Inv) {i : ℕ} {answered : Bool}
    (hcareful : s.Careful (.proceed i answered)) : (s.proceed i answered).Inv := by
  unfold RootState.proceed
  cases hcall : s.calls[i]? with
  | none => exact h
  | some call =>
  cases call with
  | getRlnRoot =>
      refine ⟨h.received, h.profile, fun root leaves hmem => ?_⟩
      rcases List.mem_or_eq_of_mem_set hmem with hmem | hmem
      · exact h.calls root leaves hmem
      · cases hmem
  | getLeaves new_rln_root =>
      refine ⟨h.received, h.profile, fun root leaves hmem => ?_⟩
      rcases List.mem_or_eq_of_mem_set hmem with hmem | hmem
      · exact h.calls root leaves hmem
      · -- what has just been answered is the tree of now
        cases hmem
        rw [hcareful new_rln_root hcall]
        exact leavesSince_now h.received
  | update new_rln_root new_leaves =>
      -- the call sets the flag, whatever has happened since its answers: its leaves must be recent
      have hmem : CheckRoot.update new_rln_root new_leaves ∈ s.calls := List.mem_of_getElem? hcall
      exact
        { received := h.received
          profile := fun _ => h.calls _ _ hmem
          calls := fun root leaves hmem => h.calls root leaves (List.mem_of_mem_eraseIdx hmem) }

theorem Inv.on (h : s.Inv) {e : RootEvent} (hcareful : s.Careful e) : (s.on e).Inv := by
  cases e with
  | treeChange tree => exact h.treeChange tree
  | treeUpdate position => exact h.treeUpdate hcareful
  | setRootObsolete => exact h.setRootObsolete
  | checkRootUpToDate => exact h.checkRootUpToDate
  | proceed i answered => exact h.proceed hcareful

theorem inv_initial (tree : RlnTree) : (initial tree).Inv where
  received := Nat.one_pos
  profile _ := leavesSince_now Nat.one_pos
  calls _ _ hmem := by cases hmem

/-! ## All events -/

/-- In a careful run no tree update is missed. -/
theorem upToDate_of_careful (h : RootRun Careful s) : s.UpToDate := by
  suffices hinv : s.Inv from fun _ hflag => hinv.profile hflag
  induction h with
  | initial tree => exact inv_initial tree
  | event e _ hcareful ih => exact ih.on hcareful

/-! ## An update between answer and use -/

instance : Decidable (s.LeavesSince position leaves) :=
  inferInstanceAs (Decidable (∃ tree ∈ s.history.drop position, tree.leaves = leaves))

instance : Decidable s.UpToDate :=
  inferInstanceAs (Decidable (s.calls = [] → s.isRootObsolete = false → _))

theorem run_events {ok : RootState → RootEvent → Prop} (hok : ∀ s e, ok s e) (h : RootRun ok s)
    (events : List RootEvent) : RootRun ok (events.foldl on s) := by
  induction events generalizing s with
  | nil => exact h
  | cons e events ih => exact ih (h.event e (hok s e))

end

namespace Demo

def tree (n : ℕ) : RlnTree := ⟨toString n, [toString n]⟩

/-- A change with its `TREE_UPDATE`, and a call that has both answers. -/
def answered : List RootEvent :=
  [.treeChange (tree 1), .treeUpdate 1, .checkRootUpToDate, .proceed 0 true, .proceed 0 true]

end Demo

/-- The `TREE_UPDATE` of a second change arrives before the call goes on. -/
theorem second_update_missed : ¬ ∀ s, RootRun (fun _ _ => True) s → s.UpToDate := by
  intro h
  have hrun := h _ (run_events (fun _ _ => trivial) (.initial (Demo.tree 0))
    (Demo.answered ++ [.treeChange (Demo.tree 2), .treeUpdate 2, .proceed 0 true]))
  exact absurd hrun (by decide)

/-- With a request that fails the profile has no leaves, and the flag is set as well. -/
example : ¬ (List.foldl on (initial (Demo.tree 0)) [.treeUpdate 0, .checkRootUpToDate,
    .proceed 0 true, .proceed 0 false, .proceed 0 true]).UpToDate := by
  decide

/-- The call goes on before anything else happens. -/
theorem first_update_followed :
    (List.foldl on (initial (Demo.tree 0)) (Demo.answered ++ [.proceed 0 true])).UpToDate := by
  have hstart : RootRun Careful (initial (Demo.tree 0)) := .initial (Demo.tree 0)
  have hchange := hstart.event (.treeChange (Demo.tree 1)) trivial
  have hcall := (hchange.event (.treeUpdate 1) fun _ _ hmem => by cases hmem).event
    .checkRootUpToDate trivial
  have hroot := hcall.event (.proceed 0 true) fun _ _ => rfl
  have hleaves := hroot.event (.proceed 0 true) fun _ _ => rfl
  exact upToDate_of_careful (hleaves.event (.proceed 0 true) fun _ _ => rfl)

end RootState

end ZkChat
