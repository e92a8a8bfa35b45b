import Mathlib.Data.Nat.Basic
import Mathlib.Logic.Function.Basic
import Mathlib.Tactic.Common
import Mathlib.Tactic.Ring

set_option autoImplicit false

/-! # Complete binary hash trees

The node at level `l` and index `i` of the complete tree over a leaf sequence, for any hash of two
arguments and leaves of any type: node `(l + 1, i)` is the hash of the nodes `(l, 2 * i)` and
`(l, 2 * i + 1)`. The results are the ones a tree that is kept node by node needs: which nodes a
leaf influences, what an empty subtree hashes to, and how a node follows from one child and that
child's sibling. -/

namespace ZkChat.HashTree

variable {α : Type*} (H : α → α → α)

/-- The node at level `l`, index `i` over the leaves `leaf`. -/
def subtree (leaf : ℕ → α) : ℕ → ℕ → α
  | 0, i => leaf i
  | l + 1, i => H (subtree leaf l (2 * i)) (subtree leaf l (2 * i + 1))

/-- The root of the tree of the given depth. -/
def root (leaf : ℕ → α) (depth : ℕ) : α := subtree H leaf depth 0

/-- The node at level `l` when all leaves below it are `z`. -/
def zeroHash (z : α) : ℕ → α
  | 0 => z
  | l + 1 => H (zeroHash z l) (zeroHash z l)

/-- The index of the other child of a node's parent. -/
def siblingIndex (i : ℕ) : ℕ := if i % 2 = 0 then i + 1 else i - 1

variable {H}

@[simp] theorem subtree_zero (leaf : ℕ → α) (i : ℕ) : subtree H leaf 0 i = leaf i := rfl

theorem subtree_succ (leaf : ℕ → α) (l i : ℕ) :
    subtree H leaf (l + 1) i = H (subtree H leaf l (2 * i)) (subtree H leaf l (2 * i + 1)) := rfl

/-- A node depends on the `2 ^ l` leaves below it and on no other. -/
theorem subtree_congr {leaf leaf' : ℕ → α} {l i : ℕ} (h : ∀ j, j / 2 ^ l = i → leaf j = leaf' j) :
    subtree H leaf l i = subtree H leaf' l i := by
  induction l generalizing i with
  | zero => exact h i (by simp)
  | succ l ih =>
      have below : ∀ j k, j / 2 ^ l = k → k / 2 = i → leaf j = leaf' j := by
        intro j k hj hk
        refine h j ?_
        rw [pow_succ, ← Nat.div_div_eq_div_mul, hj, hk]
      rw [subtree_succ, subtree_succ, ih (fun j hj => below j _ hj (by omega)),
        ih (fun j hj => below j _ hj (by omega))]

/-- Changing a leaf changes, at each level, only the node above it. -/
theorem subtree_update_of_ne {leaf : ℕ → α} {j : ℕ} {v : α} {l i : ℕ} (h : i ≠ j / 2 ^ l) :
    subtree H (Function.update leaf j v) l i = subtree H leaf l i := by
  refine subtree_congr fun k hk => ?_
  rw [Function.update_of_ne]
  rintro rfl
  exact h hk.symm

/-- An empty subtree has the zero hash of its level. -/
theorem subtree_eq_zeroHash {leaf : ℕ → α} {z : α} {l i : ℕ} (h : ∀ j, i ≤ j / 2 ^ l → leaf j = z) :
    subtree H leaf l i = zeroHash H z l := by
  induction l generalizing i with
  | zero => exact h i (by simp)
  | succ l ih =>
      have above : ∀ k, 2 * i ≤ k → ∀ j, k ≤ j / 2 ^ l → leaf j = z := by
        intro k hk j hj
        refine h j ?_
        rw [pow_succ, ← Nat.div_div_eq_div_mul]
        omega
      rw [subtree_succ, ih (above _ le_rfl), ih (above _ (by omega)), zeroHash]

/-- A left child with its sibling gives the parent. -/
theorem subtree_parent_of_even {leaf : ℕ → α} {l i : ℕ} (h : i % 2 = 0) :
    subtree H leaf (l + 1) (i / 2)
      = H (subtree H leaf l i) (subtree H leaf l (siblingIndex i)) := by
  rw [subtree_succ, siblingIndex, if_pos h, show 2 * (i / 2) = i by omega]

/-- A right child with its sibling gives the parent. -/
theorem subtree_parent_of_odd {leaf : ℕ → α} {l i : ℕ} (h : i % 2 ≠ 0) :
    subtree H leaf (l + 1) (i / 2)
      = H (subtree H leaf l (siblingIndex i)) (subtree H leaf l i) := by
  rw [subtree_succ, siblingIndex, if_neg h, show 2 * (i / 2) = i - 1 by omega,
    show i - 1 + 1 = i by omega]

theorem siblingIndex_ne (i : ℕ) : siblingIndex i ≠ i := by
  unfold siblingIndex
  split <;> omega

theorem siblingIndex_siblingIndex (i : ℕ) : siblingIndex (siblingIndex i) = i := by
  unfold siblingIndex
  split <;> split <;> omega

/-- Off the path of a changed leaf the sibling's value is the old one. -/
theorem subtree_update_sibling {leaf : ℕ → α} {j : ℕ} {v : α} {l : ℕ} :
    subtree H (Function.update leaf j v) l (siblingIndex (j / 2 ^ l))
      = subtree H leaf l (siblingIndex (j / 2 ^ l)) :=
  subtree_update_of_ne (siblingIndex_ne _)

/-! ## Paths -/

section

variable (H)

/-- Hashing a value with siblings, from its own level upwards. An index says on which side of its
    sibling the value is, 0 for the left. -/
def climbPath : α → List ℕ → List α → α
  | v, b :: bs, s :: ss => climbPath (if b = 0 then H v s else H s v) bs ss
  | v, _, _ => v

/-- The sides on the way up from the node with index `i`, for `n` levels. -/
def pathIndices : ℕ → ℕ → List ℕ
  | 0, _ => []
  | n + 1, i => i % 2 :: pathIndices n (i / 2)

/-- The siblings on the way up from the node at level `l`, index `i`, for `n` levels. -/
def siblings (leaf : ℕ → α) : ℕ → ℕ → ℕ → List α
  | 0, _, _ => []
  | n + 1, l, i => subtree H leaf l (siblingIndex i) :: siblings leaf n (l + 1) (i / 2)

end

@[simp] theorem length_siblings (leaf : ℕ → α) (n l i : ℕ) :
    (siblings H leaf n l i).length = n := by
  induction n generalizing l i with
  | zero => rfl
  | succ n ih => simp [siblings, ih]

/-- One step up with the right sibling. -/
theorem subtree_parent (leaf : ℕ → α) (l i : ℕ) :
    subtree H leaf (l + 1) (i / 2)
      = if i % 2 = 0 then H (subtree H leaf l i) (subtree H leaf l (siblingIndex i))
        else H (subtree H leaf l (siblingIndex i)) (subtree H leaf l i) := by
  split
  · next h => exact subtree_parent_of_even h
  · next h => exact subtree_parent_of_odd h

/-- A node climbs to the node that is `n` levels above it. -/
theorem climbPath_siblings (leaf : ℕ → α) (n l i : ℕ) :
    climbPath H (subtree H leaf l i) (pathIndices n i) (siblings H leaf n l i)
      = subtree H leaf (l + n) (i / 2 ^ n) := by
  induction n generalizing l i with
  | zero => simp [siblings, pathIndices, climbPath]
  | succ n ih =>
      rw [siblings, pathIndices, climbPath, ← subtree_parent, ih, Nat.div_div_eq_div_mul,
        ← pow_succ', Nat.add_right_comm, Nat.add_assoc]

/-- Nothing else does, whoever has chosen the siblings. -/
theorem eq_of_climbPath (hH : Function.Injective2 H) {leaf : ℕ → α} {v : α} {ss : List α} {l i : ℕ}
    (h : climbPath H v (pathIndices ss.length i) ss
      = subtree H leaf (l + ss.length) (i / 2 ^ ss.length)) :
    v = subtree H leaf l i ∧ ss = siblings H leaf ss.length l i := by
  induction ss generalizing v l i with
  | nil => simpa [siblings, pathIndices, climbPath] using h
  | cons s ss ih =>
      rw [List.length_cons, pathIndices, climbPath, pow_succ', ← Nat.div_div_eq_div_mul,
        show l + (ss.length + 1) = l + 1 + ss.length by omega] at h
      obtain ⟨hv, hss⟩ := ih h
      rw [subtree_parent] at hv
      -- the sides are the same, so the hash tells the value from the sibling
      split at hv
      · obtain ⟨rfl, rfl⟩ := hH hv
        exact ⟨rfl, congrArg _ hss⟩
      · obtain ⟨rfl, rfl⟩ := hH hv
        exact ⟨rfl, congrArg _ hss⟩

/-- With an injective hash, a node determines the leaves below it. -/
theorem subtree_eq_iff (hH : Function.Injective2 H) {leaf leaf' : ℕ → α} {l i : ℕ} :
    subtree H leaf l i = subtree H leaf' l i ↔ ∀ j, j / 2 ^ l = i → leaf j = leaf' j := by
  refine ⟨fun h => ?_, subtree_congr⟩
  induction l generalizing i with
  | zero =>
      intro j hj
      rw [pow_zero, Nat.div_one] at hj
      exact hj ▸ h
  | succ l ih =>
      intro j hj
      obtain ⟨hleft, hright⟩ := hH h
      rw [pow_succ, ← Nat.div_div_eq_div_mul] at hj
      rcases Nat.mod_two_eq_zero_or_one (j / 2 ^ l) with heven | hodd
      · exact ih hleft j (by omega)
      · exact ih hright j (by omega)

end ZkChat.HashTree
