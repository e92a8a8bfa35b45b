import Mathlib.Logic.Basic
import Mathlib.Tactic.Common

set_option autoImplicit false

/-! # Maps without repeated values

A map gives each key at most one value; here no two keys have the same value either. An insertion
needs a key and a value that are both free, and an update is a deletion and an insertion that
happen together. -/

namespace ZkChat

/-- A partial map in which every value stands under one key. -/
structure UniqueMap (α β : Type*) where
  get : α → Option β
  unique : ∀ a a' b, get a = some b → get a' = some b → a = a'

namespace UniqueMap

variable {α β : Type*} [DecidableEq α] {m : UniqueMap α β} {a a' : α} {b : β}

/-- The map without entries. -/
def empty : UniqueMap α β := ⟨fun _ => none, fun _ _ _ h => by cases h⟩

/-- Neither the key nor the value is taken. -/
def Free (m : UniqueMap α β) (a : α) (b : β) : Prop := m.get a = none ∧ ∀ c, m.get c ≠ some b

/-- The map with a new entry. -/
def insertFree (m : UniqueMap α β) (a : α) (b : β) (h : m.Free a b) : UniqueMap α β where
  get c := if c = a then some b else m.get c
  unique c c' b' hc hc' := by
    by_cases hca : c = a <;> by_cases hca' : c' = a
    · rw [hca, hca']
    · rw [if_pos hca, Option.some_inj] at hc
      rw [if_neg hca', ← hc] at hc'
      exact absurd hc' (h.2 c')
    · rw [if_pos hca', Option.some_inj] at hc'
      rw [if_neg hca, ← hc'] at hc
      exact absurd hc (h.2 c)
    · rw [if_neg hca] at hc
      rw [if_neg hca'] at hc'
      exact m.unique c c' b' hc hc'

/-- The map without a key. -/
def erase (m : UniqueMap α β) (a : α) : UniqueMap α β where
  get c := if c = a then none else m.get c
  unique c c' b' hc hc' :=
    m.unique c c' b' (Option.ite_none_left_eq_some.mp hc).2 (Option.ite_none_left_eq_some.mp hc').2

open Classical in
/-- Succeeds when no entry has that key or value. -/
noncomputable def insert (m : UniqueMap α β) (a : α) (b : β) : Option (UniqueMap α β) :=
  if h : m.Free a b then some (m.insertFree a b h) else none

/-- Succeeds when the key exists. -/
def delete (m : UniqueMap α β) (a : α) : Option (UniqueMap α β) :=
  if m.get a = none then none else some (m.erase a)

/-- The entry of `a` becomes the entry `(a', b)`. -/
noncomputable def update (m : UniqueMap α β) (a a' : α) (b : β) : Option (UniqueMap α β) :=
  (m.delete a).bind fun m => m.insert a' b

theorem get_erase (m : UniqueMap α β) (a c : α) :
    (m.erase a).get c = if c = a then none else m.get c := rfl

theorem get_insertFree (h : m.Free a b) (c : α) :
    (m.insertFree a b h).get c = if c = a then some b else m.get c := rfl

theorem insert_of_free (h : m.Free a b) : m.insert a b = some (m.insertFree a b h) := dif_pos h

theorem insert_eq_none_iff : m.insert a b = none ↔ ¬ m.Free a b := by
  unfold insert
  split
  · next h => simp [h]
  · next h => simp [h]

theorem delete_of_ne_none (h : m.get a ≠ none) : m.delete a = some (m.erase a) := if_neg h

theorem delete_eq_none_iff : m.delete a = none ↔ m.get a = none := by
  unfold delete
  split
  · next h => simp [h]
  · next h => simp [h]

/-- Without its own entry, the new key and value have to be free. -/
theorem free_erase : (m.erase a).Free a' b ↔
    (a' = a ∨ m.get a' = none) ∧ ∀ c, c ≠ a → m.get c ≠ some b := by
  unfold Free
  simp only [get_erase, ite_eq_left_iff]
  refine and_congr ?_ ⟨fun h c hc => ?_, fun h c => ?_⟩
  · tauto
  · have := h c
    rwa [if_neg hc] at this
  · by_cases hc : c = a
    · simp [hc]
    · rw [if_neg hc]
      exact h c hc

/-- An update succeeds when the key exists and no other entry has the new key or the value. -/
theorem update_eq_none_iff : m.update a a' b = none ↔
    m.get a = none ∨ ¬ ((a' = a ∨ m.get a' = none) ∧ ∀ c, c ≠ a → m.get c ≠ some b) := by
  by_cases h : m.get a = none
  · rw [update, delete_eq_none_iff.mpr h]
    simp [h]
  · rw [update, delete_of_ne_none h, Option.bind_some, insert_eq_none_iff, free_erase]
    simp [h]

theorem update_of_free (h : m.get a ≠ none) (hfree : (m.erase a).Free a' b) :
    m.update a a' b = some ((m.erase a).insertFree a' b hfree) := by
  rw [update, delete_of_ne_none h, Option.bind_some, insert_of_free hfree]

end UniqueMap

end ZkChat
