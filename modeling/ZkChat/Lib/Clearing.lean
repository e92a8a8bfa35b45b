import Mathlib.Data.List.Nodup
import Mathlib.Data.Nat.Basic
import Mathlib.Logic.Function.Basic
import ZkChat.Lib.Collection

set_option autoImplicit false

/-! # Clearing rows that are found by their values

The rows of a table have keys and values. `clearKey` clears the row of a key in two look-ups: it
finds the row by the key, and then clears the first row with the same value. Where values repeat,
this can be another row. What a list of keys clears is still easy to say: of each value the first
few rows, as many as `climb` counts (`foldl_clearKey`). So exactly the listed rows are cleared when
the listed rows of each value are the first ones with it and the list goes through them in order,
give or take repetitions (`foldl_clearKey_eq_iff`). -/

namespace ZkChat

/-! ## Climbing a list of ranks -/

/-- From `c` on, one step up at each rank that is not below. -/
def climb : ℕ → List ℕ → ℕ
  | c, [] => c
  | c, rank :: ranks => climb (if c ≤ rank then c + 1 else c) ranks

namespace Climb

theorem mono {c c' : ℕ} (h : c ≤ c') (ranks : List ℕ) : climb c ranks ≤ climb c' ranks := by
  induction ranks generalizing c c' with
  | nil => exact h
  | cons rank ranks ih =>
      refine ih ?_
      split <;> split <;> omega

theorem le_of_forall_lt {c k : ℕ} {ranks : List ℕ} (hc : c ≤ k) (h : ∀ rank ∈ ranks, rank < k) :
    climb c ranks ≤ k := by
  induction ranks generalizing c with
  | nil => exact hc
  | cons rank ranks ih =>
      have hrank := h rank (by simp)
      refine ih ?_ fun r hr => h r (by simp [hr])
      split <;> omega

/-- A staircase within the list is climbed, whatever stands between its steps. -/
theorem le_of_sublist {c : ℕ} {ranks steps : List ℕ} (hsub : steps.Sublist ranks)
    (hsteps : ∀ j (hj : j < steps.length), c + j ≤ steps[j]) : c + steps.length ≤ climb c ranks := by
  induction ranks generalizing c steps with
  | nil =>
      rw [List.sublist_nil.mp hsub]
      exact le_rfl
  | cons rank ranks ih =>
      rcases List.sublist_cons_iff.mp hsub with hskip | ⟨steps, rfl, htake⟩
      · refine le_trans (ih hskip hsteps) (mono ?_ ranks)
        split <;> omega
      · have hrank : c ≤ rank := hsteps 0 (by simp)
        have hrest := ih (c := c + 1) htake fun j hj => by
          have := hsteps (j + 1) (by simpa using hj)
          rw [List.getElem_cons_succ] at this
          omega
        rw [climb, if_pos hrank, List.length_cons]
        omega

/-- The ranks at which the climb went up are a staircase. -/
theorem exists_sublist (c : ℕ) (ranks : List ℕ) : ∃ steps : List ℕ, steps.Sublist ranks ∧
    c + steps.length = climb c ranks ∧ ∀ j (hj : j < steps.length), c + j ≤ steps[j] := by
  induction ranks generalizing c with
  | nil => exact ⟨[], List.Sublist.refl [], rfl, by simp⟩
  | cons rank ranks ih =>
      rw [climb]
      split
      · next hrank =>
          obtain ⟨steps, hsub, hlength, hsteps⟩ := ih (c + 1)
          refine ⟨rank :: steps, hsub.cons_cons rank, by rw [List.length_cons]; omega, ?_⟩
          rintro (_ | j) hj
          · exact hrank
          · have := hsteps j (by simpa using hj)
            rw [List.getElem_cons_succ]
            omega
      · obtain ⟨steps, hsub, hlength, hsteps⟩ := ih c
        exact ⟨steps, hsub.cons rank, hlength, hsteps⟩

end Climb

/-! ## Tables -/

/-- Rows with a key and a value. Clearing a row sets its value to `zero`, and does nothing to a row
    with that value. -/
structure Table (ρ κ α : Type) where
  key : ρ → κ
  val : ρ → α
  zero : α
  clear : ρ → ρ
  key_clear : ∀ r, key (clear r) = key r
  val_clear : ∀ r, val (clear r) = zero
  clear_of_zero : ∀ r, val r = zero → clear r = r

namespace Table

variable {ρ κ α : Type} [DecidableEq α] (T : Table ρ κ α)

/-- Of each value `x`, the first `c x` rows with it cleared. -/
def clearFirst : (α → ℕ) → List ρ → List ρ
  | _, [] => []
  | c, r :: rows => (if 0 < c (T.val r) then T.clear r else r) ::
      clearFirst (Function.update c (T.val r) (c (T.val r) - 1)) rows

variable {T} {rows : List ρ}

/-- Clearing the first row that still has the value `x`. -/
theorem modifyFirst_clearFirst {x : α} (hx : x ≠ T.zero) (c : α → ℕ) :
    Collection.modifyFirst (fun s => T.val s = x) T.clear (T.clearFirst c rows)
      = T.clearFirst (Function.update c x (c x + 1)) rows := by
  induction rows generalizing c with
  | nil => rfl
  | cons r rows ih =>
      rw [clearFirst, clearFirst, Collection.modifyFirst]
      have hclear : T.val (T.clear r) ≠ x := by
        rw [T.val_clear]
        exact hx.symm
      by_cases hval : T.val r = x
      · rw [hval, Function.update_self, if_pos (Nat.succ_pos _)]
        by_cases hc : 0 < c x
        · rw [if_pos hc, if_neg (by simpa using hclear), ih]
          congr 2
          simp only [Function.update_idem, Function.update_self]
          congr 1
          omega
        · rw [if_neg hc, if_pos (by simpa using hval)]
          congr 2
          simp only [Function.update_idem]
          congr 1
          omega
      · have hhead : ¬ decide (T.val (if 0 < c (T.val r) then T.clear r else r) = x) = true := by
          split
          · simpa using hclear
          · simpa using hval
        rw [if_neg hhead, ih, Function.update_of_ne hval, Function.update_of_ne (Ne.symm hval),
          Function.update_comm (Ne.symm hval)]

theorem modifyFirst_zero (rows : List ρ) :
    Collection.modifyFirst (fun s => T.val s = T.zero) T.clear rows = rows := by
  induction rows with
  | nil => rfl
  | cons r rows ih =>
      unfold Collection.modifyFirst
      split
      · next h => rw [T.clear_of_zero r (of_decide_eq_true h)]
      · rw [ih]

variable (T) [DecidableEq κ]

/-- Clears the first row that has the value of the row with key `k`. -/
def clearKey (rows : List ρ) (k : κ) : List ρ :=
  match rows.find? fun r => T.key r = k with
  | some r => Collection.modifyFirst (fun s => T.val s = T.val r) T.clear rows
  | none => rows

/-- How many rows before the one with key `k` have the value `x`. -/
def earlier (rows : List ρ) (k : κ) (x : α) : ℕ :=
  (rows.takeWhile fun r => T.key r ≠ k).countP fun r => T.val r = x

/-- The row with key `k` has the value `x`. -/
def HasVal (rows : List ρ) (x : α) (k : κ) : Prop := ∃ r ∈ rows, T.key r = k ∧ T.val r = x

instance (rows : List ρ) (x : α) : DecidablePred (T.HasVal rows x) := fun _ =>
  inferInstanceAs (Decidable (∃ r ∈ rows, _))

/-- The listed rows with the value `x`, each as the number of rows with it before. -/
def ranks (rows : List ρ) (x : α) (ks : List κ) : List ℕ :=
  (ks.filter (T.HasVal rows x)).map fun k => T.earlier rows k x

/-- How many rows of each value the list of keys clears, after `c` of them. -/
def cleared (rows : List ρ) (c : α → ℕ) (ks : List κ) (x : α) : ℕ :=
  if x = T.zero then c x else climb (c x) (T.ranks rows x ks)

theorem earlier_cons_self (r : ρ) (rows : List ρ) (x : α) :
    T.earlier (r :: rows) (T.key r) x = 0 := by
  simp [earlier]

theorem earlier_cons_of_ne {r : ρ} {k : κ} (h : T.key r ≠ k) (rows : List ρ) (x : α) :
    T.earlier (r :: rows) k x = T.earlier rows k x + if T.val r = x then 1 else 0 := by
  rw [earlier, List.takeWhile_cons_of_pos (by simpa using h), List.countP_cons]
  simp [earlier]

theorem cleared_of_not_hasVal {rows : List ρ} {k : κ} (h : ∀ x, ¬ T.HasVal rows x k) (c : α → ℕ) :
    T.cleared rows c [k] = c := by
  funext x
  simp [cleared, ranks, h, climb]

theorem cleared_cons (rows : List ρ) (c : α → ℕ) (k : κ) (ks : List κ) :
    T.cleared rows c (k :: ks) = T.cleared rows (T.cleared rows c [k]) ks := by
  funext x
  by_cases hx : x = T.zero
  · simp only [cleared, if_pos hx]
  · by_cases hk : T.HasVal rows x k
    · simp [cleared, hx, ranks, hk, climb]
    · simp [cleared, hx, ranks, hk, climb]

variable {T}

/-- A row is cleared when fewer than `c` rows with its value come before it. -/
theorem clearFirst_eq_map (hkeys : (rows.map T.key).Nodup) (c : α → ℕ) :
    T.clearFirst c rows
      = rows.map fun r => if T.earlier rows (T.key r) (T.val r) < c (T.val r) then T.clear r
          else r := by
  induction rows generalizing c with
  | nil => rfl
  | cons r rows ih =>
      rw [List.map_cons, List.nodup_cons] at hkeys
      rw [clearFirst, ih hkeys.2, List.map_cons, earlier_cons_self]
      refine congrArg (_ :: ·) (List.map_congr_left fun s hs => ?_)
      have hne : T.key r ≠ T.key s := fun h => hkeys.1 (h ▸ List.mem_map_of_mem hs)
      rw [earlier_cons_of_ne _ hne]
      by_cases hval : T.val r = T.val s
      · rw [hval, Function.update_self, if_pos rfl]
        refine if_congr ?_ rfl rfl
        omega
      · rw [Function.update_of_ne (Ne.symm hval), if_neg hval, Nat.add_zero]

omit [DecidableEq α] [DecidableEq κ] in
theorem hasVal_iff (hkeys : (rows.map T.key).Nodup) {r : ρ} (hr : r ∈ rows) {x : α} :
    T.HasVal rows x (T.key r) ↔ T.val r = x := by
  constructor
  · rintro ⟨s, hs, hkey, hval⟩
    rwa [List.inj_on_of_nodup_map hkeys hr hs hkey.symm]
  · exact fun h => ⟨r, hr, rfl, h⟩

/-- One key clears at most one row more, one with the value of its row. -/
theorem clearKey_clearFirst (hkeys : (rows.map T.key).Nodup) (c : α → ℕ) (k : κ) :
    T.clearKey (T.clearFirst c rows) k = T.clearFirst (T.cleared rows c [k]) rows := by
  have hfind : (T.clearFirst c rows).find? (fun r => T.key r = k)
      = (rows.find? fun r => T.key r = k).map fun r =>
          if T.earlier rows (T.key r) (T.val r) < c (T.val r) then T.clear r else r := by
    rw [clearFirst_eq_map hkeys, List.find?_map]
    congr 2
    funext r
    simp only [Function.comp_apply]
    split
    · rw [T.key_clear]
    · rfl
  rw [clearKey, hfind]
  cases hrow : rows.find? fun r => T.key r = k with
  | none =>
      have hno : ∀ x, ¬ T.HasVal rows x k := by
        rintro x ⟨r, hr, hkey, -⟩
        simpa [hkey] using List.find?_eq_none.mp hrow r hr
      rw [T.cleared_of_not_hasVal hno]
      rfl
  | some r =>
      obtain rfl : T.key r = k := by simpa using List.find?_some hrow
      have hr : r ∈ rows := List.mem_of_find?_eq_some hrow
      simp only [Option.map_some]
      split
      · next hlt =>
          -- the row was cleared before
          rw [T.val_clear, modifyFirst_zero]
          congr 1
          funext x
          by_cases hval : T.val r = x
          · subst hval
            simp [cleared, ranks, hasVal_iff hkeys hr, climb, hlt.not_ge]
          · simp [cleared, ranks, hasVal_iff hkeys hr, climb, hval]
      · next hge =>
          by_cases hzero : T.val r = T.zero
          · rw [hzero, modifyFirst_zero]
            congr 1
            funext x
            by_cases hx : x = T.zero
            · rw [cleared, if_pos hx]
            · have hval : T.val r ≠ x := fun h => hx (h ▸ hzero)
              simp [cleared, ranks, hasVal_iff hkeys hr, climb, hval]
          · rw [modifyFirst_clearFirst hzero]
            congr 1
            funext x
            by_cases hval : x = T.val r
            · subst hval
              simp [cleared, ranks, hasVal_iff hkeys hr, climb, hzero, not_lt.mp hge]
            · rw [Function.update_of_ne hval]
              simp [cleared, ranks, hasVal_iff hkeys hr, climb, Ne.symm hval]

/-- A list of keys clears the first rows of each value. -/
theorem foldl_clearKey (hkeys : (rows.map T.key).Nodup) (c : α → ℕ) (ks : List κ) :
    ks.foldl T.clearKey (T.clearFirst c rows) = T.clearFirst (T.cleared rows c ks) rows := by
  induction ks generalizing c with
  | nil =>
      rw [List.foldl_nil]
      congr 1
      funext x
      simp [cleared, ranks, climb]
  | cons k ks ih => rw [List.foldl_cons, clearKey_clearFirst hkeys, ih, ← cleared_cons]

/-- The listed rows with the value `x` are the first ones with it; and some of the keys, picked in
    order, one for each of these rows, have at least as many rows with `x` before theirs as were
    picked before. -/
def PicksFirst (T : Table ρ κ α) (rows : List ρ) (ks : List κ) (x : α) : Prop :=
  ∃ picked : List κ, picked.Sublist ks ∧
    (∀ r ∈ rows, T.val r = x → (T.key r ∈ ks ↔ T.earlier rows (T.key r) x < picked.length)) ∧
    ∀ j (hj : j < picked.length), T.HasVal rows x picked[j] ∧ j ≤ T.earlier rows picked[j] x

/-- Exactly the first rows with `x` are listed and cleared. -/
theorem picksFirst_iff {ks : List κ} {x : α} :
    T.PicksFirst rows ks x ↔ ∀ r ∈ rows, T.val r = x →
      (T.key r ∈ ks ↔ T.earlier rows (T.key r) x < climb 0 (T.ranks rows x ks)) := by
  constructor
  · rintro ⟨picked, hsub, hfirst, hpicked⟩
    have hclimb : climb 0 (T.ranks rows x ks) = picked.length := by
      apply le_antisymm
      · refine Climb.le_of_forall_lt (Nat.zero_le _) fun rank hrank => ?_
        obtain ⟨k, hk, rfl⟩ := List.mem_map.mp hrank
        obtain ⟨hk, hval⟩ := List.mem_filter.mp hk
        obtain ⟨r, hr, rfl, hx⟩ := of_decide_eq_true hval
        exact (hfirst r hr hx).mp hk
      · have hall : picked.filter (T.HasVal rows x) = picked := by
          refine List.filter_eq_self.mpr fun k hk => ?_
          obtain ⟨j, hj, rfl⟩ := List.mem_iff_getElem.mp hk
          exact decide_eq_true (hpicked j hj).1
        have hsteps := Climb.le_of_sublist (c := 0)
          ((hsub.filter (T.HasVal rows x)).map fun k => T.earlier rows k x) fun j hj => by
            simp only [hall, List.length_map] at hj
            simpa [hall] using (hpicked j hj).2
        simpa [hall, ranks] using hsteps
    rw [hclimb]
    exact hfirst
  · intro h
    obtain ⟨steps, hsub, hlength, hsteps⟩ := Climb.exists_sublist 0 (T.ranks rows x ks)
    obtain ⟨picked, hpicked, rfl⟩ := List.sublist_map_iff.mp hsub
    rw [List.length_map, Nat.zero_add] at hlength
    refine ⟨picked, hpicked.trans List.filter_sublist, hlength ▸ h, fun j hj => ⟨?_, ?_⟩⟩
    · have hmem := hpicked.subset (List.getElem_mem hj)
      exact of_decide_eq_true (List.mem_filter.mp hmem).2
    · have hstep := hsteps j (by rwa [List.length_map])
      rwa [Nat.zero_add, List.getElem_map] at hstep

/-- The listed rows are cleared, and no others, exactly when of each value but `zero` the first rows
    are listed, in order. -/
theorem foldl_clearKey_eq_iff (hkeys : (rows.map T.key).Nodup) (ks : List κ) :
    ks.foldl T.clearKey rows = rows.map (fun r => if T.key r ∈ ks then T.clear r else r) ↔
      ∀ x ≠ T.zero, T.PicksFirst rows ks x := by
  have hnone : T.clearFirst (fun _ => 0) rows = rows := by
    rw [clearFirst_eq_map hkeys]
    simp
  rw [← hnone, foldl_clearKey hkeys, hnone, clearFirst_eq_map hkeys, List.map_inj_left]
  constructor
  · intro h x hx
    rw [picksFirst_iff]
    rintro r hr rfl
    have hclear : T.clear r ≠ r := fun heq => hx (by rw [← T.val_clear r, heq])
    have hrow := h r hr
    rw [cleared, if_neg hx] at hrow
    split at hrow
    · next hlt =>
        refine iff_of_true ?_ hlt
        by_contra hk
        exact hclear (by rwa [if_neg hk] at hrow)
    · next hge =>
        refine iff_of_false (fun hk => ?_) hge
        exact hclear (by rwa [if_pos hk, eq_comm] at hrow)
  · intro h r hr
    by_cases hzero : T.val r = T.zero
    · simp only [T.clear_of_zero r hzero, ite_self]
    · rw [cleared, if_neg hzero]
      exact if_congr (picksFirst_iff.mp (h _ hzero) r hr rfl).symm rfl rfl

end Table

end ZkChat
