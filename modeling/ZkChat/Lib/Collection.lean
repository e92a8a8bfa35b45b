import Mathlib.Data.List.Basic
import Mathlib.Tactic.Common

set_option autoImplicit false

/-! # Document collections

A collection is the list of its documents in insertion order; the position of a document is its
object id. Documents are never removed from the collections that ids are used for, so an id stays
good. `findOne` returns the first match, as a `Doc`: a private copy that remembers what it was
loaded from. -/

namespace ZkChat

/-- A loaded document: its id, its fields when last loaded or saved, its fields now. -/
structure Doc (ρ : Type) where
  id : ℕ
  loaded : ρ
  cur : ρ

namespace Collection

variable {ρ : Type}

/-- The first document with the property, freshly loaded. -/
def findOne (p : ρ → Bool) (docs : List ρ) : Option (Doc ρ) :=
  (docs.findIdx? p).bind fun i => docs[i]?.map fun r => ⟨i, r, r⟩

theorem findOne_eq_some {p : ρ → Bool} {docs : List ρ} {d : Doc ρ} (h : findOne p docs = some d) :
    docs[d.id]? = some d.cur ∧ d.loaded = d.cur ∧ p d.cur = true := by
  rw [findOne, Option.bind_eq_some_iff] at h
  obtain ⟨i, hi, hd⟩ := h
  obtain ⟨hlt, hp, -⟩ := List.findIdx?_eq_some_iff_getElem.mp hi
  rw [List.getElem?_eq_getElem hlt, Option.map_some, Option.some.injEq] at hd
  subst hd
  exact ⟨List.getElem?_eq_getElem hlt, rfl, hp⟩

theorem findOne_eq_none {p : ρ → Bool} {docs : List ρ} :
    findOne p docs = none ↔ ∀ r ∈ docs, p r = false := by
  rw [findOne, Option.bind_eq_none_iff]
  constructor
  · intro h
    rw [← List.findIdx?_eq_none_iff]
    cases hi : docs.findIdx? p with
    | none => rfl
    | some i =>
        obtain ⟨hlt, -, -⟩ := List.findIdx?_eq_some_iff_getElem.mp hi
        have := h i hi
        rw [List.getElem?_eq_getElem hlt] at this
        exact absurd this (by simp)
  · intro h i hi
    rw [List.findIdx?_eq_none_iff.mpr h] at hi
    exact absurd hi (by simp)

/-- A search finds something as soon as something matches. -/
theorem findOne_isSome_of_getElem? {p : ρ → Bool} {docs : List ρ} {i : ℕ} {r : ρ}
    (hr : docs[i]? = some r) (hp : p r = true) : ∃ d, findOne p docs = some d := by
  cases h : findOne p docs with
  | some d => exact ⟨d, rfl⟩
  | none =>
      have := findOne_eq_none.mp h r (List.mem_of_getElem? hr)
      simp [hp] at this

/-- Documents that come later do not change what is found. -/
theorem findOne_append {p : ρ → Bool} {docs : List ρ} {d : Doc ρ} (h : findOne p docs = some d)
    (docs' : List ρ) : findOne p (docs ++ docs') = some d := by
  rw [findOne, Option.bind_eq_some_iff] at h ⊢
  obtain ⟨i, hi, hd⟩ := h
  obtain ⟨r, hr, rfl⟩ := Option.map_eq_some_iff.mp hd
  refine ⟨i, by rw [List.findIdx?_append, hi]; rfl, ?_⟩
  rw [List.getElem?_append_left (List.getElem?_eq_some_iff.mp hr).1, hr]
  rfl

/-- The fields of the document that is found. -/
theorem find?_eq_map_findOne (p : ρ → Bool) (docs : List ρ) :
    docs.find? p = (findOne p docs).map (·.cur) := by
  induction docs with
  | nil => rfl
  | cons r docs ih =>
      rw [findOne, List.findIdx?_cons]
      by_cases hp : p r = true
      · rw [List.find?_cons_of_pos hp, if_pos hp]
        rfl
      · rw [List.find?_cons_of_neg hp, if_neg hp, ih, findOne]
        cases docs.findIdx? p with
        | none => rfl
        | some i => simp [Function.comp_def]

/-- Where only one position matches, its entry is all that a search for every match finds. -/
theorem filter_of_unique {p : ρ → Bool} {docs : List ρ} {i : ℕ} {r : ρ} (hr : docs[i]? = some r)
    (hp : p r = true) (huniq : ∀ j s, docs[j]? = some s → p s = true → j = i) :
    docs.filter p = [r] := by
  induction docs generalizing i with
  | nil => simp at hr
  | cons s docs ih =>
      cases i with
      | zero =>
          obtain rfl : s = r := by simpa using hr
          rw [List.filter_cons_of_pos hp, List.filter_eq_nil_iff.mpr]
          intro t ht hpt
          obtain ⟨j, hj⟩ := List.mem_iff_getElem?.mp ht
          exact absurd (huniq (j + 1) t hj hpt) (by omega)
      | succ i =>
          have hs : ¬ p s = true := fun hps => absurd (huniq 0 s rfl hps) (by omega)
          rw [List.filter_cons_of_neg hs]
          exact ih hr fun j t hj hpt => Nat.succ.inj (huniq (j + 1) t hj hpt)

/-- Only one entry gives a value. -/
theorem filterMap_eq_singleton_iff {ρ' : Type} {docs : List ρ} (hnodup : docs.Nodup) {r : ρ}
    (hr : r ∈ docs) {f : ρ → Option ρ'} {y : ρ'} (hy : f r = some y) :
    docs.filterMap f = [y] ↔ ∀ s ∈ docs, s ≠ r → f s = none := by
  induction docs with
  | nil => simp at hr
  | cons s docs ih =>
      obtain ⟨hs, hnodup⟩ := List.nodup_cons.mp hnodup
      rw [List.forall_mem_cons]
      rcases List.mem_cons.mp hr with rfl | hr
      · rw [List.filterMap_cons_some hy, List.cons.injEq, and_iff_right rfl,
          List.filterMap_eq_nil_iff]
        constructor
        · exact fun h => ⟨fun hne => absurd rfl hne, fun t ht _ => h t ht⟩
        · exact fun h t ht => h.2 t ht fun heq => hs (heq ▸ ht)
      · have hne : s ≠ r := fun heq => hs (heq ▸ hr)
        cases hfs : f s with
        | none => rw [List.filterMap_cons_none hfs, ih hnodup hr, and_iff_right fun _ => rfl]
        | some z =>
            refine iff_of_false (fun h => ?_) fun h => absurd (h.1 hne) (by simp)
            rw [List.filterMap_cons_some hfs, List.cons.injEq, List.filterMap_eq_nil_iff] at h
            rw [h.2 r hr] at hy
            cases hy

/-! ## Replacing the first match -/

/-- `docs` with `f` applied to the first entry that matches. -/
def modifyFirst (q : ρ → Bool) (f : ρ → ρ) : List ρ → List ρ
  | [] => []
  | r :: docs => if q r then f r :: docs else r :: modifyFirst q f docs

@[simp] theorem length_modifyFirst (q : ρ → Bool) (f : ρ → ρ) (docs : List ρ) :
    (modifyFirst q f docs).length = docs.length := by
  induction docs with
  | nil => rfl
  | cons r docs ih =>
      unfold modifyFirst
      split
      · rfl
      · rw [List.length_cons, ih, List.length_cons]

/-- An entry is as it was, or `f` was applied to it. -/
theorem getElem?_modifyFirst {q : ρ → Bool} {f : ρ → ρ} {docs : List ρ} {i : ℕ} {s : ρ}
    (h : (modifyFirst q f docs)[i]? = some s) :
    docs[i]? = some s ∨ ∃ r, docs[i]? = some r ∧ q r = true ∧ s = f r := by
  induction docs generalizing i with
  | nil => exact Or.inl h
  | cons r docs ih =>
      unfold modifyFirst at h
      split at h
      · next hq =>
          cases i with
          | zero =>
              simp only [List.getElem?_cons_zero, Option.some.injEq] at h
              exact Or.inr ⟨r, rfl, hq, h.symm⟩
          | succ i => exact Or.inl h
      · cases i with
        | zero => exact Or.inl h
        | succ i => exact ih h

theorem modifyFirst_of_forall {q : ρ → Bool} {docs : List ρ} (h : ∀ r ∈ docs, q r = false)
    (f : ρ → ρ) : modifyFirst q f docs = docs := by
  induction docs with
  | nil => rfl
  | cons r docs ih =>
      rw [modifyFirst, if_neg (by simp [h r (by simp)]), ih (fun s hs => h s (by simp [hs]))]

theorem mem_modifyFirst {q : ρ → Bool} {f : ρ → ρ} {docs : List ρ} {s : ρ}
    (h : s ∈ modifyFirst q f docs) : s ∈ docs ∨ ∃ r ∈ docs, q r = true ∧ s = f r := by
  induction docs with
  | nil => exact Or.inl h
  | cons r docs ih =>
      unfold modifyFirst at h
      split at h
      · next hq =>
          rcases List.mem_cons.mp h with rfl | h
          · exact Or.inr ⟨r, by simp, hq, rfl⟩
          · exact Or.inl (by simp [h])
      · rcases List.mem_cons.mp h with rfl | h
        · exact Or.inl (by simp)
        · rcases ih h with h | ⟨t, ht, hq, rfl⟩
          · exact Or.inl (by simp [h])
          · exact Or.inr ⟨t, by simp [ht], hq, rfl⟩

/-- What the replacement keeps. -/
theorem map_modifyFirst {ρ' : Type} {q : ρ → Bool} {f : ρ → ρ} {g : ρ → ρ'}
    (h : ∀ r, g (f r) = g r) (docs : List ρ) : (modifyFirst q f docs).map g = docs.map g := by
  induction docs with
  | nil => rfl
  | cons r docs ih =>
      unfold modifyFirst
      split
      · rw [List.map_cons, h, List.map_cons]
      · rw [List.map_cons, ih, List.map_cons]

/-- Replacing the one entry with a property by an entry without it. -/
theorem filter_modifyFirst_of_singleton {P q : ρ → Bool} {f : ρ → ρ} {docs : List ρ} {r : ρ}
    (hq : ∀ s, q s = true → P s = true) (honly : docs.filter P = [r]) (hr : q r = true)
    (hf : P (f r) = false) : (modifyFirst q f docs).filter P = [] := by
  induction docs with
  | nil => rfl
  | cons s docs ih =>
      unfold modifyFirst
      split
      · next hs =>
          rw [List.filter_cons_of_pos (hq s hs)] at honly
          obtain ⟨rfl, hnone⟩ := List.cons.inj honly
          rw [List.filter_cons_of_neg (by simp [hf]), hnone]
      · next hs =>
          have hP : ¬ P s = true := by
            intro hP
            rw [List.filter_cons_of_pos hP] at honly
            obtain ⟨rfl, -⟩ := List.cons.inj honly
            exact hs hr
          rw [List.filter_cons_of_neg hP] at honly ⊢
          exact ih honly

/-- Modifying the first match of a collection, seen through a projection that decides the match. -/
theorem filterMap_modify_findOne {ρ' : Type} {g : ρ → Option ρ'} {p : ρ → Bool} {q : ρ' → Bool}
    {f : ρ → ρ} {f' : ρ' → ρ'} {docs : List ρ} {d : Doc ρ}
    (hpq : ∀ r, p r = (g r).any q) (hd : findOne p docs = some d)
    (hf : g (f d.cur) = (g d.cur).map f') :
    (docs.modify d.id f).filterMap g = modifyFirst q f' (docs.filterMap g) := by
  induction docs generalizing d with
  | nil => simp [findOne] at hd
  | cons r docs ih =>
      rw [findOne, List.findIdx?_cons] at hd
      by_cases hp : p r = true
      · rw [if_pos hp, Option.bind_some, List.getElem?_cons_zero, Option.map_some,
          Option.some.injEq] at hd
        subst hd
        obtain ⟨y, hy, hq⟩ : ∃ y, g r = some y ∧ q y = true := by
          rw [hpq] at hp
          cases hg : g r with
          | none => simp [hg] at hp
          | some y => exact ⟨y, rfl, by simpa [hg] using hp⟩
        rw [List.modify_zero_cons, List.filterMap_cons, hf, hy, Option.map_some,
          List.filterMap_cons, hy, modifyFirst, if_pos hq]
      · obtain ⟨i, hi, hd'⟩ : ∃ i, docs.findIdx? p = some i ∧
            (docs[i]?.map fun s => ⟨i + 1, s, s⟩) = some d := by
          rw [if_neg hp] at hd
          cases hc : docs.findIdx? p with
          | none => simp [hc] at hd
          | some i => exact ⟨i, rfl, by simpa [hc] using hd⟩
        cases hs : docs[i]? with
        | none => simp [hs] at hd'
        | some s =>
            rw [hs, Option.map_some, Option.some.injEq] at hd'
            subst hd'
            have hfind : findOne p docs = some ⟨i, s, s⟩ := by simp [findOne, hi, hs]
            have htail := ih hfind hf
            rw [List.modify_succ_cons, List.filterMap_cons, List.filterMap_cons, htail]
            cases hg : g r with
            | none => rfl
            | some y =>
                rw [modifyFirst, if_neg]
                simpa [hpq, hg] using hp

/-! ## Deleting -/

/-- What a second filter finds after a first one. -/
theorem countP_or (p q : ρ → Bool) (docs : List ρ) :
    docs.countP (fun r => p r || q r) = docs.countP p + docs.countP fun r => q r && ! p r := by
  induction docs with
  | nil => rfl
  | cons r docs ih =>
      simp only [List.countP_cons, ih]
      cases hp : p r with
      | true => simp; omega
      | false => simp; omega

/-- Filters that leave the same documents agree on all of them. -/
theorem eq_of_filter_eq {p q : ρ → Bool} {docs : List ρ} (h : docs.filter p = docs.filter q) :
    ∀ r ∈ docs, p r = q r := by
  intro r hr
  have hiff : r ∈ docs.filter p ↔ r ∈ docs.filter q := by
    rw [h]
  rw [List.mem_filter, List.mem_filter, and_iff_right hr, and_iff_right hr] at hiff
  exact Bool.eq_iff_iff.mpr hiff

end Collection

end ZkChat
