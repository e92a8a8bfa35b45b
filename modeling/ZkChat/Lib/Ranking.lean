import Mathlib.Data.List.Sort
import Mathlib.Data.Nat.Basic

set_option autoImplicit false

/-! # The first entries of a sorted collection

A query that sorts by a key and returns the first `limit` entries leaves open which of several
entries with one key it returns. What is certain is decided by counting: an entry is returned when
at most `limit` entries have a key up to its own (`mem_take_sort`), and is not returned when at
least `limit` have a smaller one (`not_mem_take_sort`). Both bounds are reached by some order of
the ties (`exists_sort_first`, `exists_sort_last`). -/

namespace ZkChat.Ranking

variable {α κ : Type} [LinearOrder κ] {key : α → κ}

/-- The function sorts by `key`; the order of entries with equal keys is up to it. -/
structure SortsBy (key : α → κ) (sort : List α → List α) : Prop where
  perm : ∀ l, (sort l).Perm l
  sorted : ∀ l, (sort l).Pairwise fun a b => key a ≤ key b

/-- How many entries have a smaller key. -/
def below (key : α → κ) (k : κ) (l : List α) : ℕ := l.countP fun a => key a < k

/-- How many entries have at most this key. -/
def upTo (key : α → κ) (k : κ) (l : List α) : ℕ := l.countP fun a => key a ≤ k

theorem sortsBy_mergeSort (key : α → κ) :
    SortsBy key fun l => l.mergeSort fun a b => key a ≤ key b where
  perm l := l.mergeSort_perm _
  sorted l := by
    refine (List.pairwise_mergeSort ?_ ?_ l).imp fun h => of_decide_eq_true h
    · exact fun a b c hab hbc => decide_eq_true
        (le_trans (of_decide_eq_true hab) (of_decide_eq_true hbc))
    · intro a b
      rcases le_total (key a) (key b) with h | h
      · simp [h]
      · simp [h]

/-! ## Counting positions -/

theorem below_mono {k k' : κ} (h : k ≤ k') (l : List α) : below key k l ≤ below key k' l :=
  List.countP_mono_left fun _ _ ha =>
    decide_eq_true (lt_of_lt_of_le (of_decide_eq_true ha) h)

section Sorted

variable {l : List α} {m : α} {limit : ℕ}

/-- In a sorted list whatever is not among the first entries has a larger key. -/
theorem le_of_mem_drop (hl : l.Pairwise fun a b => key a ≤ key b) {a b : α}
    (ha : a ∈ l.take limit) (hb : b ∈ l.drop limit) : key a ≤ key b := by
  rw [← List.take_append_drop limit l] at hl
  exact (List.pairwise_append.mp hl).2.2 a ha b hb

theorem mem_take_of_upTo (hl : l.Pairwise fun a b => key a ≤ key b) (hm : m ∈ l)
    (hcount : upTo key (key m) l ≤ limit) : m ∈ l.take limit := by
  rw [← List.take_append_drop limit l, List.mem_append] at hm
  rcases hm with hm | hm
  · exact hm
  exfalso
  have htake : upTo key (key m) (l.take limit) = (l.take limit).length :=
    List.countP_eq_length.mpr fun a ha => decide_eq_true (le_of_mem_drop hl ha hm)
  have hdrop : 0 < upTo key (key m) (l.drop limit) :=
    List.countP_pos_iff.mpr ⟨m, hm, decide_eq_true (le_refl (key m))⟩
  have hsum : upTo key (key m) l
      = upTo key (key m) (l.take limit) + upTo key (key m) (l.drop limit) := by
    rw [upTo, upTo, upTo, ← List.countP_append, List.take_append_drop]
  have hlimit : limit ≤ l.length := by
    by_contra hlt
    rw [List.drop_of_length_le (Nat.le_of_lt (Nat.not_le.mp hlt))] at hm
    cases hm
  rw [List.length_take, Nat.min_eq_left hlimit] at htake
  omega

theorem not_mem_take_of_below (hl : l.Pairwise fun a b => key a ≤ key b)
    (hcount : limit ≤ below key (key m) l) : m ∉ l.take limit := by
  intro hm
  have hdrop : below key (key m) (l.drop limit) = 0 :=
    List.countP_eq_zero.mpr fun b hb => by simpa using le_of_mem_drop hl hm hb
  have htake : below key (key m) (l.take limit) < (l.take limit).length := by
    refine lt_of_le_of_ne List.countP_le_length fun heq => ?_
    have := List.countP_eq_length.mp heq m hm
    simp at this
  have hsum : below key (key m) l
      = below key (key m) (l.take limit) + below key (key m) (l.drop limit) := by
    rw [below, below, below, ← List.countP_append, List.take_append_drop]
  have hlength := List.length_take_le limit l
  omega

/-- The last of the first `limit` entries: fewer than `limit` have a smaller key, and at least
    `limit` have at most its key. -/
theorem below_getLast (hl : l.Pairwise fun a b => key a ≤ key b) (hlimit : limit ≤ l.length)
    {a : α} (ha : (l.take limit).getLast? = some a) :
    below key (key a) l < limit ∧ limit ≤ upTo key (key a) l := by
  have hmem : a ∈ l.take limit := List.mem_of_getLast? ha
  refine ⟨Nat.lt_of_not_le fun hle => not_mem_take_of_below hl hle hmem, ?_⟩
  have hall : upTo key (key a) (l.take limit) = (l.take limit).length := by
    refine List.countP_eq_length.mpr fun b hb => decide_eq_true ?_
    have hsorted : (l.take limit).Pairwise fun a b => key a ≤ key b :=
      hl.sublist (List.take_sublist limit l)
    obtain ⟨front, hfront⟩ := List.getLast?_eq_some_iff.mp ha
    rw [hfront] at hb hsorted
    rcases List.mem_append.mp hb with hb | hb
    · exact (List.pairwise_append.mp hsorted).2.2 b hb a (List.mem_singleton_self a)
    · rw [List.mem_singleton.mp hb]
  rw [List.length_take, Nat.min_eq_left hlimit] at hall
  rw [← hall]
  exact (List.take_sublist limit l).countP_le

end Sorted

/-! ## Sorting functions -/

section SortedBy

variable {sort : List α → List α} {l : List α} {m : α} {limit : ℕ}

theorem SortsBy.below_eq (h : SortsBy key sort) (k : κ) : below key k (sort l) = below key k l :=
  (h.perm l).countP_eq _

theorem SortsBy.upTo_eq (h : SortsBy key sort) (k : κ) : upTo key k (sort l) = upTo key k l :=
  (h.perm l).countP_eq _

theorem SortsBy.mem_take_sort (h : SortsBy key sort) (hm : m ∈ l)
    (hcount : upTo key (key m) l ≤ limit) : m ∈ (sort l).take limit :=
  mem_take_of_upTo (h.sorted l) ((h.perm l).mem_iff.mpr hm) (by rwa [h.upTo_eq])

theorem SortsBy.not_mem_take_sort (h : SortsBy key sort)
    (hcount : limit ≤ below key (key m) l) : m ∉ (sort l).take limit :=
  not_mem_take_of_below (h.sorted l) (by rwa [h.below_eq])

end SortedBy

/-! ## The extreme orders of ties -/

section Extreme

variable [DecidableEq α]

/-- Sorting with the entries of key `k` in the order `mid` gives them. -/
theorem sortsBy_around (k : κ) {mid : List α → List α}
    (hmid : ∀ l, (mid l).Perm (l.filter fun a => key a = k)) {sort : List α → List α}
    (hsort : SortsBy key sort) : SortsBy key fun l =>
      sort (l.filter fun a => key a < k) ++ (mid l ++ sort (l.filter fun a => k < key a)) where
  perm l := by
    refine ((hsort.perm _).append ((hmid l).append (hsort.perm _))).trans ?_
    refine List.perm_iff_count.mpr fun a => ?_
    have hcount : ∀ p : α → Bool, List.count a (l.filter p) = if p a then List.count a l else 0 := by
      intro p
      by_cases h : p a = true
      · rw [if_pos h, List.count_filter h]
      · rw [if_neg h, List.count_eq_zero]
        exact fun ha => h (List.mem_filter.mp ha).2
    simp only [List.count_append, hcount, decide_eq_true_eq]
    rcases lt_trichotomy (key a) k with h | h | h
    · simp [h, h.ne, h.not_gt]
    · simp [h]
    · simp [h, h.ne', h.not_gt]
  sorted l := by
    have hlow : ∀ a ∈ sort (l.filter fun a => key a < k), key a < k := fun a ha =>
      of_decide_eq_true (List.mem_filter.mp ((hsort.perm _).mem_iff.mp ha)).2
    have heq : ∀ a ∈ mid l, key a = k := fun a ha =>
      of_decide_eq_true (List.mem_filter.mp ((hmid l).mem_iff.mp ha)).2
    have hhigh : ∀ a ∈ sort (l.filter fun a => k < key a), k < key a := fun a ha =>
      of_decide_eq_true (List.mem_filter.mp ((hsort.perm _).mem_iff.mp ha)).2
    refine List.pairwise_append.mpr ⟨hsort.sorted _, List.pairwise_append.mpr
      ⟨?_, hsort.sorted _, ?_⟩, ?_⟩
    · exact List.pairwise_of_forall_mem_list fun a ha b hb => (heq a ha).trans (heq b hb).symm |>.le
    · exact fun a ha b hb => (heq a ha).trans_le (hhigh b hb).le
    · intro a ha b hb
      rcases List.mem_append.mp hb with hb | hb
      · exact (hlow a ha).le.trans (heq b hb).ge
      · exact ((hlow a ha).trans (hhigh b hb)).le

/-- The entries of the key of `m`, other than `m`. -/
def ties (key : α → κ) (m : α) (l : List α) : List α := l.filter fun a => key a = key m ∧ a ≠ m

theorem perm_ties (m : α) (l : List α) :
    (l.filter (· = m) ++ ties key m l).Perm (l.filter fun a => key a = key m) := by
  have hsame : l.filter (· = m) = (l.filter fun a => key a = key m).filter (· = m) := by
    rw [List.filter_filter]
    refine List.filter_congr fun a _ => ?_
    by_cases h : a = m <;> simp [h]
  have hother : ties key m l =
      (l.filter fun a => key a = key m).filter fun a => ! (a = m : Bool) := by
    rw [List.filter_filter, ties]
    refine List.filter_congr fun a _ => ?_
    by_cases h : a = m <;> simp [h]
  rw [hsame, hother]
  exact List.filter_append_perm _ _

/-- Some order of the ties returns `m` whenever there is room after the smaller keys. -/
theorem exists_sort_first (key : α → κ) (m : α) : ∃ sort, SortsBy key sort ∧
    ∀ (l : List α) (limit : ℕ), m ∈ l → below key (key m) l < limit → m ∈ (sort l).take limit := by
  have hbase := sortsBy_mergeSort key
  refine ⟨_, sortsBy_around (key m) (perm_ties m) hbase, fun l limit hm hlt => ?_⟩
  have hlow := (hbase.perm (l.filter fun a => key a < key m)).length_eq
  rw [← List.countP_eq_length_filter] at hlow
  rw [List.take_append, hlow, List.append_assoc, List.mem_append]
  obtain ⟨rest, hrest⟩ : ∃ rest, l.filter (· = m) = m :: rest := by
    cases hfilter : l.filter (· = m) with
    | nil => exact absurd (List.filter_eq_nil_iff.mp hfilter m hm) (by simp)
    | cons a rest =>
        have ha : a ∈ l.filter (· = m) := hfilter ▸ List.mem_cons_self
        exact ⟨rest, by rw [of_decide_eq_true (List.mem_filter.mp ha).2]⟩
  obtain ⟨room, hroom⟩ : ∃ room, limit - below key (key m) l = room + 1 :=
    Nat.exists_eq_succ_of_ne_zero (Nat.sub_ne_zero_of_lt hlt)
  rw [below] at hroom
  rw [hrest, hroom]
  exact Or.inr List.mem_cons_self

/-- Some order of the ties leaves `m` out whenever the keys up to its own have no room. -/
theorem exists_sort_last (key : α → κ) (m : α) : ∃ sort, SortsBy key sort ∧
    ∀ (l : List α) (limit : ℕ), l.Nodup → limit < upTo key (key m) l →
      m ∉ (sort l).take limit := by
  have hbase := sortsBy_mergeSort key
  have hties : ∀ l : List α, (ties key m l ++ l.filter (· = m)).Perm
      (l.filter fun a => key a = key m) := fun l => List.perm_append_comm.trans (perm_ties m l)
  have hsort := sortsBy_around (key m) hties hbase
  refine ⟨_, hsort, fun l limit hnodup hlt => ?_⟩
  set low := (l.filter fun a => key a < key m).mergeSort fun a b => key a ≤ key b with hlow
  set high := (l.filter fun a => key m < key a).mergeSort fun a b => key a ≤ key b with hhigh
  have hmlow : m ∉ low := fun h => by
    simpa using (List.mem_filter.mp ((hbase.perm _).mem_iff.mp h)).2
  have hmties : m ∉ ties key m l := fun h => by simpa using (List.mem_filter.mp h).2
  have hself : upTo key (key m) (l.filter (· = m)) ≤ 1 :=
    List.countP_le_length.trans ((List.countP_eq_length_filter ..).symm.le.trans
      (List.nodup_iff_count_le_one.mp hnodup m))
  have hzero : upTo key (key m) high = 0 := by
    refine List.countP_eq_zero.mpr fun a ha => ?_
    simpa using (List.mem_filter.mp ((hbase.perm _).mem_iff.mp ha)).2
  have hfront : limit ≤ (low ++ ties key m l).length := by
    have hcount : upTo key (key m) (low ++ ties key m l) ≤ (low ++ ties key m l).length :=
      List.countP_le_length
    rw [← hsort.upTo_eq] at hlt
    change limit < upTo key (key m) (low ++ ((ties key m l ++ l.filter (· = m)) ++ high)) at hlt
    simp only [upTo, List.countP_append] at hlt hself hzero hcount
    simp only [List.length_append] at hcount ⊢
    omega
  have hassoc : low ++ ((ties key m l ++ l.filter (· = m)) ++ high)
      = (low ++ ties key m l) ++ (l.filter (· = m) ++ high) := by simp only [List.append_assoc]
  rw [hassoc, List.take_append_of_le_length hfront]
  intro hmem
  rcases List.mem_append.mp (List.mem_of_mem_take hmem) with h | h
  · exact hmlow h
  · exact hmties h

end Extreme

end ZkChat.Ranking
