import ZkChat.Lib.Ranking

set_option autoImplicit false

/-! # Reading a sorted collection page by page

A page is the first `limit` entries, and the next request asks for what lies strictly beyond the
keys of the page (`pages`). The requests come to an end (`exists_pages`) and return nothing twice
(`pages_sublist`), but entries that share the last key of a page are skipped when the page has no
room for all of them. So everything is returned exactly when no multiple of `limit` falls strictly
between the number of entries before a key and the number up to it (`pages_eq_self_iff`). -/

namespace ZkChat.Paging

open Ranking

variable {α κ : Type} [LinearOrder κ] {key : α → κ} {limit : ℕ}

/-- The entries whose keys lie beyond those of the page. -/
def beyond (key : α → κ) (page l : List α) : List α := l.filter fun a => ∀ b ∈ page, key b < key a

/-- The pages of `l` one after another, until one is empty; `none` when `fuel` requests did not
    get there. -/
def pages (limit : ℕ) (key : α → κ) : ℕ → List α → Option (List α)
  | 0, _ => none
  | fuel + 1, l =>
      match l.take limit with
      | [] => some []
      | page => (pages limit key fuel (beyond key page l)).map (page ++ ·)

/-- The end of some page falls among entries with one key. -/
def Cut (limit : ℕ) (key : α → κ) (l : List α) : Prop :=
  ∃ c k, below key c l < limit * k ∧ limit * k < upTo key c l

theorem pages_succ_of_nil {l : List α} (h : l.take limit = []) (fuel : ℕ) :
    pages limit key (fuel + 1) l = some [] := by
  simp only [pages, h]

theorem pages_succ_of_ne {l : List α} (h : l.take limit ≠ []) (fuel : ℕ) :
    pages limit key (fuel + 1) l
      = (pages limit key fuel (beyond key (l.take limit) l)).map (l.take limit ++ ·) := by
  rw [pages]
  cases htake : l.take limit with
  | nil => exact absurd htake h
  | cons a page => rfl

/-- A page is not asked for again. -/
theorem beyond_take (limit : ℕ) (key : α → κ) (l : List α) :
    beyond key (l.take limit) l = beyond key (l.take limit) (l.drop limit) := by
  have hpage : beyond key (l.take limit) (l.take limit) = [] := by
    refine List.filter_eq_nil_iff.mpr fun a ha h => ?_
    exact lt_irrefl (key a) (of_decide_eq_true h a ha)
  conv_lhs => rw [beyond, ← List.take_append_drop limit l, List.filter_append]
  rw [List.take_append_drop]
  exact congrArg (· ++ _) hpage

theorem length_beyond_lt (key : α → κ) {l : List α} (h : l.take limit ≠ []) :
    (beyond key (l.take limit) l).length < l.length := by
  obtain ⟨a, ha⟩ := List.exists_mem_of_ne_nil _ h
  refine List.length_filter_lt_length_iff_exists.mpr ⟨a, List.mem_of_mem_take ha, fun hall => ?_⟩
  exact lt_irrefl (key a) (of_decide_eq_true hall a ha)

/-- As many requests as there are entries, and one more, are enough. -/
theorem exists_pages (limit : ℕ) (key : α → κ) (fuel : ℕ) (l : List α) (h : l.length < fuel) :
    ∃ r, pages limit key fuel l = some r := by
  induction fuel generalizing l with
  | zero => omega
  | succ fuel ih =>
      by_cases htake : l.take limit = []
      · exact ⟨[], pages_succ_of_nil htake fuel⟩
      · have hshorter := length_beyond_lt key htake
        obtain ⟨r, hr⟩ := ih _ (Nat.lt_of_lt_of_le hshorter (Nat.le_of_lt_succ h))
        exact ⟨_, by rw [pages_succ_of_ne htake, hr, Option.map_some]⟩

/-- The result is a page and the result of the requests after it. -/
theorem pages_cases {fuel : ℕ} {l r : List α} (h : pages limit key (fuel + 1) l = some r) :
    (l.take limit = [] ∧ r = []) ∨
    (l.take limit ≠ [] ∧ ∃ rest, r = l.take limit ++ rest ∧
      pages limit key fuel (beyond key (l.take limit) l) = some rest) := by
  by_cases htake : l.take limit = []
  · rw [pages_succ_of_nil htake] at h
    exact Or.inl ⟨htake, (Option.some.inj h).symm⟩
  · rw [pages_succ_of_ne htake, Option.map_eq_some_iff] at h
    obtain ⟨rest, hrest, rfl⟩ := h
    exact Or.inr ⟨htake, rest, rfl, hrest⟩

/-- Nothing is returned twice or out of order. -/
theorem pages_sublist {fuel : ℕ} {l r : List α} (h : pages limit key fuel l = some r) :
    r.Sublist l := by
  induction fuel generalizing l r with
  | zero => cases h
  | succ fuel ih =>
      rcases pages_cases h with ⟨-, rfl⟩ | ⟨-, rest, rfl, hrest⟩
      · exact List.nil_sublist l
      · have hsub : rest.Sublist (l.drop limit) :=
          (ih hrest).trans (beyond_take limit key l ▸ List.filter_sublist)
        conv_rhs => rw [← List.take_append_drop limit l]
        exact (List.Sublist.refl _).append hsub

section Sorted

variable {l : List α}

theorem below_split (limit : ℕ) (key : α → κ) (c : κ) (l : List α) :
    below key c l = below key c (l.take limit) + below key c (l.drop limit) := by
  rw [below, below, below, ← List.countP_append, List.take_append_drop]

theorem upTo_split (limit : ℕ) (key : α → κ) (c : κ) (l : List α) :
    upTo key c l = upTo key c (l.take limit) + upTo key c (l.drop limit) := by
  rw [upTo, upTo, upTo, ← List.countP_append, List.take_append_drop]

theorem length_take_of_mem_drop {a : α} (ha : a ∈ l.drop limit) :
    (l.take limit).length = limit := by
  have := List.length_pos_of_mem ha
  rw [List.length_drop] at this
  rw [List.length_take]
  omega

/-- The page ends among entries with one key. -/
theorem cut_of_tie (hl : l.Pairwise fun a b => key a ≤ key b) {a b : α} (ha : a ∈ l.drop limit)
    (hb : b ∈ l.take limit) (hle : key a ≤ key b) : Cut limit key l := by
  have hfull := length_take_of_mem_drop ha
  refine ⟨key a, 1, ?_, ?_⟩
  · have hpage : below key (key a) (l.take limit) < (l.take limit).length := by
      refine lt_of_le_of_ne List.countP_le_length fun heq => ?_
      have := List.countP_eq_length.mp heq b hb
      simp [hle.not_gt] at this
    have hrest : below key (key a) (l.drop limit) = 0 :=
      List.countP_eq_zero.mpr fun d hd => by simpa using hle.trans (le_of_mem_drop hl hb hd)
    rw [below_split limit]
    omega
  · have hpage : upTo key (key a) (l.take limit) = (l.take limit).length :=
      List.countP_eq_length.mpr fun d hd => decide_eq_true (le_of_mem_drop hl hd ha)
    have hrest : 0 < upTo key (key a) (l.drop limit) :=
      List.countP_pos_iff.mpr ⟨a, ha, decide_eq_true le_rfl⟩
    rw [upTo_split limit]
    omega

/-- Counts up to a key beyond the page. -/
theorem counts_beyond (hlt : ∀ a ∈ l.drop limit, ∀ b ∈ l.take limit, key b < key a) {a : α}
    (ha : a ∈ l.drop limit) {c : κ} (hac : key a ≤ c) :
    below key c l = limit + below key c (l.drop limit) ∧
      upTo key c l = limit + upTo key c (l.drop limit) := by
  have hfull := length_take_of_mem_drop ha
  have hbelow : below key c (l.take limit) = (l.take limit).length :=
    List.countP_eq_length.mpr fun b hb => decide_eq_true ((hlt a ha b hb).trans_le hac)
  have hupTo : upTo key c (l.take limit) = (l.take limit).length :=
    List.countP_eq_length.mpr fun b hb => decide_eq_true ((hlt a ha b hb).le.trans hac)
  exact ⟨by rw [below_split limit, hbelow, hfull],
    by rw [upTo_split limit, hupTo, hfull]⟩

/-- A page that does not end among equal keys: the later pages are those of the rest. -/
theorem cut_drop_iff (hlt : ∀ a ∈ l.drop limit, ∀ b ∈ l.take limit, key b < key a) :
    Cut limit key l ↔ Cut limit key (l.drop limit) := by
  have hsome : ∀ c : κ, 0 < upTo key c (l.drop limit) → ∃ a ∈ l.drop limit, key a ≤ c := by
    intro c hpos
    obtain ⟨a, ha, hac⟩ := List.countP_pos_iff.mp hpos
    exact ⟨a, ha, of_decide_eq_true hac⟩
  constructor
  · rintro ⟨c, _ | k, hbelow, hupTo⟩
    · simp at hbelow
    · have hpage : upTo key c (l.take limit) ≤ limit :=
        List.countP_le_length.trans (List.length_take_le limit l)
      have hmul : limit * (k + 1) = limit * k + limit := Nat.mul_succ limit k
      have hsplit := upTo_split limit key c l
      obtain ⟨a, ha, hac⟩ := hsome c (by omega)
      obtain ⟨hb, hu⟩ := counts_beyond hlt ha hac
      exact ⟨c, k, by omega, by omega⟩
  · rintro ⟨c, k, hbelow, hupTo⟩
    obtain ⟨a, ha, hac⟩ := hsome c (Nat.zero_lt_of_lt hupTo)
    obtain ⟨hb, hu⟩ := counts_beyond hlt ha hac
    have hmul : limit * (k + 1) = limit * k + limit := Nat.mul_succ limit k
    exact ⟨c, k + 1, by omega, by omega⟩

/-- Page by page everything is returned, unless a page ends among entries with one key. -/
theorem pages_eq_self_iff (hlimit : 0 < limit) (hl : l.Pairwise fun a b => key a ≤ key b)
    {fuel : ℕ} {r : List α} (h : pages limit key fuel l = some r) :
    r = l ↔ ¬ Cut limit key l := by
  induction fuel generalizing l r with
  | zero => cases h
  | succ fuel ih =>
      rcases pages_cases h with ⟨hnil, rfl⟩ | ⟨-, rest, rfl, hrest⟩
      · rcases List.take_eq_nil_iff.mp hnil with hzero | rfl
        · exact absurd hzero hlimit.ne'
        · refine iff_of_true rfl ?_
          rintro ⟨c, k, -, hupTo⟩
          simp [upTo] at hupTo
      · rw [beyond_take] at hrest
        have hsplit : l.take limit ++ rest = l ↔ rest = l.drop limit := by
          conv_lhs => rhs; rw [← List.take_append_drop limit l]
          exact List.append_right_inj _
        rw [hsplit]
        by_cases hlt : ∀ a ∈ l.drop limit, ∀ b ∈ l.take limit, key b < key a
        · have hall : beyond key (l.take limit) (l.drop limit) = l.drop limit :=
            List.filter_eq_self.mpr fun a ha => decide_eq_true (hlt a ha)
          rw [hall] at hrest
          rw [ih (hl.sublist (List.drop_sublist limit l)) hrest, cut_drop_iff hlt]
        · have htie : ∃ a ∈ l.drop limit, ∃ b ∈ l.take limit, key a ≤ key b := by
            simpa only [not_forall, not_lt, exists_prop] using hlt
          obtain ⟨a, ha, b, hb, hle⟩ := htie
          refine iff_of_false (fun heq => ?_) (not_not.mpr (cut_of_tie hl ha hb hle))
          -- the entry `a` is not beyond the page, so it is not among what follows
          have hmem := (pages_sublist hrest).mem (heq ▸ ha)
          exact absurd (of_decide_eq_true (List.mem_filter.mp hmem).2 b hb) hle.not_gt

end Sorted

end ZkChat.Paging
