import ZkChat.Lib.Pool
import Mathlib.Algebra.Ring.Nat

set_option autoImplicit false

/-! # Calls that work in sections

A long call is a chain of sections: after each it is at rest, and what it does next depends only on
where it rests. In a pool of such calls a step is taken `Alone` when every other call is at rest.
When all steps are taken alone, or are single reads from rest to rest, the sections might as well
be atomic: an invariant that every uninterrupted section keeps holds whenever all calls have ended
(`Sections.inv_of_exclusive`). Forgetting where the calls rest gives the pool of the whole programs
(`Sections.erase_steps`). -/

namespace ZkChat

/-- The sections of a call that rests at `ρ`. -/
structure Sections (σ ε ρ : Type) where
  /-- The next section, which ends at rest again, or nothing when the call has returned. -/
  next : ρ → Option (Prog σ ε ρ)
  /-- The program of the rest of the call. -/
  whole : ρ → Prog σ ε Unit
  whole_eq : ∀ r, whole r = (next r).elim (.ret ()) fun p => p.bind whole
  /-- Every section performs an action. -/
  acts : ∀ r p, next r = some p → ∃ act rest, p = .step act rest

namespace Sections

variable {σ ε ρ : Type} (S : Sections σ ε ρ)

/-- The next action of a call: at rest it begins the next section. -/
def advance : Prog σ ε ρ → σ → Prog σ ε ρ × σ
  | .ret r, s => match S.next r with
    | none => (.ret r, s)
    | some p => p.advance s
  | p, s => p.advance s

/-- Calls in the middle of their runs; one at rest is a `ret`. -/
structure State (σ ε ρ : Type) where
  threads : List (Prog σ ε ρ)
  state : σ

/-- All calls before their first action. -/
def init (calls : List ρ) (s : σ) : State σ ε ρ := ⟨calls.map .ret, s⟩

/-- The next action of the call with this index. -/
def step (w : State σ ε ρ) (i : ℕ) : State σ ε ρ :=
  match w.threads[i]? with
  | none => w
  | some p =>
      { threads := w.threads.set i (S.advance p w.state).1, state := (S.advance p w.state).2 }

def steps (w : State σ ε ρ) (schedule : List ℕ) : State σ ε ρ := schedule.foldl S.step w

theorem steps_append (w : State σ ε ρ) (first second : List ℕ) :
    S.steps w (first ++ second) = S.steps (S.steps w first) second :=
  List.foldl_append

theorem step_of_some {w : State σ ε ρ} {i : ℕ} {p : Prog σ ε ρ} (h : w.threads[i]? = some p) :
    S.step w i = { threads := w.threads.set i (S.advance p w.state).1
                   state := (S.advance p w.state).2 } := by
  rw [step, h]

theorem step_of_none {w : State σ ε ρ} {i : ℕ} (h : w.threads[i]? = none) : S.step w i = w := by
  rw [step, h]

/-! ## The pool of the whole programs -/

/-- What is left of a call, as one program. -/
def erase (p : Prog σ ε ρ) : Prog σ ε Unit := p.bind S.whole

def eraseState (w : State σ ε ρ) : Pool Unit σ ε Unit :=
  { threads := w.threads.map fun p => ((), S.erase p), state := w.state }

theorem erase_advance (p : Prog σ ε ρ) (s : σ) :
    (S.erase p).advance s = (S.erase (S.advance p s).1, (S.advance p s).2) := by
  cases p with
  | ret r =>
      have hwhole : S.erase (.ret r) = S.whole r := rfl
      rw [hwhole, S.whole_eq, advance]
      cases hnext : S.next r with
      | none =>
          rw [hwhole, S.whole_eq, hnext]
          rfl
      | some q =>
          obtain ⟨act, rest, rfl⟩ := S.acts r q hnext
          rfl
  | raise e => rfl
  | step act rest => rfl

/-- Both pools take the same steps. -/
theorem erase_step (w : State σ ε ρ) (i : ℕ) :
    S.eraseState (S.step w i) = (S.eraseState w).step i := by
  have hget : (S.eraseState w).threads[i]? = w.threads[i]?.map fun p => ((), S.erase p) :=
    List.getElem?_map
  cases hi : w.threads[i]? with
  | none => rw [S.step_of_none hi, Pool.step_of_none (by rw [hget, hi, Option.map_none])]
  | some p =>
      rw [S.step_of_some hi, Pool.step_of_some (by rw [hget, hi, Option.map_some])]
      simp only [eraseState, List.map_set, S.erase_advance]

theorem erase_steps (w : State σ ε ρ) (schedule : List ℕ) :
    S.eraseState (S.steps w schedule) = (S.eraseState w).steps schedule := by
  induction schedule generalizing w with
  | nil => rfl
  | cons i schedule ih => exact (ih (S.step w i)).trans (by rw [S.erase_step]; rfl)

/-- A call that has returned is not in a section. -/
theorem returned_of_erase {p : Prog σ ε ρ} (h : (S.erase p).Returned) : p.Returned := by
  cases p with
  | ret r => trivial
  | raise e => exact h
  | step act rest => exact h

/-! ## Exclusive schedules -/

/-- Every other call is at rest. -/
def Alone (w : State σ ε ρ) (i : ℕ) : Prop :=
  ∀ j < w.threads.length, j ≠ i → ∀ p ∈ w.threads[j]?, p.Returned

instance (w : State σ ε ρ) (i : ℕ) : Decidable (Alone w i) :=
  inferInstanceAs (Decidable (∀ j < w.threads.length, j ≠ i → ∀ p ∈ w.threads[j]?, p.Returned))

/-- The step is a whole section that changes nothing. -/
def Momentary (w : State σ ε ρ) (i : ℕ) : Prop :=
  ∃ r r', w.threads[i]? = some (.ret r) ∧ S.advance (.ret r) w.state = (.ret r', w.state)

/-- Every step of the schedule is taken alone or is momentary. -/
def Exclusive (w : State σ ε ρ) (schedule : List ℕ) : Prop :=
  ∀ before i after, schedule = before ++ i :: after →
    Alone (S.steps w before) i ∨ S.Momentary (S.steps w before) i

/-- One call after another is exclusive. -/
theorem Exclusive.append {w : State σ ε ρ} {first second : List ℕ} (h : S.Exclusive w first)
    (h' : S.Exclusive (S.steps w first) second) : S.Exclusive w (first ++ second) := by
  intro before i after hsplit
  rcases List.append_eq_append_iff.mp hsplit with ⟨mid, rfl, hsecond⟩ | ⟨mid, rfl, hfirst⟩
  · rw [S.steps_append]
    exact h' mid i after hsecond
  · cases mid with
    | nil =>
        have := h' [] i after hfirst.symm
        rwa [List.append_nil] at this
    | cons j mid =>
        obtain ⟨rfl, -⟩ := List.cons.inj hfirst
        exact h before i mid rfl

theorem alone_step {w : State σ ε ρ} {i : ℕ} (h : Alone w i) : Alone (S.step w i) i := by
  cases hi : w.threads[i]? with
  | none => rwa [S.step_of_none hi]
  | some p =>
      rw [S.step_of_some hi]
      intro j hj hji q hq
      rw [List.length_set] at hj
      rw [List.getElem?_set_ne (Ne.symm hji)] at hq
      exact h j hj hji q hq

/-- The steps of one call while the others rest. -/
theorem exclusive_replicate {w : State σ ε ρ} {i : ℕ} (h : Alone w i) (n : ℕ) :
    S.Exclusive w (List.replicate n i) := by
  intro before j after hsplit
  have hi : ∀ k ∈ before ++ j :: after, k = i := fun k hk =>
    List.eq_of_mem_replicate (hsplit ▸ hk)
  obtain rfl := hi j (by simp)
  have hbefore : ∀ k ∈ before, k = j := fun k hk => hi k (by simp [hk])
  clear hsplit hi
  refine Or.inl ?_
  induction before generalizing w with
  | nil => exact h
  | cons k before ih =>
      obtain rfl := hbefore k (by simp)
      exact ih (S.alone_step h) fun k hk => hbefore k (by simp [hk])

/-! ## The invariant -/

/-- What one uninterrupted section does. `Inv u` is the invariant after the use of `u` units of a
    budget, `cost r` is what a call that rests at `r` may still use. -/
structure Rules (Quiet : σ → Prop) (Ok : ρ → Prop) (Inv : ℕ → σ → Prop) (cost : ρ → ℕ)
    (budget : ℕ) : Prop where
  /-- What every single action keeps. -/
  quiet : ∀ r p, S.next r = some p → Prog.Within (fun s t => Quiet s → Quiet t) p
  ok : ∀ r p s r' s', S.next r = some p → Quiet s → Ok r → p.run s = (.ok r', s') →
    Ok r' ∧ cost r' ≤ cost r
  inv : ∀ r p u s r' s', S.next r = some p → Ok r → Inv u s → u + cost r ≤ budget →
    p.run s = (.ok r', s') → ∃ u', Inv u' s' ∧ u' + cost r' ≤ u + cost r

section Invariant

variable {S} {Quiet : σ → Prop} {Ok : ρ → Prop} {Inv : ℕ → σ → Prop} {cost : ρ → ℕ}
  {budget : ℕ}

/-- What the call may still use; one in its section has been counted. -/
def restCost (cost : ρ → ℕ) : Prog σ ε ρ → ℕ
  | .ret r => cost r
  | _ => 0

def total (cost : ρ → ℕ) (threads : List (Prog σ ε ρ)) : ℕ := (threads.map (restCost cost)).sum

/-- What the other calls may still use. -/
theorem exists_others (cost : ρ → ℕ) {threads : List (Prog σ ε ρ)} {i : ℕ} {p : Prog σ ε ρ}
    (h : threads[i]? = some p) : ∃ others, total cost threads = others + restCost cost p ∧
      ∀ q, total cost (threads.set i q) = others + restCost cost q := by
  induction threads generalizing i with
  | nil => simp at h
  | cons t threads ih =>
      cases i with
      | zero =>
          obtain rfl : t = p := by simpa using h
          refine ⟨total cost threads, Nat.add_comm _ _, fun q => Nat.add_comm _ _⟩
      | succ i =>
          obtain ⟨others, htotal, hset⟩ := ih (i := i) (by simpa using h)
          refine ⟨restCost cost t + others, ?_, fun q => ?_⟩
          · rw [Nat.add_assoc, ← htotal]
            rfl
          · rw [Nat.add_assoc, ← hset q]
            rfl

/-- What holds where a section ends while the other calls may still use `others`. -/
def Ends (Ok : ρ → Prop) (Inv : ℕ → σ → Prop) (cost : ρ → ℕ) (budget others : ℕ)
    (out : Except ε ρ) (s : σ) : Prop :=
  ∀ r, out = .ok r → Ok r ∧ ∃ u, Inv u s ∧ u + cost r + others ≤ budget

/-- The invariant of the pool while no call has failed: the state satisfies `Inv`, or it will where
    the only unfinished section ends if nothing interrupts it. -/
structure Orderly (Quiet : σ → Prop) (Ok : ρ → Prop) (Inv : ℕ → σ → Prop) (cost : ρ → ℕ)
    (budget : ℕ) (w : State σ ε ρ) : Prop where
  quiet : Quiet w.state
  within : ∀ p ∈ w.threads, Prog.Within (fun s t => Quiet s → Quiet t) p
  ok : ∀ r, .ret r ∈ w.threads → Ok r
  held : ((∀ p ∈ w.threads, p.Returned) ∧ ∃ u, Inv u w.state ∧ u + total cost w.threads ≤ budget) ∨
    ∃ i p, w.threads[i]? = some p ∧ ¬ p.Returned ∧ Alone w i ∧
      p.wp (Ends Ok Inv cost budget (total cost w.threads)) w.state

/-- The call with index `i` has gone on to `q` while all others rest. -/
theorem Orderly.of_ends {threads : List (Prog σ ε ρ)} {i others : ℕ} {q : Prog σ ε ρ} {s : σ}
    (hi : threads[i]? = some q) (hs : Quiet s)
    (hwithin : ∀ p ∈ threads, Prog.Within (fun s t => Quiet s → Quiet t) p)
    (hok : ∀ j r, j ≠ i → threads[j]? = some (.ret r) → Ok r)
    (halone : Alone (⟨threads, s⟩ : State σ ε ρ) i)
    (htotal : total cost threads = others + restCost cost q)
    (hends : q.wp (Ends Ok Inv cost budget others) s) :
    Orderly Quiet Ok Inv cost budget ⟨threads, s⟩ := by
  have hok' : (∀ r, q = .ret r → Ok r) → ∀ r, .ret r ∈ threads → Ok r := by
    intro hq r hr
    obtain ⟨j, hj⟩ := List.mem_iff_getElem?.mp hr
    by_cases hji : j = i
    · subst hji
      exact hq r (Option.some.inj (hi.symm.trans hj))
    · exact hok j r hji hj
  have hmid : restCost cost q = 0 → ¬ q.Returned →
      Orderly Quiet Ok Inv cost budget ⟨threads, s⟩ := by
    intro hzero hrest
    rw [hzero, Nat.add_zero] at htotal
    refine ⟨hs, hwithin, hok' ?_, Or.inr ⟨i, q, hi, hrest, halone, htotal ▸ hends⟩⟩
    rintro r rfl
    exact absurd trivial hrest
  cases q with
  | ret r =>
      obtain ⟨hr, u, hinv, hu⟩ := hends r rfl
      refine ⟨hs, hwithin, hok' fun r' h => Prog.ret.inj h ▸ hr, Or.inl ⟨?_, u, hinv, ?_⟩⟩
      · intro p hp
        obtain ⟨j, hj⟩ := List.mem_iff_getElem?.mp hp
        by_cases hji : j = i
        · subst hji
          obtain rfl := Option.some.inj (hi.symm.trans hj)
          trivial
        · exact halone j (List.getElem?_eq_some_iff.mp hj).1 hji p hj
      · have hcost : restCost cost (.ret r : Prog σ ε ρ) = cost r := rfl
        rw [hcost] at htotal
        show u + total cost threads ≤ budget
        omega
  | raise e => exact hmid rfl id
  | step act rest => exact hmid rfl id

theorem alone_set {w : State σ ε ρ} {i : ℕ} (h : Alone w i) (q : Prog σ ε ρ) (s : σ) :
    Alone (⟨w.threads.set i q, s⟩ : State σ ε ρ) i := by
  intro j hj hji p hp
  rw [List.length_set] at hj
  rw [List.getElem?_set_ne (Ne.symm hji)] at hp
  exact h j hj hji p hp

/-- A single read from rest to rest disturbs nobody. -/
theorem Orderly.momentary (hrules : S.Rules Quiet Ok Inv cost budget) {w : State σ ε ρ}
    (h : Orderly Quiet Ok Inv cost budget w) {i : ℕ} (hstep : S.Momentary w i) :
    Orderly Quiet Ok Inv cost budget (S.step w i) := by
  obtain ⟨r, r', hi, hadvance⟩ := hstep
  rw [S.step_of_some hi, hadvance]
  have hr := h.ok r (List.mem_of_getElem? hi)
  obtain ⟨hr', hcost⟩ : Ok r' ∧ cost r' ≤ cost r := by
    rw [advance] at hadvance
    cases hnext : S.next r with
    | none =>
        rw [hnext] at hadvance
        obtain rfl : r = r' := Prog.ret.inj (Prod.mk.inj hadvance).1
        exact ⟨hr, Nat.le_refl _⟩
    | some p =>
        simp only [hnext] at hadvance
        refine hrules.ok r p w.state r' w.state hnext h.quiet hr ?_
        rw [← Prog.run_advance, hadvance]
        rfl
  obtain ⟨others, htotal, hset⟩ := exists_others cost hi
  have hle : total cost (w.threads.set i (.ret r')) ≤ total cost w.threads := by
    rw [htotal, hset]
    exact Nat.add_le_add_left hcost others
  refine ⟨h.quiet, ?_, ?_, ?_⟩
  · intro p hp
    rcases List.mem_or_eq_of_mem_set hp with hp | rfl
    · exact h.within p hp
    · exact .ret r'
  · intro r'' hr''
    rcases List.mem_or_eq_of_mem_set hr'' with hmem | heq
    · exact h.ok r'' hmem
    · obtain rfl := Prog.ret.inj heq
      exact hr'
  · -- nobody is in a section, or the call `k` is, and it is not the one that reads
    rcases h.held with ⟨hrest, u, hinv, hu⟩ | ⟨k, p, hk, hmid, halone, hends⟩
    · refine Or.inl ⟨?_, u, hinv, Nat.le_trans (Nat.add_le_add_left hle u) hu⟩
      intro p hp
      rcases List.mem_or_eq_of_mem_set hp with hp | rfl
      · exact hrest p hp
      · trivial
    · have hki : k ≠ i := by
        rintro rfl
        obtain rfl := Option.some.inj (hi.symm.trans hk)
        exact hmid trivial
      refine Or.inr ⟨k, p, ?_, hmid, ?_, ?_⟩
      · rw [List.getElem?_set_ne (Ne.symm hki)]
        exact hk
      · intro j hj hjk q hq
        rw [List.length_set] at hj
        by_cases hji : j = i
        · subst hji
          rw [List.getElem?_set_self hj] at hq
          obtain rfl := Option.some.inj hq
          trivial
        · rw [List.getElem?_set_ne (Ne.symm hji)] at hq
          exact halone j hj hjk q hq
      · refine Prog.wp_mono hends fun out s hout r₁ hr₁ => ?_
        obtain ⟨hok, u, hinv, hu⟩ := hout r₁ hr₁
        exact ⟨hok, u, hinv, Nat.le_trans (Nat.add_le_add_left hle _) hu⟩

/-- The call with index `i` makes one step of the section `p`, which it is in or begins, while all
    others rest. -/
theorem Orderly.goes {w : State σ ε ρ} (h : Orderly Quiet Ok Inv cost budget w) {i others : ℕ}
    {q p : Prog σ ε ρ} (hi : w.threads[i]? = some q) (halone : Alone w i)
    (hset : ∀ q', total cost (w.threads.set i q') = others + restCost cost q')
    (hp : Prog.Within (fun s t => Quiet s → Quiet t) p)
    (hadvance : S.advance q w.state = p.advance w.state)
    (hends : p.wp (Ends Ok Inv cost budget others) w.state) :
    Orderly Quiet Ok Inv cost budget (S.step w i) := by
  obtain ⟨hquiet, hwithin⟩ := hp.advance (fun _ => id) w.state
  rw [S.step_of_some hi, hadvance]
  refine Orderly.of_ends (List.getElem?_set_self (List.getElem?_eq_some_iff.mp hi).1)
    (hquiet h.quiet) ?_ ?_ (alone_set halone _ _) (hset _) ?_
  · intro t ht
    rcases List.mem_or_eq_of_mem_set ht with ht | rfl
    · exact h.within t ht
    · exact hwithin
  · intro j r hji hj
    rw [List.getElem?_set_ne (Ne.symm hji)] at hj
    exact h.ok r (List.mem_of_getElem? hj)
  · rw [Prog.wp, Prog.run_advance]
    exact hends

/-- A step of a call while all others rest. -/
theorem Orderly.alone (hrules : S.Rules Quiet Ok Inv cost budget) {w : State σ ε ρ}
    (h : Orderly Quiet Ok Inv cost budget w) {i : ℕ} (halone : Alone w i) :
    Orderly Quiet Ok Inv cost budget (S.step w i) := by
  cases hi : w.threads[i]? with
  | none => rwa [S.step_of_none hi]
  | some q =>
  obtain ⟨others, htotal, hset⟩ := exists_others cost hi
  have hunchanged : S.advance q w.state = q.advance w.state →
      q.wp (Ends Ok Inv cost budget others) w.state →
      Orderly Quiet Ok Inv cost budget (S.step w i) :=
    h.goes hi halone hset (h.within q (List.mem_of_getElem? hi))
  rcases h.held with ⟨hrest, u, hinv, hu⟩ | ⟨k, p, hk, hmid, halone', hends⟩
  · have hq := hrest q (List.mem_of_getElem? hi)
    cases q with
    | ret r =>
        have hr := h.ok r (List.mem_of_getElem? hi)
        have hcost : restCost cost (.ret r : Prog σ ε ρ) = cost r := rfl
        rw [hcost] at htotal
        cases hnext : S.next r with
        | none =>
            refine hunchanged (by rw [advance, hnext]; rfl) fun r' hr' => ?_
            obtain rfl := Except.ok.inj hr'
            exact ⟨hr, u, hinv, by omega⟩
        | some p =>
            refine h.goes hi halone hset (hrules.quiet r p hnext) (by rw [advance, hnext])
              fun r' hr' => ?_
            have hrun : p.run w.state = (.ok r', (p.run w.state).2) := Prod.ext hr' rfl
            obtain ⟨u', hinv', hu'⟩ := hrules.inv r p u _ r' _ hnext hr hinv (by omega) hrun
            exact ⟨(hrules.ok r p _ r' _ hnext h.quiet hr hrun).1, u', hinv', by omega⟩
    | raise e => exact hq.elim
    | step act rest => exact hq.elim
  · -- the section that is open is the one of the call that goes on
    obtain rfl : k = i := by
      by_contra hki
      have hklt := (List.getElem?_eq_some_iff.mp hk).1
      exact hmid (halone k hklt hki p hk)
    obtain rfl := Option.some.inj (hi.symm.trans hk)
    have hzero : total cost w.threads = others := by
      cases q with
      | ret r => exact absurd trivial hmid
      | raise e => exact htotal
      | step act rest => exact htotal
    rw [hzero] at hends
    cases q with
    | ret r => exact absurd trivial hmid
    | raise e => exact hunchanged rfl hends
    | step act rest => exact hunchanged rfl hends

/-- Along an exclusive schedule the pool stays orderly. -/
theorem Exclusive.orderly (hrules : S.Rules Quiet Ok Inv cost budget) {w : State σ ε ρ}
    (h : Orderly Quiet Ok Inv cost budget w) {schedule : List ℕ}
    (hexclusive : S.Exclusive w schedule) :
    Orderly Quiet Ok Inv cost budget (S.steps w schedule) := by
  induction schedule generalizing w with
  | nil => exact h
  | cons i schedule ih =>
      refine ih ?_ fun before j after hsplit => ?_
      · rcases hexclusive [] i schedule rfl with halone | hmomentary
        · exact h.alone hrules halone
        · exact h.momentary hrules hmomentary
      · exact hexclusive (i :: before) j after (congrArg (i :: ·) hsplit)

/-- When all calls of an exclusive schedule have returned, the invariant holds. -/
theorem inv_of_exclusive (hrules : S.Rules Quiet Ok Inv cost budget) {calls : List ρ} {s : σ}
    (hs : Quiet s) (hcalls : ∀ r ∈ calls, Ok r) {u : ℕ} (hinv : Inv u s)
    (hbudget : u + (calls.map cost).sum ≤ budget) {schedule : List ℕ}
    (hexclusive : S.Exclusive (init calls s) schedule)
    (hdone : ∀ thread ∈ ((S.eraseState (init calls s)).steps schedule).threads,
      thread.2.Returned) :
    ∃ u', Inv u' ((S.eraseState (init calls s)).steps schedule).state := by
  have hinit : Orderly Quiet Ok Inv cost budget (init calls s : State σ ε ρ) := by
    refine ⟨hs, ?_, ?_, Or.inl ⟨?_, u, hinv, ?_⟩⟩
    · intro p hp
      obtain ⟨r, -, rfl⟩ := List.mem_map.mp hp
      exact .ret r
    · intro r hr
      obtain ⟨r', hr', heq⟩ := List.mem_map.mp hr
      exact Prog.ret.inj heq ▸ hcalls r' hr'
    · intro p hp
      obtain ⟨r, -, rfl⟩ := List.mem_map.mp hp
      trivial
    · rw [total, init, List.map_map]
      exact hbudget
  rw [← S.erase_steps] at hdone ⊢
  have hheld := (hexclusive.orderly hrules hinit).held
  rcases hheld with ⟨-, u', hinv', -⟩ | ⟨i, p, hi, hmid, -⟩
  · exact ⟨u', hinv'⟩
  · exact absurd (S.returned_of_erase
      (hdone ((), S.erase p) (List.mem_map_of_mem (List.mem_of_getElem? hi)))) hmid

end Invariant

end Sections

end ZkChat
