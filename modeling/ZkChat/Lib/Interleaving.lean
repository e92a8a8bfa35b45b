import ZkChat.Lib.Pool
import Mathlib.Data.List.Induction
import Mathlib.Logic.Relation

set_option autoImplicit false

/-! # Pools in an environment

The runs of a pool whose calls overlap freely, in an environment that changes the state by moves of
its own. `allowed` restricts the actions of the calls, as a relation between the states before and
after: a law that holds only of some runs is stated with it.

`Guarantee` is the rule: while the others make `R`-moves, every call makes `G`-moves, and a `G`-move
that is allowed keeps the invariant and is an `R`-move for the others. -/

namespace ZkChat

namespace Prog

variable {σ ε α : Type} {R R' G : σ → σ → Prop} {Q : Except ε α → σ → Prop} {P : σ → Prop}
  {p : Prog σ ε α}

/-- Less interference is tolerated as well. -/
theorem Triple.rely (h : Triple R G Q P p) (hR : ∀ s t, R' s t → R s t) : Triple R' G Q P p := by
  induction h with
  | ret h => exact .ret h
  | raise h => exact .raise h
  | step hpre hstable hact _ ih =>
      exact .step hpre (fun s t hs ht => hstable s t hs (hR s t ht)) hact ih

theorem Triple.post {Q' : Except ε α → σ → Prop} (h : Triple R G Q P p)
    (hQ : ∀ r s, Q r s → Q' r s) : Triple R G Q' P p := by
  induction h with
  | ret h => exact .ret fun s hs => hQ _ s (h s hs)
  | raise h => exact .raise fun s hs => hQ _ s (h s hs)
  | step hpre hstable hact _ ih => exact .step hpre hstable hact ih

/-- The rule for a handler of exceptions. -/
theorem Triple.tryCatch {Q' : Except ε α → σ → Prop} {handler : ε → Prog σ ε α}
    (h : Triple R G Q P p) (hok : ∀ a s, Q (.ok a) s → Q' (.ok a) s)
    (herror : ∀ e, Triple R G Q' (Q (.error e)) (handler e)) :
    Triple R G Q' P (p.tryCatch handler) := by
  induction h with
  | ret h => exact .ret fun s hs => hok _ s (h s hs)
  | raise h => exact (herror _).pre h
  | step hpre hstable hact _ ih => exact .step hpre hstable hact ih

theorem Safe.rely {s : σ} (h : Safe R G p s) (hR : ∀ s t, R' s t → R s t) : Safe R' G p s := by
  obtain ⟨I, hs, hstable, htriple⟩ := h
  exact ⟨I, hs, fun s t ht hst => hstable s t ht (hR s t hst), htriple.rely hR⟩

/-- Whatever happens meanwhile, the program does not end otherwise. -/
inductive Ends (Q : Except ε α → Prop) : Prog σ ε α → Prop
  | ret {a : α} (h : Q (.ok a)) : Ends Q (.ret a)
  | raise {e : ε} (h : Q (.error e)) : Ends Q (.raise e)
  | step {act : σ → σ} {next : σ → Prog σ ε α} (hnext : ∀ s, Ends Q (next s)) :
      Ends Q (.step act next)

namespace Ends

variable {β : Type} {Q : Except ε α → Prop} {p : Prog σ ε α}

theorem advance (h : Ends Q p) (s : σ) : Ends Q (p.advance s).1 := by
  cases h with
  | ret h => exact .ret h
  | raise h => exact .raise h
  | step hnext => exact hnext s

theorem trivial (p : Prog σ ε α) : Ends (fun _ => True) p := by
  induction p with
  | ret a => exact .ret ⟨⟩
  | raise e => exact .raise ⟨⟩
  | step act next ih => exact .step ih

theorem imp {Q' : Except ε α → Prop} (h : Ends Q p) (hQ : ∀ r, Q r → Q' r) : Ends Q' p := by
  induction h with
  | ret h => exact .ret (hQ _ h)
  | raise h => exact .raise (hQ _ h)
  | step _ ih => exact .step ih

theorem ofExcept {x : Except ε α} (h : Q x) : Ends (σ := σ) Q (Prog.ofExcept x) := by
  cases x with
  | ok a => exact .ret h
  | error e => exact .raise h

theorem bind {Q' : Except ε β → Prop} {f : α → Prog σ ε β} (h : Ends Q p)
    (herror : ∀ e, Q (.error e) → Q' (.error e)) (hok : ∀ a, Q (.ok a) → Ends Q' (f a)) :
    Ends Q' (p >>= f) := by
  show Ends Q' (p.bind f)
  induction h with
  | ret h => exact hok _ h
  | raise h => exact .raise (herror _ h)
  | step _ ih => exact .step ih

end Ends

end Prog

namespace Pool

variable {κ σ ε α : Type}

/-- One move of the pool. -/
inductive Move (body : κ → Prog σ ε α) (okStart : κ → Prop) (allowed env : σ → σ → Prop) :
    Pool κ σ ε α → Pool κ σ ε α → Prop
  | start {pool : Pool κ σ ε α} {call : κ} (hok : okStart call) :
      Move body okStart allowed env pool (pool.start call (body call))
  | step {pool : Pool κ σ ε α} {i : ℕ} (hok : allowed pool.state (pool.step i).state) :
      Move body okStart allowed env pool (pool.step i)
  | env {pool : Pool κ σ ε α} {t : σ} (h : env pool.state t) :
      Move body okStart allowed env pool { pool with state := t }

/-- The pools that a run leads to. -/
abbrev Runs (body : κ → Prog σ ε α) (okStart : κ → Prop) (allowed env : σ → σ → Prop) :
    Pool κ σ ε α → Pool κ σ ε α → Prop :=
  Relation.ReflTransGen (Move body okStart allowed env)

/-- The pool in which these calls have been made, and nothing else has happened. -/
def startAll (body : κ → Prog σ ε α) (calls : List κ) (s : σ) : Pool κ σ ε α :=
  ⟨calls.map fun call => (call, body call), s⟩

theorem Runs.startAll {body : κ → Prog σ ε α} {okStart : κ → Prop} {allowed env : σ → σ → Prop}
    {calls : List κ} (hok : ∀ call ∈ calls, okStart call) (s : σ) :
    Runs body okStart allowed env ⟨[], s⟩ (Pool.startAll body calls s) := by
  induction calls using List.reverseRecOn with
  | nil => exact .refl
  | append_singleton calls call ih =>
      have hstart : Pool.startAll body (calls ++ [call]) s
          = (Pool.startAll body calls s).start call (body call) := by
        simp [Pool.startAll, Pool.start]
      rw [hstart]
      exact (ih fun c hc => hok c (List.mem_append_left _ hc)).tail (.start (hok call (by simp)))

/-- A schedule all of whose actions are allowed. -/
theorem Runs.steps_take {body : κ → Prog σ ε α} {okStart : κ → Prop} {allowed env : σ → σ → Prop}
    {pool pool' : Pool κ σ ε α} (h : Runs body okStart allowed env pool pool') {schedule : List ℕ}
    (hok : ∀ n < schedule.length,
      allowed (pool'.steps (schedule.take n)).state (pool'.steps (schedule.take (n + 1))).state) :
    Runs body okStart allowed env pool (pool'.steps schedule) := by
  suffices hprefix : ∀ n ≤ schedule.length,
      Runs body okStart allowed env pool (pool'.steps (schedule.take n)) by
    simpa using hprefix schedule.length (Nat.le_refl _)
  intro n hn
  induction n with
  | zero => exact h
  | succ n ih =>
      have hnext : pool'.steps (schedule.take (n + 1))
          = (pool'.steps (schedule.take n)).step schedule[n] := by
        rw [List.take_succ_eq_append_getElem hn, Pool.steps, List.foldl_append]
        rfl
      have hstep := hok n hn
      rw [hnext] at hstep ⊢
      exact (ih (Nat.le_of_succ_le hn)).tail (.step hstep)

theorem Runs.steps {body : κ → Prog σ ε α} {okStart : κ → Prop} {allowed env : σ → σ → Prop}
    {pool pool' : Pool κ σ ε α} (h : Runs body okStart allowed env pool pool')
    (hok : ∀ s t, allowed s t) (schedule : List ℕ) :
    Runs body okStart allowed env pool (pool'.steps schedule) :=
  h.steps_take fun _ _ => hok _ _

/-- What holds of a call at its start and is kept by its own actions holds of it throughout. -/
theorem Runs.threads {body : κ → Prog σ ε α} {okStart : κ → Prop} {allowed env : σ → σ → Prop}
    {pool pool' : Pool κ σ ε α} (P : κ → Prog σ ε α → Prop)
    (hstart : ∀ call, okStart call → P call (body call))
    (hadvance : ∀ call p s, P call p → P call (p.advance s).1)
    (h : ∀ thread ∈ pool.threads, P thread.1 thread.2)
    (hruns : Runs body okStart allowed env pool pool') :
    ∀ thread ∈ pool'.threads, P thread.1 thread.2 := by
  induction hruns with
  | refl => exact h
  | @tail pool₁ pool₂ _ hmove ih =>
      cases hmove with
      | env _ => exact ih
      | start hok =>
          intro thread hthread
          rcases List.mem_append.mp hthread with hthread | hthread
          · exact ih thread hthread
          · obtain rfl := List.mem_singleton.mp hthread
            exact hstart _ hok
      | @step i _ =>
          cases hi : pool₁.threads[i]? with
          | none => rwa [step_of_none hi]
          | some thread =>
              rw [step_of_some hi]
              intro thread' hthread'
              rcases List.mem_or_eq_of_mem_set hthread' with hthread' | rfl
              · exact ih thread' hthread'
              · exact hadvance _ _ _ (ih _ (List.mem_of_getElem? hi))

/-- The obligations of the rule. -/
structure Guarantee (body : κ → Prog σ ε α) (okStart : κ → Prop) (allowed env : σ → σ → Prop)
    (Inv : σ → Prop) (G R : σ → σ → Prop) : Prop where
  refl : ∀ s, G s s
  safe : ∀ call, okStart call → ∀ s, Inv s → Prog.Safe R G (body call) s
  step : ∀ s t, Inv s → G s t → allowed s t → Inv t ∧ R s t
  env : ∀ s t, Inv s → env s t → Inv t ∧ R s t

/-- What holds of the pool throughout. -/
structure Kept (Inv : σ → Prop) (G R : σ → σ → Prop) (pool : Pool κ σ ε α) : Prop where
  inv : Inv pool.state
  threads : ∀ thread ∈ pool.threads, Prog.Safe R G thread.2 pool.state

variable {body : κ → Prog σ ε α} {okStart : κ → Prop} {allowed env : σ → σ → Prop}
  {Inv : σ → Prop} {G R : σ → σ → Prop} {pool pool' : Pool κ σ ε α}

theorem Kept.of_nil {s : σ} (h : Inv s) : Kept (κ := κ) (ε := ε) (α := α) Inv G R ⟨[], s⟩ :=
  ⟨h, by simp⟩

/-- A move of the pool keeps it and is, if it changes the state, an `R`-move. -/
theorem Kept.move (hg : Guarantee body okStart allowed env Inv G R) (h : Kept Inv G R pool)
    (hmove : Move body okStart allowed env pool pool') :
    Kept Inv G R pool' ∧ (pool'.state = pool.state ∨ R pool.state pool'.state) := by
  cases hmove with
  | start hok =>
      refine ⟨⟨h.inv, fun thread hthread => ?_⟩, .inl rfl⟩
      rcases List.mem_append.mp hthread with hthread | hthread
      · exact h.threads thread hthread
      · obtain rfl := List.mem_singleton.mp hthread
        exact hg.safe _ hok _ h.inv
  | env henv =>
      obtain ⟨hinv, hR⟩ := hg.env _ _ h.inv henv
      exact ⟨⟨hinv, fun thread hthread => (h.threads thread hthread).interfere hR⟩, .inr hR⟩
  | @step i hok =>
      cases hi : pool.threads[i]? with
      | none =>
          rw [step_of_none hi]
          exact ⟨h, .inl rfl⟩
      | some thread =>
          obtain ⟨call, p⟩ := thread
          rw [step_of_some hi] at hok ⊢
          have hmem : (call, p) ∈ pool.threads := List.mem_of_getElem? hi
          obtain ⟨hG, hsafe⟩ := (h.threads _ hmem).advance hg.refl
          obtain ⟨hinv, hR⟩ := hg.step _ _ h.inv hG hok
          refine ⟨⟨hinv, fun thread hthread => ?_⟩, .inr hR⟩
          rcases List.mem_or_eq_of_mem_set hthread with hthread | rfl
          · exact (h.threads thread hthread).interfere hR
          · exact hsafe

/-- What a run keeps, and how it moves the state. -/
theorem Kept.runs (hg : Guarantee body okStart allowed env Inv G R) (h : Kept Inv G R pool)
    (hruns : Runs body okStart allowed env pool pool') :
    Kept Inv G R pool' ∧ Relation.ReflTransGen R pool.state pool'.state := by
  induction hruns with
  | refl => exact ⟨h, .refl⟩
  | tail _ hmove ih =>
      obtain ⟨hkept, hsame | hR⟩ := ih.1.move hg hmove
      · exact ⟨hkept, hsame ▸ ih.2⟩
      · exact ⟨hkept, ih.2.tail hR⟩

/-- The invariant holds of every state of a run that starts with no call. -/
theorem Guarantee.inv {s : σ} (hg : Guarantee body okStart allowed env Inv G R) (hs : Inv s)
    (hruns : Runs body okStart allowed env ⟨[], s⟩ pool) : Inv pool.state :=
  ((Kept.of_nil hs).runs hg hruns).1.inv

end Pool

end ZkChat
