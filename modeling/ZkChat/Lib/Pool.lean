import ZkChat.Lib.Prog
import Mathlib.Data.List.Basic

set_option autoImplicit false

/-! # Calls that run at the same time

A pool is a list of programs over one state; it performs one atomic action of one program at a
time, in any order. `Triple` is the rule for a single program under interference (rely-guarantee):
while the other programs make `R`-steps only, the program makes `G`-steps only. `Reached.inv` puts
the programs together, for pools in which the programs of one slot take turns. -/

namespace ZkChat

namespace Prog

variable {σ ε α β : Type}

/-! ## One action -/

/-- The next action. A program that has ended stays as it is. -/
def advance : Prog σ ε α → σ → Prog σ ε α × σ
  | .ret a, s => (.ret a, s)
  | .raise e, s => (.raise e, s)
  | .step act next, s => (next s, act s)

/-- An action is the beginning of the uninterrupted run. -/
theorem run_advance (p : Prog σ ε α) (s : σ) : (p.advance s).1.run (p.advance s).2 = p.run s := by
  cases p <;> rfl

theorem Within.advance {R : σ → σ → Prop} {p : Prog σ ε α} (hp : Within R p)
    (hrefl : ∀ s, R s s) (s : σ) : R s (p.advance s).2 ∧ Within R (p.advance s).1 := by
  cases hp with
  | ret a => exact ⟨hrefl s, .ret a⟩
  | raise e => exact ⟨hrefl s, .raise e⟩
  | step hact hnext => exact ⟨hact s, hnext s⟩

/-- The state once `n` actions were performed, or the program has ended: what a process that dies
    at that moment leaves behind. -/
def after : ℕ → Prog σ ε α → σ → σ
  | 0, _, s => s
  | n + 1, p, s => after n (p.advance s).1 (p.advance s).2

@[simp] theorem after_zero (p : Prog σ ε α) (s : σ) : p.after 0 s = s := rfl

@[simp] theorem after_ret (n : ℕ) (a : α) (s : σ) : (ret a : Prog σ ε α).after n s = s := by
  induction n with
  | zero => rfl
  | succ n ih => exact ih

@[simp] theorem after_query_bind_succ (n : ℕ) (f : σ → α) (g : α → Prog σ ε β) (s : σ) :
    (query f >>= g).after (n + 1) s = (g (f s)).after n s := rfl

/-- An operation that succeeds is one action. -/
theorem after_await_bind_succ (n : ℕ) {op : σ → Except ε α × σ} (g : α → Prog σ ε β) {s s' : σ}
    {a : α} (hop : op s = (.ok a, s')) : (await op >>= g).after (n + 1) s = (g a).after n s' := by
  show after n ((ofExcept (op s).1).bind g) (op s).2 = _
  rw [hop]
  rfl

/-! ## Interference -/

/-- Started in a `P`-state, with `R`-steps of others before each of its actions, the program makes
    `G`-steps; where it ends, `Q` holds of the outcome and the state. -/
inductive Triple (R G : σ → σ → Prop) (Q : Except ε α → σ → Prop) : (σ → Prop) → Prog σ ε α → Prop
  | ret {P : σ → Prop} {a : α} (h : ∀ s, P s → Q (.ok a) s) : Triple R G Q P (.ret a)
  | raise {P : σ → Prop} {e : ε} (h : ∀ s, P s → Q (.error e) s) : Triple R G Q P (.raise e)
  | step {P I : σ → Prop} {act : σ → σ} {next : σ → Prog σ ε α} (hpre : ∀ s, P s → I s)
      (hstable : ∀ s t, I s → R s t → I t) (hact : ∀ s, I s → G s (act s))
      (hnext : ∀ s, I s → Triple R G Q (· = act s) (next s)) : Triple R G Q P (.step act next)

namespace Triple

variable {R G : σ → σ → Prop} {Q Q' : Except ε α → σ → Prop} {P P' : σ → Prop} {p : Prog σ ε α}

theorem pre (h : Triple R G Q P p) (hP : ∀ s, P' s → P s) : Triple R G Q P' p := by
  cases h with
  | ret h => exact .ret fun s hs => h s (hP s hs)
  | raise h => exact .raise fun s hs => h s (hP s hs)
  | step hpre hstable hact hnext => exact .step (fun s hs => hpre s (hP s hs)) hstable hact hnext

/-- The rule for sequencing. -/
theorem bind {f : α → Prog σ ε β} {Q' : Except ε β → σ → Prop} (hp : Triple R G Q P p)
    (hf : ∀ a, Triple R G Q' (Q (.ok a)) (f a)) (he : ∀ e s, Q (.error e) s → Q' (.error e) s) :
    Triple R G Q' P (p >>= f) := by
  show Triple R G Q' P (p.bind f)
  induction hp with
  | ret h => exact (hf _).pre h
  | raise h => exact .raise fun s hs => he _ s (h s hs)
  | step hpre hstable hact _ ih => exact .step hpre hstable hact ih

theorem ofExcept {x : Except ε α} (h : ∀ s, P s → Q x s) :
    Triple R G Q P (Prog.ofExcept x : Prog σ ε α) := by
  cases x with
  | ok a => exact .ret h
  | error e => exact .raise h

/-- A pure part in front: where it throws, there is nothing left to do. -/
theorem ofExcept_bind {x : Except ε β} {f : β → Prog σ ε α}
    (hf : ∀ b, x = .ok b → Triple R G Q P (f b))
    (he : ∀ e, x = .error e → ∀ s, P s → Q (.error e) s) :
    Triple R G Q P (Prog.ofExcept x >>= f) := by
  cases x with
  | ok b => exact hf b rfl
  | error e => exact .raise (he e rfl)

theorem await {op : σ → Except ε α × σ} (hstable : ∀ s t, P s → R s t → P t)
    (hact : ∀ s, P s → G s (op s).2) (h : ∀ s, P s → Q (op s).1 (op s).2) :
    Triple R G Q P (Prog.await op) :=
  .step (fun _ => id) hstable hact fun s hs => .ofExcept fun _ ht => ht ▸ h s hs

theorem query {f : σ → α} (hstable : ∀ s t, P s → R s t → P t) (hrefl : ∀ s, G s s)
    (h : ∀ s, P s → Q (.ok (f s)) s) : Triple R G Q P (Prog.query f : Prog σ ε α) :=
  .step (fun _ => id) hstable (fun s _ => hrefl s) fun s hs => .ret fun _ ht => ht ▸ h s hs

theorem modify {f : σ → σ} {Q : Except ε Unit → σ → Prop} (hstable : ∀ s t, P s → R s t → P t)
    (hact : ∀ s, P s → G s (f s)) (h : ∀ s, P s → Q (.ok ()) (f s)) :
    Triple R G Q P (Prog.modify f : Prog σ ε Unit) :=
  .step (fun _ => id) hstable hact fun s hs => .ret fun _ ht => ht ▸ h s hs

end Triple

/-- What the actions of a program and the interference leave alone holds throughout. -/
theorem Within.triple {R G S : σ → σ → Prop} {I : σ → Prop} {p : Prog σ ε α} (hp : Within S p)
    (hG : ∀ s t, S s t → G s t) (hstable : ∀ s t, I s → R s t → I t)
    (hkeep : ∀ s t, I s → S s t → I t) : Triple R G (fun _ => I) I p := by
  induction hp with
  | ret a => exact .ret fun _ => id
  | raise e => exact .raise fun _ => id
  | step hact _ ih =>
      exact .step (fun _ => id) hstable (fun s _ => hG _ _ (hact s))
        fun s hs => (ih s).pre fun t ht => ht ▸ hkeep _ _ hs (hact s)

/-- From the state `s` on, the program makes `G`-steps whatever `R`-steps the others make. -/
def Safe (R G : σ → σ → Prop) (p : Prog σ ε α) (s : σ) : Prop :=
  ∃ I : σ → Prop, I s ∧ (∀ s t, I s → R s t → I t) ∧ Triple R G (fun _ _ => True) I p

namespace Safe

variable {R G : σ → σ → Prop} {p : Prog σ ε α} {s t : σ}

theorem of_triple {P : σ → Prop} (h : Triple R G (fun _ _ => True) P p) (hs : P s) :
    Safe R G p s := by
  cases h with
  | ret h => exact ⟨fun _ => True, trivial, fun _ _ _ _ => trivial, .ret fun _ _ => trivial⟩
  | raise h => exact ⟨fun _ => True, trivial, fun _ _ _ _ => trivial, .raise fun _ _ => trivial⟩
  | step hpre hstable hact hnext =>
      exact ⟨_, hpre s hs, hstable, .step (fun _ => id) hstable hact hnext⟩

/-- A step of another program. -/
theorem interfere (h : Safe R G p s) (hR : R s t) : Safe R G p t := by
  obtain ⟨I, hs, hstable, htriple⟩ := h
  exact ⟨I, hstable s t hs hR, hstable, htriple⟩

/-- A step of the program itself. -/
theorem advance (h : Safe R G p s) (hrefl : ∀ s, G s s) :
    G s (p.advance s).2 ∧ Safe R G (p.advance s).1 (p.advance s).2 := by
  obtain ⟨I, hs, -, htriple⟩ := h
  cases htriple with
  | ret h => exact ⟨hrefl s, of_triple (.ret fun _ _ => trivial) hs⟩
  | raise h => exact ⟨hrefl s, of_triple (.raise fun _ _ => trivial) hs⟩
  | step hpre hstable hact hnext =>
      exact ⟨hact s (hpre s hs), of_triple (hnext s (hpre s hs)) rfl⟩

end Safe

end Prog

/-! ## Pools -/

/-- Programs in the middle of their runs, each with the call it stems from. -/
structure Pool (κ σ ε α : Type) where
  threads : List (κ × Prog σ ε α)
  state : σ

namespace Pool

variable {κ σ ε α : Type}

/-- A new call. -/
def start (pool : Pool κ σ ε α) (call : κ) (p : Prog σ ε α) : Pool κ σ ε α :=
  { pool with threads := pool.threads ++ [(call, p)] }

/-- The next action of the program with this index. -/
def step (pool : Pool κ σ ε α) (i : ℕ) : Pool κ σ ε α :=
  match pool.threads[i]? with
  | none => pool
  | some (call, p) =>
      { threads := pool.threads.set i (call, (p.advance pool.state).1)
        state := (p.advance pool.state).2 }

theorem step_of_some {pool : Pool κ σ ε α} {i : ℕ} {call : κ} {p : Prog σ ε α}
    (h : pool.threads[i]? = some (call, p)) :
    pool.step i = { threads := pool.threads.set i (call, (p.advance pool.state).1)
                    state := (p.advance pool.state).2 } := by
  rw [step, h]

theorem step_of_none {pool : Pool κ σ ε α} {i : ℕ} (h : pool.threads[i]? = none) :
    pool.step i = pool := by
  rw [step, h]

/-- The pools that calls of the program `body` lead to. -/
inductive Reached (body : κ → Prog σ ε α) (init : σ → Prop) (okStart : κ → Prop)
    (okStep : Pool κ σ ε α → ℕ → Prop) : Pool κ σ ε α → Prop
  | init {s : σ} (h : init s) : Reached body init okStart okStep ⟨[], s⟩
  | start {pool : Pool κ σ ε α} (h : Reached body init okStart okStep pool) (call : κ)
      (hok : okStart call) : Reached body init okStart okStep (pool.start call (body call))
  | step {pool : Pool κ σ ε α} (h : Reached body init okStart okStep pool) (i : ℕ)
      (hok : okStep pool i) : Reached body init okStart okStep (pool.step i)

/-- The actions of a schedule, one after another. -/
def steps (pool : Pool κ σ ε α) (schedule : List ℕ) : Pool κ σ ε α := schedule.foldl step pool

theorem Reached.steps {body : κ → Prog σ ε α} {init : σ → Prop} {okStart : κ → Prop}
    {okStep : Pool κ σ ε α → ℕ → Prop} {pool : Pool κ σ ε α}
    (h : Reached body init okStart okStep pool) (schedule : List ℕ)
    (hok : ∀ before i after, schedule = before ++ i :: after → okStep (pool.steps before) i) :
    Reached body init okStart okStep (pool.steps schedule) := by
  induction schedule generalizing pool with
  | nil => exact h
  | cons i schedule ih =>
      refine ih (h.step i (hok [] i schedule rfl)) fun before j after hsplit => ?_
      exact hok (i :: before) j after (congrArg (i :: ·) hsplit)

/-! ## Taking turns -/

section Turns

variable {ι : Type} (body : κ → Prog σ ε α) (slotOf : κ → Option ι) (S : σ → σ → Prop)

/-- The call is not in its section: it has not begun, or has only `S`-steps left. -/
def Settled (thread : κ × Prog σ ε α) : Prop :=
  thread.2 = body thread.1 ∨ Prog.Within S thread.2

/-- A call may begin when the other calls of its slot are settled. -/
def Turn (pool : Pool κ σ ε α) (i : ℕ) : Prop :=
  ∀ call slot, pool.threads[i]? = some (call, body call) → slotOf call = some slot →
    ∀ (j : ℕ) (thread : κ × Prog σ ε α), j ≠ i → pool.threads[j]? = some thread →
      slotOf thread.1 = some slot →
      Settled body S thread

/-- What makes taking turns enough: `S`-steps disturb nobody, a call of a slot makes `G`-steps
    under `R`-interference, and these are harmless to the other slots. -/
structure Discipline (R G : ι → σ → σ → Prop) (okStart : κ → Prop) (Inv : σ → Prop) : Prop where
  refl : ∀ s, S s s
  refl_slot : ∀ i s, G i s s
  disturbs_none : ∀ i s t, S s t → R i s t
  disturbs_own : ∀ i j s t, i ≠ j → G i s t → R j s t
  inv_idle : ∀ s t, S s t → Inv s → Inv t
  inv_slot : ∀ i s t, G i s t → Inv s → Inv t
  idle : ∀ call, okStart call → slotOf call = none → Prog.Within S (body call)
  safe : ∀ call slot, okStart call → slotOf call = some slot →
    ∀ s, Prog.Safe (R slot) (G slot) (body call) s

/-- The invariant of the pool. -/
structure TurnInv (R G : ι → σ → σ → Prop) (okStart : κ → Prop) (Inv : σ → Prop)
    (pool : Pool κ σ ε α) : Prop where
  inv : Inv pool.state
  started : ∀ (i : ℕ) (thread : κ × Prog σ ε α), pool.threads[i]? = some thread → okStart thread.1
  threads : ∀ (i : ℕ) (thread : κ × Prog σ ε α), pool.threads[i]? = some thread →
    Settled body S thread ∨ ∃ slot, slotOf thread.1 = some slot ∧
      Prog.Safe (R slot) (G slot) thread.2 pool.state
  apart : ∀ (i j : ℕ) (a b : κ × Prog σ ε α) (slot : ι), i ≠ j → pool.threads[i]? = some a →
    pool.threads[j]? = some b →
    slotOf a.1 = some slot → slotOf b.1 = some slot → Settled body S a ∨ Settled body S b

variable {body slotOf S} {R G : ι → σ → σ → Prop} {okStart : κ → Prop} {Inv : σ → Prop}
  {pool : Pool κ σ ε α}

theorem TurnInv.start (h : TurnInv body slotOf S R G okStart Inv pool) {call : κ}
    (hok : okStart call) : TurnInv body slotOf S R G okStart Inv (pool.start call (body call)) := by
  have hget : ∀ (i : ℕ) (thread : κ × Prog σ ε α),
      (pool.threads ++ [(call, body call)])[i]? = some thread →
      pool.threads[i]? = some thread ∨ thread = (call, body call) := by
    intro i thread hi
    by_cases hlt : i < pool.threads.length
    · rw [List.getElem?_append_left hlt] at hi
      exact Or.inl hi
    · rw [List.getElem?_append_right (Nat.not_lt.mp hlt)] at hi
      exact Or.inr (List.mem_singleton.mp (List.mem_of_getElem? hi))
  refine ⟨h.inv, ?_, ?_, ?_⟩
  · intro i thread hi
    rcases hget i thread hi with hi | rfl
    · exact h.started i thread hi
    · exact hok
  · intro i thread hi
    rcases hget i thread hi with hi | rfl
    · exact h.threads i thread hi
    · exact Or.inl (Or.inl rfl)
  · intro i j a b slot hij hi hj ha hb
    rcases hget i a hi with hi | rfl
    · rcases hget j b hj with hj | rfl
      · exact h.apart i j a b slot hij hi hj ha hb
      · exact Or.inr (Or.inl rfl)
    · exact Or.inl (Or.inl rfl)

/-- An action of the call at `i`: its thread has to be settled or safe again, and the threads of
    the other calls settled or undisturbed. -/
theorem TurnInv.set (h : TurnInv body slotOf S R G okStart Inv pool) {i : ℕ} {call : κ}
    {p p' : Prog σ ε α} {s' : σ} (hi : pool.threads[i]? = some (call, p)) (hinv : Inv s')
    (hown : Settled body S (call, p') ∨ ∃ slot, slotOf call = some slot ∧
      Prog.Safe (R slot) (G slot) p' s')
    (hothers : ∀ (j : ℕ) (thread : κ × Prog σ ε α) (slot : ι), j ≠ i →
      pool.threads[j]? = some thread → slotOf thread.1 = some slot →
        Settled body S thread ∨ R slot pool.state s')
    (hapart : ∀ (j : ℕ) (thread : κ × Prog σ ε α) (slot : ι), j ≠ i →
      pool.threads[j]? = some thread → slotOf thread.1 = some slot → slotOf call = some slot →
        Settled body S (call, p') ∨ Settled body S thread) :
    TurnInv body slotOf S R G okStart Inv
      { threads := pool.threads.set i (call, p'), state := s' } := by
  have hget : ∀ (j : ℕ) (thread : κ × Prog σ ε α),
      (pool.threads.set i (call, p'))[j]? = some thread →
      j = i ∧ thread = (call, p') ∨ j ≠ i ∧ pool.threads[j]? = some thread := by
    intro j thread hj
    by_cases hji : j = i
    · subst hji
      rw [List.getElem?_set_self (List.getElem?_eq_some_iff.mp hi).1] at hj
      exact Or.inl ⟨rfl, (Option.some.inj hj).symm⟩
    · rw [List.getElem?_set_ne (Ne.symm hji)] at hj
      exact Or.inr ⟨hji, hj⟩
  refine ⟨hinv, ?_, ?_, ?_⟩
  · intro j thread hj
    rcases hget j thread hj with ⟨rfl, rfl⟩ | ⟨-, hj⟩
    · exact h.started _ (call, p) hi
    · exact h.started j thread hj
  · intro j thread hj
    rcases hget j thread hj with ⟨rfl, rfl⟩ | ⟨hji, hj⟩
    · exact hown
    · rcases h.threads j thread hj with hset | ⟨slot, hslot, hsafe⟩
      · exact Or.inl hset
      · rcases hothers j thread slot hji hj hslot with hset | hR
        · exact Or.inl hset
        · exact Or.inr ⟨slot, hslot, hsafe.interfere hR⟩
  · intro j k a b slot hjk hj hk ha hb
    rcases hget j a hj with ⟨rfl, rfl⟩ | ⟨hji, hj'⟩
    · rcases hget k b hk with ⟨rfl, -⟩ | ⟨hki, hk'⟩
      · exact absurd rfl hjk
      · exact hapart k b slot hki hk' hb ha
    · rcases hget k b hk with ⟨rfl, rfl⟩ | ⟨hki, hk'⟩
      · exact (hapart j a slot hji hj' ha hb).symm
      · exact h.apart j k a b slot hjk hj' hk' ha hb

/-- A call in its turn that has more than `S`-steps left is in its section, or enters it now; the
    others of its slot are settled. -/
theorem TurnInv.alone (hd : Discipline body slotOf S R G okStart Inv)
    (h : TurnInv body slotOf S R G okStart Inv pool) {i : ℕ} (hturn : Turn body slotOf S pool i)
    {call : κ} {p : Prog σ ε α} (hi : pool.threads[i]? = some (call, p))
    (hidle : ¬ Prog.Within S p) :
    ∃ slot, slotOf call = some slot ∧ Prog.Safe (R slot) (G slot) p pool.state ∧
      ∀ (j : ℕ) (thread : κ × Prog σ ε α), j ≠ i → pool.threads[j]? = some thread →
        slotOf thread.1 = some slot → Settled body S thread := by
  by_cases hbegin : p = body call
  · subst hbegin
    cases hslot : slotOf call with
    | none => exact absurd (hd.idle call (h.started i _ hi) hslot) hidle
    | some slot =>
        exact ⟨slot, rfl, hd.safe call slot (h.started i _ hi) hslot _, hturn call slot hi hslot⟩
  · have hnot : ¬ Settled body S (call, p) := not_or.mpr ⟨hbegin, hidle⟩
    obtain ⟨slot, hslot, hsafe⟩ := (h.threads i _ hi).resolve_left hnot
    refine ⟨slot, hslot, hsafe, fun j thread hji hj hthread => ?_⟩
    exact (h.apart i j _ _ slot (Ne.symm hji) hi hj hslot hthread).resolve_left hnot

/-- One action of a call in its turn. -/
theorem TurnInv.step (hd : Discipline body slotOf S R G okStart Inv)
    (h : TurnInv body slotOf S R G okStart Inv pool) {i : ℕ}
    (hturn : Turn body slotOf S pool i) :
    TurnInv body slotOf S R G okStart Inv (pool.step i) := by
  cases hi : pool.threads[i]? with
  | none => rwa [step_of_none hi]
  | some thread =>
  obtain ⟨call, p⟩ := thread
  rw [step_of_some hi]
  by_cases hidle : Prog.Within S p
  · obtain ⟨hS, hidle'⟩ := hidle.advance hd.refl pool.state
    exact h.set hi (hd.inv_idle _ _ hS h.inv) (Or.inl (Or.inr hidle'))
      (fun _ _ slot _ _ _ => Or.inr (hd.disturbs_none slot _ _ hS))
      (fun _ _ _ _ _ _ _ => Or.inl (Or.inr hidle'))
  · obtain ⟨slot, hslot, hsafe, halone⟩ := h.alone hd hturn hi hidle
    obtain ⟨hG, hsafe'⟩ := hsafe.advance (hd.refl_slot slot)
    refine h.set hi (hd.inv_slot slot _ _ hG h.inv) (Or.inr ⟨slot, hslot, hsafe'⟩) ?_ ?_
    · intro j thread slot' hji hj hthread
      by_cases hsame : slot = slot'
      · exact Or.inl (halone j thread hji hj (hsame ▸ hthread))
      · exact Or.inr (hd.disturbs_own slot slot' _ _ hsame hG)
    · intro j thread slot' hji hj hthread hcall
      obtain rfl := Option.some.inj (hslot.symm.trans hcall)
      exact Or.inr (halone j thread hji hj hthread)

/-- In a pool whose calls take turns the invariant holds of every state. -/
theorem Reached.inv {init : σ → Prop} (hd : Discipline body slotOf S R G okStart Inv)
    (hinit : ∀ s, init s → Inv s)
    (h : Reached body init okStart (Turn body slotOf S) pool) : Inv pool.state := by
  suffices hturn : TurnInv body slotOf S R G okStart Inv pool from hturn.inv
  induction h with
  | init h => exact ⟨hinit _ h, by simp, by simp, by simp⟩
  | start _ call hok ih => exact ih.start hok
  | step _ i hok ih => exact ih.step hd hok

/-- Calls of different slots are always in their turn. -/
theorem turn_of_nodup (h : (pool.threads.map fun thread => slotOf thread.1).Nodup) (i : ℕ) :
    Turn body slotOf S pool i := by
  intro call slot hi hcall j thread hji hj hthread
  refine absurd ?_ hji
  have hget : ∀ (k : ℕ) (t : κ × Prog σ ε α), pool.threads[k]? = some t →
      (pool.threads.map fun thread => slotOf thread.1)[k]? = some (slotOf t.1) := by
    intro k t hk
    rw [List.getElem?_map, hk, Option.map_some]
  have hlt : j < (pool.threads.map fun thread => slotOf thread.1).length := by
    rw [List.length_map]
    exact (List.getElem?_eq_some_iff.mp hj).1
  refine (List.getElem?_inj hlt h).mp ?_
  rw [hget j thread hj, hget i _ hi, hthread, hcall]

theorem map_steps (schedule : List ℕ) (pool : Pool κ σ ε α) :
    (pool.steps schedule).threads.map Prod.fst = pool.threads.map Prod.fst := by
  induction schedule generalizing pool with
  | nil => rfl
  | cons i schedule ih =>
      refine (ih (pool.step i)).trans ?_
      cases hi : pool.threads[i]? with
      | none => rw [step_of_none hi]
      | some thread =>
          obtain ⟨call, p⟩ := thread
          rw [step_of_some hi, List.map_set]
          have hget : (pool.threads.map Prod.fst)[i]? = some call := by
            rw [List.getElem?_map, hi, Option.map_some]
          obtain ⟨hlt, heq⟩ := List.getElem?_eq_some_iff.mp hget
          conv_rhs => rw [← List.set_getElem_self hlt, heq]

/-- Calls of different slots may run in any order. -/
theorem Reached.steps_of_nodup {init : σ → Prop}
    (h : Reached body init okStart (Turn body slotOf S) pool)
    (hslots : (pool.threads.map fun thread => slotOf thread.1).Nodup) (schedule : List ℕ) :
    Reached body init okStart (Turn body slotOf S) (pool.steps schedule) := by
  refine h.steps schedule fun before i after _ => turn_of_nodup ?_ i
  have hmap : ∀ threads : List (κ × Prog σ ε α), (threads.map fun thread => slotOf thread.1)
      = (threads.map Prod.fst).map slotOf := fun threads => List.map_map.symm
  rwa [hmap, map_steps, ← hmap]

end Turns

end Pool

end ZkChat
