import Mathlib.Logic.Basic
import Mathlib.Tactic.Common

set_option autoImplicit false

/-! # Resumable programs

An `async` function is a tree of atomic actions on a shared state: between two of them the event
loop may run anything else. `Prog σ ε α` is that tree: it returns, it throws, or it performs one
atomic action and continues with what the action saw.

The same tree has two readings. `Prog.run` performs all of its actions without interruption, which
is the meaning of one call when calls follow one another; the pools of `Lib/Pool.lean` interleave
the actions of many calls. A program is modelled once and both kinds of theorem are about it. -/

namespace ZkChat

theorem Except.bind_ok_iff {ε α β : Type} {x : Except ε α} {f : α → Except ε β} {b : β} :
    (x >>= f) = .ok b ↔ ∃ a, x = .ok a ∧ f a = .ok b := by
  cases x with
  | ok a =>
      constructor
      · exact fun h => ⟨a, rfl, h⟩
      · rintro ⟨a', ha, h⟩
        cases ha
        exact h
  | error e =>
      constructor
      · exact fun h => nomatch h
      · rintro ⟨a, ha, -⟩
        cases ha

/-- A program over the shared state `σ` that may throw `ε` and returns `α`. -/
inductive Prog (σ ε α : Type) where
  /-- The call has returned. -/
  | ret (a : α)
  /-- The call has thrown. -/
  | raise (e : ε)
  /-- One atomic action: the state becomes `act s`, the call goes on as `next s`. -/
  | step (act : σ → σ) (next : σ → Prog σ ε α)

namespace Prog

variable {σ ε α β : Type}

/-- Sequencing: run `p`, hand its result to `f`; an exception of `p` is the whole's. -/
def bind : Prog σ ε α → (α → Prog σ ε β) → Prog σ ε β
  | .ret a, f => f a
  | .raise e, _ => .raise e
  | .step act next, f => .step act (fun s => (next s).bind f)

instance : Monad (Prog σ ε) where
  pure := .ret
  bind := .bind

/-- `try p catch (e) h`. -/
def tryCatch : Prog σ ε α → (ε → Prog σ ε α) → Prog σ ε α
  | .ret a, _ => .ret a
  | .raise e, h => h e
  | .step act next, h => .step act (fun s => (next s).tryCatch h)

instance : MonadExceptOf ε (Prog σ ε) where
  throw := .raise
  tryCatch := .tryCatch

/-- A synchronous computation that may throw; it touches no shared state. -/
def ofExcept : Except ε α → Prog σ ε α
  | .ok a => .ret a
  | .error e => .raise e

/-- One awaited operation that may change the state and may throw. -/
def await (op : σ → Except ε α × σ) : Prog σ ε α :=
  .step (fun s => (op s).2) (fun s => ofExcept (op s).1)

/-- One awaited read. -/
def query (f : σ → α) : Prog σ ε α := .step id (fun s => .ret (f s))

/-- One awaited write. -/
def modify (f : σ → σ) : Prog σ ε Unit := .step f (fun _ => .ret ())

/-- The same program on a larger state, of which it sees and writes one part. -/
def zoom {τ : Type} (get : τ → σ) (set : σ → τ → τ) : Prog σ ε α → Prog τ ε α
  | .ret a => .ret a
  | .raise e => .raise e
  | .step act next => .step (fun t => set (act (get t)) t) (fun t => (next (get t)).zoom get set)

theorem bind_ret (p : Prog σ ε α) : p.bind .ret = p := by
  induction p with
  | ret a => rfl
  | raise e => rfl
  | step act next ih => exact congrArg (step act) (funext ih)

theorem bind_bind {γ : Type} (p : Prog σ ε α) (f : α → Prog σ ε β) (g : β → Prog σ ε γ) :
    (p.bind f).bind g = p.bind fun a => (f a).bind g := by
  induction p with
  | ret a => rfl
  | raise e => rfl
  | step act next ih => exact congrArg (step act) (funext ih)

/-- The call has returned. -/
def Returned : Prog σ ε α → Prop
  | .ret _ => True
  | _ => False

instance : DecidablePred fun p : Prog σ ε α => p.Returned
  | .ret _ => .isTrue trivial
  | .raise _ => .isFalse id
  | .step _ _ => .isFalse id

/-! ## Running a program without interruption -/

/-- The outcome and the final state of a call that nothing interrupts. -/
def run : Prog σ ε α → σ → Except ε α × σ
  | .ret a, s => (.ok a, s)
  | .raise e, s => (.error e, s)
  | .step act next, s => (next s).run (act s)

/-- The state such a call leaves behind. -/
def exec (p : Prog σ ε α) (s : σ) : σ := (p.run s).2

@[simp] theorem run_ret (a : α) (s : σ) : (ret a : Prog σ ε α).run s = (.ok a, s) := rfl

@[simp] theorem run_raise (e : ε) (s : σ) : (raise e : Prog σ ε α).run s = (.error e, s) := rfl

@[simp] theorem run_step (act : σ → σ) (next : σ → Prog σ ε α) (s : σ) :
    (step act next).run s = (next s).run (act s) := rfl

@[simp] theorem run_pure (a : α) (s : σ) : (pure a : Prog σ ε α).run s = (.ok a, s) := rfl

@[simp] theorem run_throw (e : ε) (s : σ) :
    (throw e : Prog σ ε α).run s = (.error e, s) := rfl

@[simp] theorem run_query (f : σ → α) (s : σ) :
    (query f : Prog σ ε α).run s = (.ok (f s), s) := rfl

@[simp] theorem run_modify (f : σ → σ) (s : σ) :
    (modify f : Prog σ ε Unit).run s = (.ok (), f s) := rfl

@[simp] theorem run_ofExcept (x : Except ε α) (s : σ) :
    (ofExcept x : Prog σ ε α).run s = (x, s) := by
  cases x <;> rfl

@[simp] theorem run_await (op : σ → Except ε α × σ) (s : σ) : (await op).run s = op s := by
  simp [await]

/-- The rule for sequencing: the second part starts in the state the first one leaves. -/
theorem run_bind (p : Prog σ ε α) (f : α → Prog σ ε β) (s : σ) :
    (p >>= f).run s = match p.run s with
      | (.ok a, s') => (f a).run s'
      | (.error e, s') => (.error e, s') := by
  show (p.bind f).run s = _
  induction p generalizing s with
  | ret a => rfl
  | raise e => rfl
  | step act next ih => exact ih s (act s)

theorem run_bind_of_ok {p : Prog σ ε α} {f : α → Prog σ ε β} {s s' : σ} {a : α}
    (h : p.run s = (.ok a, s')) : (p >>= f).run s = (f a).run s' := by
  rw [run_bind, h]

theorem run_bind_of_error {p : Prog σ ε α} {f : α → Prog σ ε β} {s s' : σ} {e : ε}
    (h : p.run s = (.error e, s')) : (p >>= f).run s = (.error e, s') := by
  rw [run_bind, h]

@[simp] theorem run_query_bind (f : σ → α) (g : α → Prog σ ε β) (s : σ) :
    (query f >>= g).run s = (g (f s)).run s := rfl

@[simp] theorem run_modify_bind (f : σ → σ) (g : Unit → Prog σ ε β) (s : σ) :
    (modify f >>= g).run s = (g ()).run (f s) := rfl

@[simp] theorem run_ofExcept_ok_bind (a : α) (g : α → Prog σ ε β) (s : σ) :
    (ofExcept (.ok a) >>= g).run s = (g a).run s := rfl

@[simp] theorem run_ofExcept_error_bind (e : ε) (g : α → Prog σ ε β) (s : σ) :
    (ofExcept (.error e) >>= g).run s = (.error e, s) := rfl

/-- The run of a sequence that returns splits into the run of its parts. -/
theorem run_bind_ok_iff {p : Prog σ ε α} {f : α → Prog σ ε β} {s s'' : σ} {b : β} :
    (p >>= f).run s = (.ok b, s'') ↔
      ∃ a s', p.run s = (.ok a, s') ∧ (f a).run s' = (.ok b, s'') := by
  rw [run_bind]
  rcases p.run s with ⟨_ | a, s'⟩ <;> simp

/-- The rule for `try`: the handler starts in the state in which the exception was thrown. -/
theorem run_tryCatch (p : Prog σ ε α) (h : ε → Prog σ ε α) (s : σ) :
    (p.tryCatch h).run s = match p.run s with
      | (.ok a, s') => (.ok a, s')
      | (.error e, s') => (h e).run s' := by
  induction p generalizing s with
  | ret a => rfl
  | raise e => rfl
  | step act next ih => exact ih s (act s)

theorem run_tryCatch_of_ok {p : Prog σ ε α} {h : ε → Prog σ ε α} {s s' : σ} {a : α}
    (hp : p.run s = (.ok a, s')) : (p.tryCatch h).run s = (.ok a, s') := by
  rw [run_tryCatch, hp]

theorem run_tryCatch_of_error {p : Prog σ ε α} {h : ε → Prog σ ε α} {s s' : σ} {e : ε}
    (hp : p.run s = (.error e, s')) : (p.tryCatch h).run s = (h e).run s' := by
  rw [run_tryCatch, hp]

/-- On the part it sees a program does what it does alone; the rest stays. -/
theorem run_zoom {τ : Type} {get : τ → σ} {set : σ → τ → τ} (hget : ∀ s t, get (set s t) = s)
    (hset : ∀ s s' t, set s' (set s t) = set s' t) (hself : ∀ t, set (get t) t = t)
    (p : Prog σ ε α) (t : τ) :
    (p.zoom get set).run t = ((p.run (get t)).1, set (p.run (get t)).2 t) := by
  induction p generalizing t with
  | ret a => simp [zoom, hself]
  | raise e => simp [zoom, hself]
  | step act next ih =>
      show ((next (get t)).zoom get set).run (set (act (get t)) t) = _
      rw [ih, hget, hset]
      rfl

/-- A sequence whose last part always throws always throws. -/
theorem run_bind_throws {p : Prog σ ε α} {f : α → Prog σ ε β}
    (h : ∀ a s, ∃ e, ((f a).run s).1 = .error e) (s : σ) : ∃ e, ((p >>= f).run s).1 = .error e := by
  rw [run_bind]
  rcases p.run s with ⟨e | a, s'⟩
  · exact ⟨e, rfl⟩
  · exact h a s'

/-! ## Postconditions -/

/-- After an uninterrupted run from `s`, whether it returns or throws, `Q` holds of the outcome and
    the final state. -/
def wp (p : Prog σ ε α) (Q : Except ε α → σ → Prop) (s : σ) : Prop := Q (p.run s).1 (p.run s).2

variable {Q Q' : Except ε α → σ → Prop}

theorem wp_of_run {p : Prog σ ε α} {s s' : σ} {r : Except ε α} (h : p.run s = (r, s'))
    (hQ : Q r s') : p.wp Q s := by
  rwa [wp, h]

/-- A program that runs as another one does from another state. -/
theorem wp_of_run_eq {p : Prog σ ε α} {q : Prog σ ε α} {s s' : σ} (h : p.run s = q.run s')
    (hQ : q.wp Q s') : p.wp Q s := by
  rwa [wp, h]

theorem wp_mono {p : Prog σ ε α} {s : σ} (h : p.wp Q s) (hQ : ∀ r t, Q r t → Q' r t) :
    p.wp Q' s :=
  hQ _ _ h

theorem wp_and {p : Prog σ ε α} {s : σ} (h : p.wp Q s) (h' : p.wp Q' s) :
    p.wp (fun r t => Q r t ∧ Q' r t) s :=
  ⟨h, h'⟩

@[simp] theorem wp_pure (a : α) (s : σ) : (pure a : Prog σ ε α).wp Q s = Q (.ok a) s := rfl

@[simp] theorem wp_throw (e : ε) (s : σ) : (throw e : Prog σ ε α).wp Q s = Q (.error e) s := rfl

@[simp] theorem wp_ofExcept (x : Except ε α) (s : σ) :
    (ofExcept x : Prog σ ε α).wp Q s = Q x s := by
  simp [wp]

/-- What is left to show of a sequence once its first part has run. -/
def andThen (f : α → Prog σ ε β) (Q : Except ε β → σ → Prop) : Except ε α → σ → Prop
  | .ok a, s => (f a).wp Q s
  | .error e, s => Q (.error e) s

@[simp] theorem andThen_ok (f : α → Prog σ ε β) (Q : Except ε β → σ → Prop) (a : α) (s : σ) :
    andThen f Q (.ok a) s = (f a).wp Q s := rfl

@[simp] theorem andThen_error (f : α → Prog σ ε β) (Q : Except ε β → σ → Prop) (e : ε) (s : σ) :
    andThen f Q (.error e) s = Q (.error e) s := rfl

@[simp] theorem wp_bind (p : Prog σ ε α) (f : α → Prog σ ε β) (Q : Except ε β → σ → Prop) (s : σ) :
    (p >>= f).wp Q s = p.wp (andThen f Q) s := by
  unfold wp
  rw [run_bind]
  rcases p.run s with ⟨_ | a, s'⟩ <;> rfl

@[simp] theorem wp_query (f : σ → α) (s : σ) :
    (query f : Prog σ ε α).wp Q s = Q (.ok (f s)) s := rfl

@[simp] theorem wp_modify {Q : Except ε Unit → σ → Prop} (f : σ → σ) (s : σ) :
    (modify f : Prog σ ε Unit).wp Q s = Q (.ok ()) (f s) := rfl

@[simp] theorem wp_await (op : σ → Except ε α × σ) (s : σ) :
    (await op).wp Q s = Q (op s).1 (op s).2 := by
  simp [wp]

/-- The rule for `try`: the handler has to establish the postcondition from where the exception was
    thrown. -/
theorem wp_tryCatch (p : Prog σ ε α) (h : ε → Prog σ ε α) (Q : Except ε α → σ → Prop) (s : σ) :
    (p.tryCatch h).wp Q s = p.wp (fun r s' => match r with
      | .ok a => Q (.ok a) s'
      | .error e => (h e).wp Q s') s := by
  unfold wp
  rw [run_tryCatch]
  rcases p.run s with ⟨_ | a, s'⟩ <;> rfl

/-! ## What every action of a program respects -/

/-- Every atomic action of the program, in whatever state it is performed, is an `R`-step. -/
inductive Within (R : σ → σ → Prop) : Prog σ ε α → Prop
  | ret (a : α) : Within R (.ret a)
  | raise (e : ε) : Within R (.raise e)
  | step {act : σ → σ} {next : σ → Prog σ ε α} (hact : ∀ s, R s (act s))
      (hnext : ∀ s, Within R (next s)) : Within R (.step act next)

namespace Within

variable {R : σ → σ → Prop}

theorem bind {p : Prog σ ε α} {f : α → Prog σ ε β} (hp : Within R p)
    (hf : ∀ a, Within R (f a)) : Within R (p >>= f) := by
  show Within R (p.bind f)
  induction hp with
  | ret a => exact hf a
  | raise e => exact .raise e
  | step hact _ ih => exact .step hact ih

theorem ofExcept (x : Except ε α) : Within R (Prog.ofExcept x : Prog σ ε α) := by
  cases x with
  | ok a => exact .ret a
  | error e => exact .raise e

theorem await {op : σ → Except ε α × σ} (h : ∀ s, R s (op s).2) : Within R (Prog.await op) :=
  .step h (fun _ => ofExcept _)

theorem query (hR : ∀ s, R s s) (f : σ → α) : Within R (Prog.query f : Prog σ ε α) :=
  .step hR (fun _ => .ret _)

theorem modify {f : σ → σ} (h : ∀ s, R s (f s)) : Within R (Prog.modify f : Prog σ ε Unit) :=
  .step h (fun _ => .ret _)

theorem mono {R' : σ → σ → Prop} {p : Prog σ ε α} (hp : Within R p) (h : ∀ s t, R s t → R' s t) :
    Within R' p := by
  induction hp with
  | ret a => exact .ret a
  | raise e => exact .raise e
  | step hact _ ih => exact .step (fun s => h _ _ (hact s)) ih

/-- On a larger state, where the rest of the state does not matter. -/
theorem zoom {τ : Type} {get : τ → σ} {set : σ → τ → τ} {R' : τ → τ → Prop} {p : Prog σ ε α}
    (hp : Within R p) (h : ∀ t s, R (get t) s → R' t (set s t)) : Within R' (p.zoom get set) := by
  induction hp with
  | ret a => exact .ret a
  | raise e => exact .raise e
  | step hact _ ih => exact .step (fun t => h t _ (hact _)) fun t => ih _

/-- An uninterrupted run of a program within a preorder moves the state along it. -/
theorem exec {p : Prog σ ε α} (hp : Within R p) (hrefl : ∀ s, R s s)
    (htrans : ∀ s t u, R s t → R t u → R s u) (s : σ) : R s (p.exec s) := by
  induction hp generalizing s with
  | ret a => exact hrefl s
  | raise e => exact hrefl s
  | step hact _ ih => exact htrans s _ _ (hact s) (ih s _)

end Within

end Prog

end ZkChat
