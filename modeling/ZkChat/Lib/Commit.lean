import ZkChat.Lib.Interleaving
import Mathlib.Data.List.Perm.Basic

set_option autoImplicit false

/-! # Calls that succeed by appending to a log

A call may append its result to a log as its last action: it succeeds when and because it does so,
and if it throws it has appended nothing. However such calls overlap, what they have appended is
what they have returned (`Committed.runs`). -/

namespace ZkChat

namespace Prog

variable {σ ε α β : Type}

/-- Up to the last action, which appends the result, every action is quiet. -/
inductive Commits (Quiet : σ → σ → Prop) (Appends : α → σ → σ → Prop) : Prog σ ε α → Prop
  | raise (e : ε) : Commits Quiet Appends (.raise e)
  | act {act : σ → σ} {next : σ → Prog σ ε α} (hact : ∀ s, Quiet s (act s))
      (hnext : ∀ s, Commits Quiet Appends (next s)) : Commits Quiet Appends (.step act next)
  | commit {act : σ → σ} {next : σ → Prog σ ε α} {a : α} (hact : ∀ s, Appends a s (act s))
      (hnext : ∀ s, next s = .ret a) : Commits Quiet Appends (.step act next)

namespace Commits

variable {Quiet : σ → σ → Prop} {Appends : α → σ → σ → Prop}

/-- A quiet part in front. -/
theorem bind {p : Prog σ ε β} {f : β → Prog σ ε α} (hp : Within Quiet p)
    (hf : ∀ b, Commits Quiet Appends (f b)) : Commits Quiet Appends (p >>= f) := by
  show Commits Quiet Appends (p.bind f)
  induction hp with
  | ret b => exact hf b
  | raise e => exact .raise e
  | step hact _ ih => exact .act hact ih

theorem ofExcept_bind {x : Except ε β} {f : β → Prog σ ε α}
    (hf : ∀ b, x = .ok b → Commits Quiet Appends (f b)) :
    Commits Quiet Appends (Prog.ofExcept x >>= f) := by
  cases x with
  | ok b => exact hf b rfl
  | error e => exact .raise e

/-- The last action. -/
theorem modify_pure {f : σ → σ} {a : α} (h : ∀ s, Appends a s (f s)) :
    Commits Quiet Appends (Prog.modify f >>= fun _ => (pure a : Prog σ ε α)) :=
  .commit h fun _ => rfl

theorem within {R : σ → σ → Prop} {p : Prog σ ε α} (h : Commits Quiet Appends p)
    (hquiet : ∀ s t, Quiet s t → R s t) (happends : ∀ a s t, Appends a s t → R s t) :
    Within R p := by
  induction h with
  | raise e => exact .raise e
  | act hact _ ih => exact .step (fun s => hquiet s _ (hact s)) ih
  | commit hact hnext =>
      refine .step (fun s => happends _ s _ (hact s)) fun s => ?_
      rw [hnext s]
      exact .ret _

end Commits

end Prog

namespace Pool

variable {κ σ ε α : Type}

/-- The result of a call that has returned. -/
def result? (thread : κ × Prog σ ε α) : Option α :=
  match thread.2 with
  | .ret a => some a
  | _ => none

/-- What the calls of the pool have returned so far. -/
def results (pool : Pool κ σ ε α) : List α := pool.threads.filterMap result?

/-- A call that has ended, or goes on to succeed by appending. -/
def Committing (Quiet : σ → σ → Prop) (Appends : α → σ → σ → Prop) (thread : κ × Prog σ ε α) :
    Prop :=
  (∃ a, thread.2 = .ret a) ∨ Prog.Commits Quiet Appends thread.2

/-- What the log is to the actions. -/
structure LoggedBy (log : σ → List α) (Quiet : σ → σ → Prop) (Appends : α → σ → σ → Prop) :
    Prop where
  quiet : ∀ s t, Quiet s t → log t = log s
  appends : ∀ a s t, Appends a s t → log t = log s ++ [a]

variable {log : σ → List α} {Quiet : σ → σ → Prop} {Appends : α → σ → σ → Prop}
  {body : κ → Prog σ ε α} {okStart : κ → Prop}
  {allowed env : σ → σ → Prop} {pool pool' : Pool κ σ ε α}

theorem filterMap_set {γ δ : Type} {g : γ → Option δ} {l : List γ} {i : ℕ} {c c' : γ}
    (h : l[i]? = some c) (hc : g c = none) :
    ((l.set i c').filterMap g).Perm (l.filterMap g ++ (g c').toList) := by
  induction l generalizing i with
  | nil => simp at h
  | cons b l ih =>
      cases i with
      | zero =>
          obtain rfl := Option.some.inj h
          rw [List.set_cons_zero, List.filterMap_cons_none hc]
          cases hc' : g c' with
          | none => simp [List.filterMap_cons_none hc']
          | some d =>
              simp [List.filterMap_cons_some hc', List.perm_append_singleton, List.Perm.symm]
      | succ i =>
          have hrest := ih (by simpa using h)
          rw [List.set_cons_succ]
          cases hb : g b with
          | none => simpa [List.filterMap_cons_none hb] using hrest
          | some d => simpa [List.filterMap_cons_some hb] using hrest.cons d

theorem result?_of_commits {call : κ} {p : Prog σ ε α} (h : Prog.Commits Quiet Appends p) :
    result? (call, p) = none := by
  cases h <;> rfl

/-- One action of a call that has not ended: it appends what it returns, if it returns now. -/
theorem committing_advance (hlog : LoggedBy log Quiet Appends) (call : κ) {p : Prog σ ε α}
    (h : Prog.Commits Quiet Appends p) (s : σ) :
    Committing Quiet Appends (call, (p.advance s).1) ∧
      log (p.advance s).2 = log s ++ (result? (call, (p.advance s).1)).toList := by
  cases h with
  | raise e => exact ⟨.inr (.raise e), by simp [result?, Prog.advance]⟩
  | act hact hnext =>
      refine ⟨.inr (hnext s), ?_⟩
      rw [Prog.advance, result?_of_commits (hnext s)]
      simp [hlog.quiet _ _ (hact s)]
  | commit hact hnext =>
      refine ⟨.inl ⟨_, hnext s⟩, ?_⟩
      simp [Prog.advance, hnext, hlog.appends _ _ _ (hact s), result?]

/-- Every call of the pool commits, and the log holds what was returned. -/
structure Committed (log : σ → List α) (Quiet : σ → σ → Prop) (Appends : α → σ → σ → Prop)
    (pool : Pool κ σ ε α) : Prop where
  threads : ∀ thread ∈ pool.threads, Committing Quiet Appends thread
  results : pool.results.Perm (log pool.state)

theorem Committed.start (h : Committed log Quiet Appends pool) {call : κ} {p : Prog σ ε α}
    (hp : Prog.Commits Quiet Appends p) : Committed log Quiet Appends (pool.start call p) where
  threads thread hthread := by
    rcases List.mem_append.mp hthread with hthread | hthread
    · exact h.threads thread hthread
    · obtain rfl := List.mem_singleton.mp hthread
      exact .inr hp
  results := by
    have hsame : (pool.start call p).results = pool.results := by
      simp [Pool.results, Pool.start, result?_of_commits hp]
    exact hsame ▸ h.results

theorem Committed.step (hlog : LoggedBy log Quiet Appends)
    (h : Committed log Quiet Appends pool) (i : ℕ) :
    Committed log Quiet Appends (pool.step i) := by
  cases hi : pool.threads[i]? with
  | none => rwa [step_of_none hi]
  | some thread =>
      obtain ⟨call, p⟩ := thread
      rw [step_of_some hi]
      rcases h.threads _ (List.mem_of_getElem? hi) with ⟨a, hret⟩ | hcommits
      · obtain rfl : p = .ret a := hret
        have hsame : pool.threads.set i (call, .ret a) = pool.threads := by
          obtain ⟨hlt, heq⟩ := List.getElem?_eq_some_iff.mp hi
          conv_rhs => rw [← List.set_getElem_self hlt, heq]
        simpa [Prog.advance, hsame] using h
      · obtain ⟨hcommitting, hstate⟩ := committing_advance hlog call hcommits pool.state
        refine ⟨fun thread hthread => ?_, ?_⟩
        · rcases List.mem_or_eq_of_mem_set hthread with hthread | rfl
          · exact h.threads thread hthread
          · exact hcommitting
        · show (List.filterMap result? _).Perm _
          rw [hstate]
          exact (filterMap_set hi (result?_of_commits hcommits)).trans (h.results.append_right _)

theorem Committed.of_environment (h : Committed log Quiet Appends pool) {t : σ}
    (ht : log t = log pool.state) : Committed log Quiet Appends { pool with state := t } :=
  ⟨h.threads, by rw [ht]; exact h.results⟩

theorem Committed.of_nil {s : σ} (h : log s = []) :
    Committed log Quiet Appends (⟨[], s⟩ : Pool κ σ ε α) :=
  ⟨by simp, by simp [Pool.results, h]⟩

/-- In every run of committing calls, in an environment that leaves the log alone, what was returned
    is what was appended. -/
theorem Committed.runs (hlog : LoggedBy log Quiet Appends)
    (hbody : ∀ call, okStart call → Prog.Commits Quiet Appends (body call))
    (henv : ∀ s t, env s t → log t = log s) (h : Committed log Quiet Appends pool)
    (hruns : Runs body okStart allowed env pool pool') : Committed log Quiet Appends pool' := by
  induction hruns with
  | refl => exact h
  | tail _ hmove ih =>
      cases hmove with
      | start hok => exact ih.start (hbody _ hok)
      | step _ => exact ih.step hlog _
      | env ht => exact ih.of_environment (henv _ _ ht)

end Pool

end ZkChat
