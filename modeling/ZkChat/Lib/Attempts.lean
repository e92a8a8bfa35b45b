import ZkChat.Lib.Prog

set_option autoImplicit false

/-! # Steps whose exceptions are swallowed

A job that goes through several steps, each in a `try` of its own that sets a flag as its last
statement and whose handler only goes on. Such a job always returns; its flag says whether some step
completed (`run_attempts`), and nothing about what a step did before it threw. -/

namespace ZkChat

namespace Prog

variable {σ ε β : Type}

/-- `try { p; flag = true } catch { }`. -/
def attempt (p : Prog σ ε Unit) (flag : Bool) : Prog σ ε Bool :=
  .tryCatch (do p; pure true) fun _ => pure flag

/-- One step after another. -/
def attempts : List (Prog σ ε Unit) → Bool → Prog σ ε Bool
  | [], flag => pure flag
  | p :: ps, flag => do
      let flag ← attempt p flag
      attempts ps flag

/-- The state after all the steps. -/
def execAll : List (Prog σ ε Unit) → σ → σ
  | [], s => s
  | p :: ps, s => execAll ps (p.exec s)

/-- Some step does not throw where it starts. -/
def SomeCompletes : List (Prog σ ε Unit) → σ → Prop
  | [], _ => False
  | p :: ps, s => (p.run s).1 = .ok () ∨ SomeCompletes ps (p.exec s)

theorem run_attempt (p : Prog σ ε Unit) (flag : Bool) (s : σ) :
    ∃ b, (attempt p flag).run s = (.ok b, p.exec s) ∧
      (b = true ↔ (p.run s).1 = .ok () ∨ flag = true) := by
  unfold attempt exec
  rw [run_tryCatch, run_bind]
  rcases p.run s with ⟨e | u, s'⟩
  · exact ⟨flag, rfl, by simp⟩
  · exact ⟨true, rfl, by simp⟩

/-- Such a job returns, and its flag is set exactly when a step completed. -/
theorem run_attempts (ps : List (Prog σ ε Unit)) (flag : Bool) (s : σ) :
    ∃ b, (attempts ps flag).run s = (.ok b, execAll ps s) ∧
      (b = true ↔ SomeCompletes ps s ∨ flag = true) := by
  induction ps generalizing flag s with
  | nil => exact ⟨flag, rfl, by simp [SomeCompletes]⟩
  | cons p ps ih =>
      obtain ⟨b, hrun, hb⟩ := run_attempt p flag s
      obtain ⟨b', hrest, hb'⟩ := ih b (p.exec s)
      refine ⟨b', (run_bind_of_ok hrun).trans hrest, hb'.trans ?_⟩
      rw [hb, SomeCompletes, or_left_comm, or_assoc]

theorem attempts_append (ps qs : List (Prog σ ε Unit)) (flag : Bool) :
    attempts (ps ++ qs) flag = (do let flag ← attempts ps flag; attempts qs flag) := by
  induction ps generalizing flag with
  | nil => rfl
  | cons p ps ih =>
      rw [List.cons_append]
      simp only [attempts, ih]
      exact (bind_bind _ _ _).symm

/-- A step as it stands in the source: the flag is set after the second of its two parts. -/
theorem tryCatch_eq_attempts {α : Type} (p : Prog σ ε α) (q : Prog σ ε Unit) (flag : Bool) :
    Prog.tryCatch (do let _ ← p; q; pure true) (fun _ => pure flag)
      = attempts [do let _ ← p; q] flag := by
  refine Eq.trans ?_ (bind_ret _).symm
  exact congrArg (fun r => Prog.tryCatch r fun _ => pure flag) (bind_bind p _ _).symm

/-- A step that completes wherever it starts. -/
theorem someCompletes_of_mem {p : Prog σ ε Unit} {ps : List (Prog σ ε Unit)} (hp : p ∈ ps)
    (h : ∀ s, (p.run s).1 = .ok ()) (s : σ) : SomeCompletes ps s := by
  induction ps generalizing s with
  | nil => cases hp
  | cons q ps ih =>
      rcases List.mem_cons.mp hp with rfl | hp
      · exact Or.inl (h s)
      · exact Or.inr (ih hp _)

/-- What every step keeps, whatever becomes of it, is kept by the job. -/
theorem execAll_of_keeps (f : σ → β) {ps : List (Prog σ ε Unit)}
    (h : ∀ p ∈ ps, ∀ s, f (p.exec s) = f s) (s : σ) : f (execAll ps s) = f s := by
  induction ps generalizing s with
  | nil => rfl
  | cons p ps ih => exact (ih (fun q hq => h q (by simp [hq])) _).trans (h p (by simp) s)

/-- A job of steps within a preorder moves the state along it. -/
theorem execAll_within {R : σ → σ → Prop} (hrefl : ∀ s, R s s)
    (htrans : ∀ s t u, R s t → R t u → R s u) {ps : List (Prog σ ε Unit)}
    (h : ∀ p ∈ ps, Within R p) (s : σ) : R s (execAll ps s) := by
  induction ps generalizing s with
  | nil => exact hrefl s
  | cons p ps ih =>
      have hhead := (h p (by simp)).exec hrefl htrans s
      exact htrans _ _ _ hhead (ih (fun q hq => h q (by simp [hq])) _)

end Prog

end ZkChat
