import MMLMStore.StepRuns

/-!
# Simulation of runs

A system that takes several steps for one step of another. When, from related states, every step
that meets a condition is matched by a short run of the other system that ends in related states, a
whole run is matched by the short runs put together. The relation may depend on a value that the
steps build up.
-/
namespace MMLMStore.RunSimulation

open StepRuns

variable {S A S' A' G : Type*}

theorem isRun_append {step : S → A → S → Prop} {s : S} {run run' : List (A × S)} :
    IsRun step s (run ++ run') ↔ IsRun step s run ∧ IsRun step (final s run) run' := by
  induction run generalizing s with
  | nil => simp [IsRun, final]
  | cons x run ih =>
    obtain ⟨a, t⟩ := x
    simp [IsRun, ih, and_assoc]

theorem final_append (s : S) (run run' : List (A × S)) :
    final s (run ++ run') = final (final s run) run' := by
  induction run generalizing s with
  | nil => rfl
  | cons x run ih => exact ih x.2

def built (f : G → S → A → S → G) : G → S → List (A × S) → G
  | g, _, [] => g
  | g, s, (a, t) :: run => built f (f g s a t) t run

@[simp] theorem built_cons (f : G → S → A → S → G) (g : G) (s : S) (a : A) (t : S)
    (run : List (A × S)) : built f g s ((a, t) :: run) = built f (f g s a t) t run := rfl

/-- What a simulation shows of one step: `f` builds up the value, `R` relates the states, `C` is the
condition on the step, and `L` says what the matching run looks like. -/
def Simulates (step : S → A → S → Prop) (step' : S' → A' → S' → Prop) (f : G → S → A → S → G)
    (R : G → S → S' → Prop) (C : G → S → A → Prop) (L : G → A → List (A' × S') → Prop) : Prop :=
  ∀ g s a t s', R g s s' → step s a t → C g s a →
    ∃ run', IsRun step' s' run' ∧ L (f g s a t) a run' ∧ R (f g s a t) t (final s' run')

variable {step : S → A → S → Prop} {step' : S' → A' → S' → Prop} {f : G → S → A → S → G}
  {R : G → S → S' → Prop} {C : G → S → A → Prop} {L : G → A → List (A' × S') → Prop}

/-- A run is matched piece by piece, one for each of its steps. -/
theorem Simulates.run (h : Simulates step step' f R C L) {g : G} {s : S} {s' : S'}
    {run : List (A × S)} (hrun : IsRun step s run) (hs : R g s s')
    (hC : ∀ x ∈ ghosts f g s run, C x.1 x.2.1 x.2.2.1) :
    ∃ runs' : List (List (A' × S')), IsRun step' s' runs'.flatten ∧
      List.Forall₂ (fun x run' => L (f x.1 x.2.1 x.2.2.1 x.2.2.2) x.2.2.1 run') (ghosts f g s run)
        runs' ∧
      R (built f g s run) (final s run) (final s' runs'.flatten) := by
  induction run generalizing g s s' with
  | nil => exact ⟨[], trivial, .nil, hs⟩
  | cons x run ih =>
    obtain ⟨a, t⟩ := x
    rw [ghosts_cons, List.forall_mem_cons] at hC
    obtain ⟨run', hrun', hL, ht⟩ := h g s a t s' hs hrun.1 hC.1
    obtain ⟨runs', hruns', hmatch, hend⟩ := ih hrun.2 ht hC.2
    refine ⟨run' :: runs', ?_, .cons hL hmatch, ?_⟩
    · rw [List.flatten_cons, isRun_append]
      exact ⟨hrun', hruns'⟩
    · rw [List.flatten_cons, final_append]
      exact hend

end MMLMStore.RunSimulation
