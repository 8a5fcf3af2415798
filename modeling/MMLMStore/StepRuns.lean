import Mathlib

/-!
# Runs of labelled step relations

A run from a state is the list of the actions taken with the states they lead to. Two rules are
enough for the uses here: an invariant that each step preserves under a condition on the step,
and its exact form, where the condition is also necessary.
-/
namespace MMLMStore.StepRuns

variable {S A : Type*}

def IsRun (step : S → A → S → Prop) : S → List (A × S) → Prop
  | _, [] => True
  | s, (a, t) :: run => step s a t ∧ IsRun step t run

instance decidableIsRun (step : S → A → S → Prop) [∀ s a t, Decidable (step s a t)] :
    ∀ (s : S) (run : List (A × S)), Decidable (IsRun step s run)
  | _, [] => isTrue trivial
  | s, (a, t) :: run =>
    have := decidableIsRun step t run
    inferInstanceAs (Decidable (step s a t ∧ IsRun step t run))

def states (s : S) (run : List (A × S)) : List S := s :: run.map Prod.snd

def transitions : S → List (A × S) → List (S × A × S)
  | _, [] => []
  | s, (a, t) :: run => (s, a, t) :: transitions t run

@[simp] theorem states_cons (s : S) (a : A) (t : S) (run : List (A × S)) :
    states s ((a, t) :: run) = s :: states t run := rfl

@[simp] theorem transitions_cons (s : S) (a : A) (t : S) (run : List (A × S)) :
    transitions s ((a, t) :: run) = (s, a, t) :: transitions t run := rfl

variable {step : S → A → S → Prop}

theorem step_of_transition {s : S} {run : List (A × S)} (hrun : IsRun step s run) :
    ∀ x ∈ transitions s run, step x.1 x.2.1 x.2.2 := by
  induction run generalizing s with
  | nil => simp [transitions]
  | cons x run ih =>
    obtain ⟨a, t⟩ := x
    rw [transitions_cons, List.forall_mem_cons]
    exact ⟨hrun.1, ih hrun.2⟩

theorem mem_states_of_transition {s : S} {run : List (A × S)} {x : S × A × S}
    (hx : x ∈ transitions s run) : x.1 ∈ states s run := by
  induction run generalizing s with
  | nil => simp [transitions] at hx
  | cons y run ih =>
    obtain ⟨a, t⟩ := y
    rcases List.mem_cons.mp hx with rfl | hx
    · exact List.mem_cons_self
    · exact List.mem_cons_of_mem s (ih hx)

theorem IsRun.mono {step' : S → A → S → Prop} (hstep : ∀ s a t, step s a t → step' s a t) {s : S}
    {run : List (A × S)} (hrun : IsRun step s run) : IsRun step' s run := by
  induction run generalizing s with
  | nil => trivial
  | cons x run ih =>
    obtain ⟨a, t⟩ := x
    exact ⟨hstep s a t hrun.1, ih hrun.2⟩

/-- An invariant kept by every step that meets the condition holds throughout a run whose steps
all meet it. -/
theorem invariant {I : S → Prop} {C : S → A → S → Prop}
    (hstep : ∀ s a t, I s → step s a t → C s a t → I t)
    {s : S} {run : List (A × S)} (hrun : IsRun step s run) (hs : I s)
    (hC : ∀ x ∈ transitions s run, C x.1 x.2.1 x.2.2) : ∀ t ∈ states s run, I t := by
  induction run generalizing s with
  | nil => simpa [states] using hs
  | cons x run ih =>
    obtain ⟨a, t⟩ := x
    have ht : I t := hstep s a t hs hrun.1 (hC (s, a, t) (by simp))
    intro u hu
    rcases List.mem_cons.mp hu with rfl | hu
    · exact hs
    · exact ih hrun.2 ht (fun x hx => hC x (by simp [hx])) u hu

theorem invariant_all {I : S → Prop} (hstep : ∀ s a t, I s → step s a t → I t)
    {s : S} {run : List (A × S)} (hrun : IsRun step s run) (hs : I s) :
    ∀ t ∈ states s run, I t :=
  invariant (C := fun _ _ _ => True) (fun s a t hI h _ => hstep s a t hI h) hrun hs
    (fun _ _ => trivial)

/-- Exact form. When, from a good state, a step reaches a good state and behaves well exactly
under the condition, a whole run is good exactly when every step of it meets the condition. -/
theorem good_iff {I P : S → Prop} {Q C : S → A → S → Prop}
    (hI : ∀ s a t, I s → step s a t → I t)
    (hstep : ∀ s a t, I s → P s → step s a t → ((P t ∧ Q s a t) ↔ C s a t))
    {s : S} {run : List (A × S)} (hrun : IsRun step s run) (hs : I s) (hP : P s) :
    ((∀ t ∈ states s run, P t) ∧ ∀ x ∈ transitions s run, Q x.1 x.2.1 x.2.2) ↔
      ∀ x ∈ transitions s run, C x.1 x.2.1 x.2.2 := by
  induction run generalizing s with
  | nil => simp [states, transitions, hP]
  | cons x run ih =>
    obtain ⟨a, t⟩ := x
    have hiff := hstep s a t hs hP hrun.1
    have ht : I t := hI s a t hs hrun.1
    constructor
    · rintro ⟨hall, hQ⟩
      have hPt : P t := hall t (by simp [states])
      have hrest := (ih hrun.2 ht hPt).mp
        ⟨fun u hu => hall u (by simp only [states_cons, List.mem_cons]; exact Or.inr hu),
          fun x hx => hQ x (by simp [hx])⟩
      intro x hx
      rcases List.mem_cons.mp hx with rfl | hx
      · exact hiff.mp ⟨hPt, hQ (s, a, t) (by simp)⟩
      · exact hrest x hx
    · intro hC
      obtain ⟨hPt, hQ⟩ := hiff.mpr (hC (s, a, t) (by simp))
      obtain ⟨hall, hQs⟩ := (ih hrun.2 ht hPt).mpr (fun x hx => hC x (by simp [hx]))
      refine ⟨fun u hu => ?_, fun x hx => ?_⟩
      · rcases List.mem_cons.mp hu with rfl | hu
        · exact hP
        · exact hall u hu
      · rcases List.mem_cons.mp hx with rfl | hx
        · exact hQ
        · exact hQs x hx

/-- Exact form for a property that the invariant implies: when a step keeps the invariant under the
condition and loses the property without it, the property holds throughout a run exactly when
every step of it meets the condition. -/
theorem kept_iff {I P : S → Prop} {C : S → A → S → Prop} (hP : ∀ s, I s → P s)
    (hkeep : ∀ s a t, I s → step s a t → C s a t → I t)
    (hlose : ∀ s a t, I s → step s a t → P t → C s a t)
    {s : S} {run : List (A × S)} (hrun : IsRun step s run) (hs : I s) :
    (∀ t ∈ states s run, P t) ↔ ∀ x ∈ transitions s run, C x.1 x.2.1 x.2.2 := by
  constructor
  · intro hall
    induction run generalizing s with
    | nil => simp [transitions]
    | cons x run ih =>
      obtain ⟨a, t⟩ := x
      rw [states_cons, List.forall_mem_cons] at hall
      have hC := hlose s a t hs hrun.1 (hall.2 t (by simp [states]))
      rw [transitions_cons, List.forall_mem_cons]
      exact ⟨hC, ih hrun.2 (hkeep s a t hs hrun.1 hC) hall.2⟩
  · intro hC t ht
    exact hP t (invariant hkeep hrun hs hC t ht)

/-! Sums along a run. -/

def final : S → List (A × S) → S
  | s, [] => s
  | _, (_, t) :: run => final t run

def total (f : S → A → ℕ) (s : S) (run : List (A × S)) : ℕ :=
  ((transitions s run).map fun x => f x.1 x.2.1).sum

@[simp] theorem final_cons (s : S) (a : A) (t : S) (run : List (A × S)) :
    final s ((a, t) :: run) = final t run := rfl

theorem final_mem_states (s : S) (run : List (A × S)) : final s run ∈ states s run := by
  induction run generalizing s with
  | nil => exact List.mem_singleton_self s
  | cons x run ih => exact List.mem_cons_of_mem s (ih x.2)

@[simp] theorem total_nil (f : S → A → ℕ) (s : S) : total f s [] = 0 := rfl

@[simp] theorem total_cons (f : S → A → ℕ) (s : S) (a : A) (t : S) (run : List (A × S)) :
    total f s ((a, t) :: run) = f s a + total f t run := rfl

theorem total_add (f g : S → A → ℕ) (s : S) (run : List (A × S)) :
    total (fun s a => f s a + g s a) s run = total f s run + total g s run := by
  induction run generalizing s with
  | nil => rfl
  | cons x run ih =>
    obtain ⟨a, t⟩ := x
    rw [total_cons, total_cons, total_cons, ih]
    omega

theorem final_eq_total (I : S → Prop) (value : S → ℕ) (f : S → A → ℕ)
    (hstep : ∀ s a t, I s → step s a t → I t ∧ value t = value s + f s a)
    {s : S} {run : List (A × S)} (hrun : IsRun step s run) (hs : I s) :
    I (final s run) ∧ value (final s run) = value s + total f s run := by
  induction run generalizing s with
  | nil => exact ⟨hs, rfl⟩
  | cons x run ih =>
    obtain ⟨a, t⟩ := x
    obtain ⟨ht, hvalue⟩ := hstep s a t hs hrun.1
    obtain ⟨hfinal, htotal⟩ := ih hrun.2 ht
    refine ⟨hfinal, ?_⟩
    rw [final_cons, total_cons, htotal, hvalue]
    omega

theorem total_eq_iff {f g : S → A → ℕ} (hle : ∀ s a, f s a ≤ g s a) (s : S)
    (run : List (A × S)) :
    total f s run = total g s run ↔ ∀ x ∈ transitions s run, f x.1 x.2.1 = g x.1 x.2.1 := by
  have hsum : ∀ (s : S) (run : List (A × S)), total f s run ≤ total g s run := by
    intro s run
    induction run generalizing s with
    | nil => exact le_refl 0
    | cons x run ih =>
      obtain ⟨a, t⟩ := x
      exact Nat.add_le_add (hle s a) (ih t)
  induction run generalizing s with
  | nil => simp [transitions]
  | cons x run ih =>
    obtain ⟨a, t⟩ := x
    have hhead := hle s a
    have htail := hsum t run
    have hparts : total f s ((a, t) :: run) = total g s ((a, t) :: run) ↔
        f s a = g s a ∧ total f t run = total g t run := by
      rw [total_cons, total_cons]
      omega
    rw [hparts, transitions_cons, List.forall_mem_cons]
    exact and_congr_right fun _ => ih t

/-! Runs with their past. -/

def history : List A → S → List (A × S) → List (List A × S × A × S)
  | _, _, [] => []
  | past, s, (a, t) :: run => (past, s, a, t) :: history (past ++ [a]) t run

@[simp] theorem history_cons (past : List A) (s : S) (a : A) (t : S) (run : List (A × S)) :
    history past s ((a, t) :: run) = (past, s, a, t) :: history (past ++ [a]) t run := rfl

/-- A relation between the past and the state that every step keeps, as long as the states meet
an assumption, holds at every step of a run. -/
theorem history_invariant {R : List A → S → Prop} {H : S → Prop}
    (hstep : ∀ past s a t, R past s → step s a t → H s → H t → R (past ++ [a]) t)
    {past : List A} {s : S} {run : List (A × S)} (hrun : IsRun step s run) (hs : R past s)
    (hH : ∀ t ∈ states s run, H t) :
    ∀ x ∈ history past s run, R x.1 x.2.1 ∧ step x.2.1 x.2.2.1 x.2.2.2 := by
  induction run generalizing past s with
  | nil => simp [history]
  | cons x run ih =>
    obtain ⟨a, t⟩ := x
    have ht : ∀ u ∈ states t run, H u := fun u hu => hH u (List.mem_cons_of_mem _ hu)
    intro y hy
    rcases List.mem_cons.mp hy with rfl | hy
    · exact ⟨hs, hrun.1⟩
    · refine ih hrun.2 (hstep past s a t hs hrun.1 (hH s ?_) (ht t ?_)) ht y hy
      · exact List.mem_cons_self
      · exact List.mem_cons_self

/-- A relation between the past and the state that every step keeps under its condition holds at
every step of a run whose steps meet the condition, and at its end. -/
theorem history_run {R : List A → S → Prop} {C : List A → S → A → Prop}
    (hstep : ∀ past s a t, R past s → step s a t → C past s a → R (past ++ [a]) t)
    {past : List A} {s : S} {run : List (A × S)} (hrun : IsRun step s run) (hs : R past s)
    (hC : ∀ x ∈ history past s run, C x.1 x.2.1 x.2.2.1) :
    (∀ x ∈ history past s run, R x.1 x.2.1 ∧ step x.2.1 x.2.2.1 x.2.2.2) ∧
      R (past ++ run.map Prod.fst) (final s run) := by
  induction run generalizing past s with
  | nil => simpa [history, final] using hs
  | cons x run ih =>
    obtain ⟨a, t⟩ := x
    rw [history_cons, List.forall_mem_cons] at hC
    obtain ⟨hall, hend⟩ := ih hrun.2 (hstep past s a t hs hrun.1 hC.1) hC.2
    rw [history_cons, List.forall_mem_cons]
    refine ⟨⟨⟨hs, hrun.1⟩, hall⟩, ?_⟩
    simpa using hend

/-- The run that a list of actions makes, up to the first that cannot be taken. -/
def trace (next : S → A → Option S) : S → List A → List (A × S)
  | _, [] => []
  | s, a :: actions => (next s a).elim [] fun t => (a, t) :: trace next t actions

theorem isRun_trace (next : S → A → Option S) (s : S) (actions : List A) :
    IsRun (fun s a t => next s a = some t) s (trace next s actions) := by
  induction actions generalizing s with
  | nil => trivial
  | cons a actions ih =>
    unfold trace
    cases h : next s a with
    | none => trivial
    | some t => exact ⟨h, ih t⟩

/-! Runs with a value built up along the way. -/

variable {G : Type*}

/-- Steps taken, each with the value that the steps before it have built up. -/
def ghosts (f : G → S → A → S → G) : G → S → List (A × S) → List (G × S × A × S)
  | _, _, [] => []
  | g, s, (a, t) :: run => (g, s, a, t) :: ghosts f (f g s a t) t run

@[simp] theorem ghosts_cons (f : G → S → A → S → G) (g : G) (s : S) (a : A) (t : S)
    (run : List (A × S)) :
    ghosts f g s ((a, t) :: run) = (g, s, a, t) :: ghosts f (f g s a t) t run := rfl

theorem ghosts_map {H : Type*} {f : G → S → A → S → G} {h : H → S → A → S → H} (part : G → H)
    (hstep : ∀ g s a t, part (f g s a t) = h (part g) s a t) (g : G) (s : S)
    (run : List (A × S)) :
    ghosts h (part g) s run = (ghosts f g s run).map fun x => (part x.1, x.2) := by
  induction run generalizing g s with
  | nil => rfl
  | cons x run ih =>
    obtain ⟨a, t⟩ := x
    rw [ghosts_cons, ghosts_cons, List.map_cons, ← hstep, ih]

/-- A relation between the value and the state that every step keeps holds at every step. -/
theorem ghosts_invariant {f : G → S → A → S → G} {R : G → S → Prop}
    (hstep : ∀ g s a t, R g s → step s a t → R (f g s a t) t)
    {g : G} {s : S} {run : List (A × S)} (hrun : IsRun step s run) (hs : R g s) :
    ∀ x ∈ ghosts f g s run, R x.1 x.2.1 ∧ step x.2.1 x.2.2.1 x.2.2.2 := by
  induction run generalizing g s with
  | nil => simp [ghosts]
  | cons x run ih =>
    obtain ⟨a, t⟩ := x
    intro y hy
    rcases List.mem_cons.mp hy with rfl | hy
    · exact ⟨hs, hrun.1⟩
    · exact ih hrun.2 (hstep g s a t hs hrun.1) y hy

theorem mem_states_of_ghost {f : G → S → A → S → G} {g : G} {s : S} {run : List (A × S)}
    {x : G × S × A × S} (hx : x ∈ ghosts f g s run) : x.2.2.2 ∈ states s run := by
  induction run generalizing g s with
  | nil => simp [ghosts] at hx
  | cons y run ih =>
    obtain ⟨a, t⟩ := y
    rcases List.mem_cons.mp hx with rfl | hx
    · exact List.mem_cons_of_mem s List.mem_cons_self
    · exact List.mem_cons_of_mem s (ih hx)

/-- A relation between the value and the state that every step keeps under its condition holds,
with some value, of every state of a run whose steps meet the condition. -/
theorem ghosts_states {f : G → S → A → S → G} {R : G → S → Prop} {C : G → S → A → Prop}
    (hstep : ∀ g s a t, R g s → step s a t → C g s a → R (f g s a t) t)
    {g : G} {s : S} {run : List (A × S)} (hrun : IsRun step s run) (hs : R g s)
    (hC : ∀ x ∈ ghosts f g s run, C x.1 x.2.1 x.2.2.1) : ∀ t ∈ states s run, ∃ g, R g t := by
  induction run generalizing g s with
  | nil => simpa [states] using ⟨g, hs⟩
  | cons x run ih =>
    obtain ⟨a, t⟩ := x
    rw [ghosts_cons, List.forall_mem_cons] at hC
    rw [states_cons, List.forall_mem_cons]
    exact ⟨⟨g, hs⟩, ih hrun.2 (hstep g s a t hs hrun.1 hC.1) hC.2⟩

/-- Exact form for the value: when, from a good value, a step leaves a good value exactly under the
condition, all values of a run are good exactly when every step meets the condition. -/
theorem ghosts_good_iff {f : G → S → A → S → G} {R P : G → S → Prop} {C : G → S → A → Prop}
    (hR : ∀ g s a t, R g s → step s a t → R (f g s a t) t)
    (hstep : ∀ g s a t, R g s → P g s → step s a t → (P (f g s a t) t ↔ C g s a))
    {g : G} {s : S} {run : List (A × S)} (hrun : IsRun step s run) (hs : R g s) (hP : P g s) :
    (∀ x ∈ ghosts f g s run, P (f x.1 x.2.1 x.2.2.1 x.2.2.2) x.2.2.2) ↔
      ∀ x ∈ ghosts f g s run, C x.1 x.2.1 x.2.2.1 := by
  induction run generalizing g s with
  | nil => simp [ghosts]
  | cons x run ih =>
    obtain ⟨a, t⟩ := x
    have hiff := hstep g s a t hs hP hrun.1
    rw [ghosts_cons, List.forall_mem_cons, List.forall_mem_cons, ← hiff]
    refine and_congr_right fun hgood => ?_
    exact ih hrun.2 (hR g s a t hs hrun.1) hgood

/-- A condition on the states of a run, said of the value instead: the value decides it at every
step, as long as it is met. -/
theorem transitions_iff_ghosts {f : G → S → A → S → G} {R : G → S → Prop} {C : S → A → Prop}
    {D : G → A → Prop}
    (hstep : ∀ g s a t, R g s → step s a t → (C s a ↔ D g a) ∧ (C s a → R (f g s a t) t))
    {g : G} {s : S} {run : List (A × S)} (hrun : IsRun step s run) (hs : R g s) :
    (∀ x ∈ transitions s run, C x.1 x.2.1) ↔
      ∀ x ∈ ghosts f g s run, D x.1 x.2.2.1 := by
  induction run generalizing g s with
  | nil => simp [transitions, ghosts]
  | cons x run ih =>
    obtain ⟨a, t⟩ := x
    obtain ⟨hiff, hnext⟩ := hstep g s a t hs hrun.1
    rw [transitions_cons, ghosts_cons, List.forall_mem_cons, List.forall_mem_cons, hiff]
    exact and_congr_right fun hD => ih hrun.2 (hnext (hiff.mpr hD))

/-- The last of the states visited that has a property. -/
def latest (p : S → Bool) (past : List S) : Option S := past.reverse.find? p

theorem latest_append (p : S → Bool) (past : List S) (s : S) :
    latest p (past ++ [s]) = if p s then some s else latest p past := by
  rw [latest, List.reverse_append, List.reverse_singleton, List.singleton_append, List.find?_cons]
  cases p s <;> rfl

/-- Steps taken, each with the states visited before its own. -/
def visits (s : S) (run : List (A × S)) : List (List S × S × A × S) :=
  ghosts (fun past s _ _ => past ++ [s]) [] s run

/-- An invariant holds of all states visited before each step. -/
theorem visits_invariant {I : S → Prop} (hstep : ∀ s a t, I s → step s a t → I t)
    {s : S} {run : List (A × S)} (hrun : IsRun step s run) (hs : I s) :
    ∀ x ∈ visits s run,
      ((∀ u ∈ x.1, I u) ∧ I x.2.1) ∧ step x.2.1 x.2.2.1 x.2.2.2 := by
  refine ghosts_invariant (R := fun past s => (∀ u ∈ past, I u) ∧ I s) ?_ hrun ⟨by simp, hs⟩
  intro past s a t h hst
  refine ⟨fun u hu => ?_, hstep s a t h.2 hst⟩
  rcases List.mem_append.mp hu with hu | hu
  · exact h.1 u hu
  · rw [List.mem_singleton.mp hu]
    exact h.2

end MMLMStore.StepRuns
