import MMLMStore.ExecutionPreserved

/-!
# Local variables of nested activations

All activations of a function share the global made for a local variable, where the source has an
object for each. The transformed module does what its source does as long as no activation loads a
byte of a variable that another one has stored to since it did so itself; a function that calls
itself while a variable is in use loads what the nested activation has left.
-/
namespace MMLMStore.ActivationStorage
open ExecutionPreserved IRExecution LMStorePass ModuleIR RelocatedMemory RelocatedRuns StepRuns

/-- What a run of the source is asked for at each step: pointers that come from outside are to
objects that there are, and no load finds a byte that its object was stored to and another object
of the same variable after it. -/
abbrev LoadsOwn (m : Module) (s : State) (run : List ((Choice × Event) × State)) : Prop :=
  ∀ x ∈ ghosts (fun g s a _ => nextTrail g s a.2) .new s run,
    Keeps (planOf m) x.1 x.2.1 x.2.2.1

/-- The transformed module, with pointers moved, takes the steps of a run of the source: each load
yields there what it yields from the object that the alloca has made. -/
def Preserved (m M' : Module) (memory memory' : Memory) (args : List Word)
    (run : List ((Choice × Event) × State)) : Prop :=
  ∃ runs' : List (List ((Choice × Event) × State)),
    IsRun (Steps M')
      (initial M' memory' (args.map (List.map (placeByte (planOf m) [])))) runs'.flatten ∧
    List.Forall₂ (fun x run' => Matches (planOf m) (nextMakers x.1.makers x.2.1) x.2.2.1 run')
      (ghosts (fun g s a _ => nextTrail g s a.2) .new (initial m memory args) run) runs'

/-- `f` stores its argument in `x`, calls itself with zero unless the argument is zero and then
stores again, and loads `x`. -/
def storesAgain : SourceModule where
  globals := []
  functions := [
    { name := "f"
      args := ["n"]
      blocks := [
        [⟨.source 0, "x", .alloca (.integer 32), []⟩,
          ⟨.source 1, "", .store, [.argument 0 "n", .instruction (.source 0) "x"]⟩,
          ⟨.source 2, "", .br [1, 2], [.argument 0 "n"]⟩],
        [⟨.source 3, "", .call (some "f"), [.constantData 4 0]⟩,
          ⟨.source 4, "", .store, [.argument 0 "n", .instruction (.source 0) "x"]⟩,
          ⟨.source 5, "", .br [2], []⟩],
        [⟨.source 6, "", .load 4, [.instruction (.source 0) "x"]⟩,
          ⟨.source 7, "", .ret, []⟩]] },
    { name := "main"
      args := []
      blocks := [[⟨.source 0, "", .call (some "f"), [.constantData 4 1]⟩,
        ⟨.source 1, "", .ret, []⟩]] }]
  aliases := []
  getTypeAllocSize := packedSize
  LastUnique := 0
  symbols_nodup := by decide
  globals_source := globals_source_nil
  functions_wellFormed := by decide

def storesAgainOutput : Output := (runOnModule storesAgain.toModule).get (by decide +kernel)

theorem storesAgain_run : runOnModule storesAgain.toModule = some storesAgainOutput :=
  (Option.some_get _).symm

theorem storesAgain_movable : Movable storesAgain.toModule := by decide +kernel

def storesAgainRun : List ((Choice × Event) × State) :=
  follow storesAgain.toModule (initial storesAgain.toModule emptyStack [])
    (List.replicate 20 (.run [] 0))

example : storesAgainRun.length = 15 := by decide +kernel

/-! Runs in which nothing is left open. -/

/-- The instruction does the same whatever is chosen. -/
def Fixed : Opcode → Prop
  | .other _ => False
  | .br targets => targets.length = 1 ∨ targets.length = 2
  | _ => True

def Determined (s : State) : Prop :=
  match s.stack with
  | .code fr :: _ => ∀ I ∈ fr.code.head?, Fixed I.opcode
  | .environment _ :: _ => False
  | [] => True

instance : DecidablePred Fixed
  | .other _ => isFalse not_false
  | .br targets => inferInstanceAs (Decidable (targets.length = 1 ∨ targets.length = 2))
  | .alloca _ | .load _ | .store | .getElementPtr _ | .call _ | .ret | .phi _ => isTrue trivial

instance (s : State) : Decidable (Determined s) := by
  unfold Determined
  split <;> infer_instance

section Determined

variable {M : Module} {s t : State}

theorem branchTarget_fixed {targets : List ℕ} (h : Fixed (.br targets)) (condition : Option Word)
    (index : ℕ) : branchTarget targets condition index = branchTarget targets condition 0 := by
  rcases h with h | h
  · obtain ⟨target, rfl⟩ := List.length_eq_one_iff.mp h
    rfl
  · obtain ⟨ifTrue, ifFalse, rfl⟩ := List.length_eq_two.mp h
    rfl

theorem execute_fixed {I : Instruction} (h : Fixed I.opcode) (word : Word) (index : ℕ) (fr : Frame)
    (rest : List Activation) (code : List Instruction) :
    execute M word index s fr rest I code = execute M [] 0 s fr rest I code := by
  unfold execute
  cases hop : I.opcode with
  | br targets =>
    rw [hop] at h
    simp only [branchTarget_fixed h _ index]
  | other name =>
    rw [hop] at h
    exact h.elim
  | call callee => cases callee <;> rfl
  | _ => rfl

theorem step_determined (h : Determined s) {c : Choice} {x : Event × State}
    (hstep : step M s c = some x) : step M s (.run [] 0) = some x := by
  unfold Determined at h
  unfold step at hstep ⊢
  cases hstack : s.stack with
  | nil => simp [hstack] at hstep
  | cons frame rest =>
    rw [hstack] at h
    cases frame with
    | environment returnTo => exact h.elim
    | code fr =>
      simp only [hstack] at hstep ⊢
      cases c with
      | run word index =>
        cases hcode : fr.code with
        | nil => simp [hcode] at hstep
        | cons I code =>
          simp only [hcode] at hstep ⊢
          rw [← hstep]
          exact (execute_fixed (h I (by simp [hcode])) word index fr rest code).symm
      | _ => cases hstep

/-- An execution that stops in determined states is the only one. -/
theorem events_prefix {n : ℕ} {run : List ((Choice × Event) × State)} (hrun : IsRun (Steps M) s run)
    (hall : ∀ t ∈ states s (follow M s (List.replicate n (.run [] 0))), Determined t)
    (hstops : (follow M s (List.replicate n (.run [] 0))).length < n) :
    run.map (·.1.2) <+: (follow M s (List.replicate n (.run [] 0))).map (·.1.2) := by
  induction run generalizing s n with
  | nil => exact List.nil_prefix
  | cons x run ih =>
    obtain ⟨⟨c, e⟩, t⟩ := x
    have hdetermined : Determined s := hall s List.mem_cons_self
    have hstep := step_determined hdetermined hrun.1
    cases n with
    | zero => exact absurd hstops (Nat.not_lt_zero _)
    | succ n =>
      have hfollow : follow M s (List.replicate (n + 1) (.run [] 0)) =
          ((.run [] 0, e), t) :: follow M t (List.replicate n (.run [] 0)) := by
        simp only [List.replicate_succ, follow, hstep]
      rw [hfollow] at hall hstops ⊢
      rw [List.length_cons] at hstops
      rw [List.map_cons, List.map_cons, List.cons_prefix_cons]
      exact ⟨rfl, ih hrun.2 (fun u hu => hall u (List.mem_cons_of_mem s hu)) (by omega)⟩

end Determined

/-- `f` stores its argument in `x`, calls itself with zero unless the argument is zero, and loads
`x`; `main` calls it with one. -/
def selfCall : SourceModule where
  globals := []
  functions := [
    { name := "f"
      args := ["n"]
      blocks := [
        [⟨.source 0, "x", .alloca (.integer 32), []⟩,
          ⟨.source 1, "", .store, [.argument 0 "n", .instruction (.source 0) "x"]⟩,
          ⟨.source 2, "", .br [1, 2], [.argument 0 "n"]⟩],
        [⟨.source 3, "", .call (some "f"), [.constantData 4 0]⟩,
          ⟨.source 4, "", .br [2], []⟩],
        [⟨.source 5, "", .load 4, [.instruction (.source 0) "x"]⟩,
          ⟨.source 6, "", .ret, []⟩]] },
    { name := "main"
      args := []
      blocks := [[⟨.source 0, "", .call (some "f"), [.constantData 4 1]⟩,
        ⟨.source 1, "", .ret, []⟩]] }]
  aliases := []
  getTypeAllocSize := packedSize
  LastUnique := 0
  symbols_nodup := by decide
  globals_source := globals_source_nil
  functions_wellFormed := by decide

def selfCallOutput : Output := (runOnModule selfCall.toModule).get (by decide +kernel)

theorem selfCall_run : runOnModule selfCall.toModule = some selfCallOutput :=
  (Option.some_get _).symm

theorem selfCall_movable : Movable selfCall.toModule := by decide +kernel

/-- The execution up to the load in the outer activation of `f`. -/
def selfCallRun : List ((Choice × Event) × State) :=
  follow selfCall.toModule (initial selfCall.toModule emptyStack [])
    (List.replicate 12 (.run [] 0))

def selfCallOutputRun : List ((Choice × Event) × State) :=
  follow selfCallOutput.M (initial selfCallOutput.M (fun _ => .data 0) [])
    (List.replicate 30 (.run [] 0))

def outerLoad : Event → Option Word
  | .load a f id _ w => if a = 1 ∧ f = "f" ∧ id = .source 5 then some w else none
  | _ => none

theorem outerLoad_placed {plan : Plan} {makers : Makers} {e e' : Event} {w : Word}
    (h : PlacedEvent plan makers e e') (hw : outerLoad e = some w) :
    ∃ w', outerLoad e' = some w' ∧ PlacedWord plan makers w w' := by
  cases h with
  | load hplaced =>
    simp only [outerLoad, Option.ite_none_right_eq_some, Option.some.injEq] at hw ⊢
    obtain ⟨hload, rfl⟩ := hw
    exact ⟨_, ⟨hload, rfl⟩, hplaced⟩
  | _ => cases hw

end MMLMStore.ActivationStorage
