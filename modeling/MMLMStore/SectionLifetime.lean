import MMLMStore.IRExecution
import MMLMStore.SectionContents

/-!
# When access sections are in use

Executions of the transformed module in which no function is active twice. An access section is
accessed only while its block is allocated exactly when it is accessed only while a function that
allocates the block is active.
-/
namespace MMLMStore.SectionLifetime
open CodeShape IRExecution KeptFunctions LMStorePass ModuleIR OperandRewriting PassSteps
  RecordedNames StepRuns

/-! Allocation and deallocation loads. -/

def IsAlloc (X : Owner) (e : Event) : Prop := ∃ a f p w, e = .load a f (.AI X) p w

def IsDealloc (X : Owner) (e : Event) : Prop := ∃ a f count p w, e = .load a f (.DI X count) p w

/-- An allocation load of the block has been executed, and no deallocation load since. -/
def Held (past : List Event) (X : Owner) : Prop :=
  ∃ before e after, past = before ++ e :: after ∧ IsAlloc X e ∧ ∀ d ∈ after, ¬ IsDealloc X d

theorem not_held_nil (X : Owner) : ¬ Held [] X := by
  rintro ⟨before, e, after, h, -⟩
  simp at h

theorem held_concat {past : List Event} {e : Event} {X : Owner} :
    Held (past ++ [e]) X ↔ IsAlloc X e ∨ Held past X ∧ ¬ IsDealloc X e := by
  constructor
  · rintro ⟨before, e', after, h, halloc, hafter⟩
    rcases List.eq_nil_or_concat after with rfl | ⟨after, last, rfl⟩
    · obtain ⟨-, hlast⟩ := List.append_inj' h rfl
      obtain rfl : e = e' := by simpa using hlast
      exact Or.inl halloc
    · rw [List.concat_eq_append, ← List.cons_append, ← List.append_assoc] at h
      obtain ⟨rfl, hlast⟩ := List.append_inj' h rfl
      obtain rfl : e = last := by simpa using hlast
      exact Or.inr ⟨⟨before, e', after, rfl, halloc, fun d hd => hafter d (by simp [hd])⟩,
        hafter e (by simp)⟩
  · rintro (halloc | ⟨⟨before, e', after, rfl, halloc, hafter⟩, hdealloc⟩)
    · exact ⟨past, e, [], rfl, halloc, by simp⟩
    · refine ⟨before, e', after ++ [e], by simp, halloc, fun d hd => ?_⟩
      rcases List.mem_append.mp hd with hd | hd
      · exact hafter d hd
      · rw [List.mem_singleton.mp hd]
        exact hdealloc

/-! Accesses. -/

/-- Address that an instruction of the module accesses. -/
def pointerOf : Event → Option Pointer
  | .load _ _ _ p _ => some p
  | .store _ _ _ p _ => some p
  | _ => none

def Accesses (M : Module) (X : Owner) (e : Event) : Prop :=
  ∃ p G, pointerOf e = some p ∧ G ∈ M.globals ∧ p.object = .globalVariable G.id ∧
    G.section_ = sectionName X.name .MemAccess

def IsOwner (M : Module) : Owner → Prop
  | .M => True
  | .function name => ∃ F ∈ M.functions, F.name = name

def SectionsHeld (M : Module) (s : State) (run : List ((Choice × Event) × State)) : Prop :=
  ∀ x ∈ history [] s run, ∀ X, IsOwner M X → Accesses M X x.2.2.1.2 →
    Held (x.1.map Prod.snd) X

def InProgress (m : Module) (X : Owner) (s : State) : Prop :=
  ∃ fr, Activation.code fr ∈ s.stack ∧ X ∈ ownersFor m fr.function.name

def functionName : Activation → Option String
  | .code fr => some fr.function.name
  | .environment _ => none

def NoRecursion (s : State) : Prop := (s.stack.filterMap functionName).Nodup

instance (s : State) : Decidable (NoRecursion s) := inferInstanceAs (Decidable (List.Nodup _))

/-! Code that remains. -/

/-- Remaining code of an activation, and the owners whose blocks it holds: it is taking them one
by one, has them all, or is giving them back. -/
inductive Phase (owners : List Owner) : List Owner → List Instruction → Prop
  | entering {done todo : List Owner} {loads body : List Instruction}
      (howners : owners = done ++ todo) (hloads : Inserted .AI .allocaIns todo loads)
      (hbody : Body owners body) : Phase owners done (loads ++ body)
  | leaving {done todo : List Owner} {I : Instruction} {loads rest : List Instruction} (count : ℕ)
      (howners : owners = done ++ todo)
      (hloads : Inserted (.DI · count) (.deallocaIns · count) todo loads) (hret : I.opcode = .ret)
      (hrest : Body owners rest) : Phase owners todo (loads ++ I :: rest)

/-- The next instruction, and what holds after it. -/
inductive Next (owners held : List Owner) (I : Instruction) (code : List Instruction) : Prop
  | source (hid : I.id.isSource) (hret : I.opcode ≠ .ret) (hentry : 0 ∉ I.opcode.targets)
      (hheld : held = owners) (hcode : Body owners code)
  | alloc {X : Owner} {name globalName : String}
      (hI : I = insertedLoad (.AI X) name (.allocaIns X) globalName)
      (hcode : Phase owners (held ++ [X]) code)
  | dealloc {X : Owner} {count : ℕ} {name globalName : String} {held' : List Owner}
      (hI : I = insertedLoad (.DI X count) name (.deallocaIns X count) globalName)
      (hheld : held = X :: held') (hsuffix : held <:+ owners) (hcode : Phase owners held' code)
  | ret (hret : I.opcode = .ret) (hheld : held = [])

variable {owners held : List Owner}

theorem phase_of_body {code : List Instruction} (h : Body owners code) :
    Phase owners owners code := by
  have hphase : Phase owners owners ([] ++ code) := .entering (List.append_nil _).symm .nil h
  exact hphase

theorem next_leaving {done todo : List Owner} {count : ℕ} {loads rest code : List Instruction}
    {I J : Instruction} (howners : owners = done ++ todo)
    (hloads : Inserted (.DI · count) (.deallocaIns · count) todo loads) (hret : J.opcode = .ret)
    (hrest : Body owners rest) (h : loads ++ J :: rest = I :: code) : Next owners todo I code := by
  cases hloads with
  | nil =>
    obtain ⟨rfl, rfl⟩ := List.cons.inj h
    exact .ret hret rfl
  | @cons X L todo loads hL hloads =>
    obtain ⟨name, globalName, rfl⟩ := hL
    obtain ⟨rfl, rfl⟩ := List.cons.inj h
    refine .dealloc rfl rfl ⟨done, howners.symm⟩ ?_
    have howners' : owners = (done ++ [X]) ++ todo := by
      rw [howners, List.append_assoc, List.singleton_append]
    exact .leaving count howners' hloads hret hrest

theorem next_of_body {I : Instruction} {code : List Instruction} (h : Body owners (I :: code)) :
    Next owners owners I code := by
  generalize hcode : I :: code = c at h
  cases h with
  | nil => cases hcode
  | cons hid hret hentry hrest =>
    obtain ⟨rfl, rfl⟩ := List.cons.inj hcode
    exact .source hid hret hentry rfl hrest
  | ret count hret hloads hrest =>
    exact next_leaving (List.nil_append _).symm hloads hret hrest hcode.symm

theorem next_of_phase {I : Instruction} {code : List Instruction}
    (h : Phase owners held (I :: code)) : Next owners held I code := by
  generalize hcode : I :: code = c at h
  cases h with
  | @entering done todo loads body howners hloads hbody =>
    cases hloads with
    | nil =>
      rw [List.nil_append] at hcode
      subst hcode
      rw [List.append_nil] at howners
      subst howners
      exact next_of_body hbody
    | @cons X L todo loads hL hloads =>
      obtain ⟨name, globalName, rfl⟩ := hL
      obtain ⟨rfl, rfl⟩ := List.cons.inj hcode
      refine .alloc rfl (.entering ?_ hloads hbody)
      rw [howners, List.append_assoc, List.singleton_append]
  | leaving count howners hloads hret hrest =>
    exact next_leaving howners hloads hret hrest hcode.symm

theorem source_of_next {I : Instruction} {code : List Instruction} (h : Next owners held I code)
    (hload : ∀ size, I.opcode ≠ .load size) (hret : I.opcode ≠ .ret) :
    0 ∉ I.opcode.targets ∧ held = owners ∧ Body owners code := by
  cases h with
  | source hid hret' hentry hheld hcode => exact ⟨hentry, hheld, hcode⟩
  | alloc hI hcode => exact absurd (by rw [hI]; rfl) (hload 4)
  | dealloc hI hheld hsuffix hcode => exact absurd (by rw [hI]; rfl) (hload 4)
  | ret hret' hheld => exact absurd hret' hret

theorem body_of_phis {fr : Frame} {BB : List Instruction}
    {x : List (InstId × Word) × List Instruction} (h : Body owners BB)
    (hphis : phis fr BB = some x) : Body owners x.2 := by
  induction BB generalizing x with
  | nil =>
    cases hphis
    exact h
  | cons I rest ih =>
    rw [phis] at hphis
    split at hphis
    case h_1 incoming hphi =>
      simp only [Option.bind_eq_bind, Option.bind_eq_some_iff, Option.some.injEq] at hphis
      obtain ⟨k, -, w, -, y, hy, rfl⟩ := hphis
      obtain ⟨-, -, hcode⟩ :=
        source_of_next (next_of_body h) (by simp [hphi]) (by simp [hphi])
      have hrest := ih hcode hy
      exact hrest
    case h_2 =>
      cases hphis
      exact h

/-! Stacks. -/

def allocatedBy (m : Module) : Activation → List Owner
  | .code fr => ownersFor m fr.function.name
  | .environment _ => []

/-- An activation below the top of the stack: it has taken its blocks and not given them back. -/
def Waiting (m M : Module) : Activation → Prop
  | .code fr => fr.function ∈ M.functions ∧ Body (ownersFor m fr.function.name) fr.code
  | .environment _ => True

/-- A stack whose topmost activation holds the blocks given. -/
def Stacked (m M : Module) (held : List Owner) : List Activation → Prop
  | [] => held = []
  | .code fr :: rest => fr.function ∈ M.functions ∧
      Phase (ownersFor m fr.function.name) held fr.code ∧ ∀ a ∈ rest, Waiting m M a
  | .environment _ :: rest => held = [] ∧ ∀ a ∈ rest, Waiting m M a

def HeldOn (m : Module) (held : List Owner) (stack : List Activation) (X : Owner) : Prop :=
  X ∈ held ∨ ∃ a ∈ stack.tail, X ∈ allocatedBy m a

/-- What the past says is held is held by the activations of the stack. -/
def Accounted (m M : Module) (past : List Event) (stack : List Activation) : Prop :=
  ∃ held, Stacked m M held stack ∧ ∀ X, Held past X ↔ HeldOn m held stack X

section Stack

variable {m M : Module} {past : List Event}

theorem accounted_of_waiting {stack : List Activation} (h : ∀ a ∈ stack, Waiting m M a)
    (hheld : ∀ X, Held past X ↔ ∃ a ∈ stack, X ∈ allocatedBy m a) :
    Accounted m M past stack := by
  cases stack with
  | nil => exact ⟨[], rfl, fun X => by simp [hheld, HeldOn]⟩
  | cons a rest =>
    have hrest : ∀ b ∈ rest, Waiting m M b := fun b hb => h b (by simp [hb])
    cases a with
    | code fr =>
      obtain ⟨hfunction, hbody⟩ := h (.code fr) (by simp)
      exact ⟨_, ⟨hfunction, phase_of_body hbody, hrest⟩, fun X => by
        simp [hheld, HeldOn, allocatedBy]⟩
    | environment returnTo =>
      exact ⟨[], ⟨rfl, hrest⟩, fun X => by simp [hheld, HeldOn, allocatedBy]⟩

theorem waiting_leave {value : Option Word} {returnTo : Option InstId} {rest : List Activation}
    (h : ∀ a ∈ rest, Waiting m M a) : ∀ a ∈ leave value returnTo rest, Waiting m M a := by
  unfold leave
  split
  · intro a ha
    rcases List.mem_cons.mp ha with rfl | ha
    · have hcaller := h _ List.mem_cons_self
      exact hcaller
    · exact h a (List.mem_cons_of_mem _ ha)
  · exact h

theorem allocatedBy_leave (m : Module) (value : Option Word) (returnTo : Option InstId)
    (rest : List Activation) :
    (leave value returnTo rest).map (allocatedBy m) = rest.map (allocatedBy m) := by
  unfold leave
  split <;> rfl

theorem exists_allocatedBy {stack : List Activation} {X : Owner} :
    (∃ a ∈ stack, X ∈ allocatedBy m a) ↔ ∃ owners ∈ stack.map (allocatedBy m), X ∈ owners := by
  simp

theorem accounted_leave {value : Option Word} {returnTo : Option InstId} {rest : List Activation}
    (h : ∀ a ∈ rest, Waiting m M a)
    (hheld : ∀ X, Held past X ↔ ∃ a ∈ rest, X ∈ allocatedBy m a) :
    Accounted m M past (leave value returnTo rest) := by
  refine accounted_of_waiting (waiting_leave h) fun X => ?_
  rw [hheld, exists_allocatedBy, exists_allocatedBy, allocatedBy_leave]

theorem accounted_enter (hshape : ∀ F ∈ M.functions, Shaped (ownersFor m F.name) F.blocks)
    (activation : ℕ) (name : String) (args : List Word) (returnTo : Option InstId)
    {stack : List Activation} (h : ∀ a ∈ stack, Waiting m M a)
    (hheld : ∀ X, Held past X ↔ ∃ a ∈ stack, X ∈ allocatedBy m a) :
    Accounted m M past (activationOf M activation name args returnTo :: stack) := by
  refine ⟨[], ?_, fun X => by simp [hheld, HeldOn]⟩
  cases hF : M.functions.find? (·.name = name) with
  | none =>
    have hactivation : activationOf M activation name args returnTo = .environment returnTo := by
      simp only [activationOf, hF]
    rw [hactivation]
    exact ⟨rfl, h⟩
  | some F =>
    have hmem := List.mem_of_find?_eq_some hF
    have hF' := hshape F hmem
    cases hblocks : F.blocks with
    | nil =>
      have hactivation : activationOf M activation name args returnTo = .environment returnTo := by
        simp only [activationOf, hF, hblocks]
      rw [hactivation]
      exact ⟨rfl, h⟩
    | cons entry rest =>
      have hactivation : activationOf M activation name args returnTo =
          .code ⟨activation, F, args, [], 0, entry, returnTo⟩ := by
        simp only [activationOf, hF, hblocks]
      rw [hactivation]
      rw [hblocks] at hF'
      cases hF' with
      | definition hloads hbody hrest =>
        exact ⟨hmem, .entering (List.nil_append _).symm hloads hbody, h⟩

end Stack

/-! Steps. -/

theorem not_marker_of_source {fr : Frame} {I : Instruction} {e : Event} (h : Performs fr I e)
    (hid : I.id.isSource) (X : Owner) : ¬ IsAlloc X e ∧ ¬ IsDealloc X e := by
  constructor
  · rintro ⟨a, f, p, w, rfl⟩
    generalize hI : InstId.AI X = id at h
    cases h with
    | load hload hp =>
      rw [← hI] at hid
      cases hid
  · rintro ⟨a, f, count, p, w, rfl⟩
    generalize hI : InstId.DI X count = id at h
    cases h with
    | load hload hp =>
      rw [← hI] at hid
      cases hid

theorem event_of_insertedLoad {fr : Frame} {id : InstId} {name globalName : String}
    {global : GlobalId} {e : Event} (h : Performs fr (insertedLoad id name global globalName) e) :
    ∃ w, e = .load fr.activation fr.function.name id ⟨.globalVariable global, 0⟩ w := by
  cases h with
  | silent hload hstore => exact absurd rfl (hload 4)
  | @load size p w hload hp =>
    have hpointer : pointerOperand fr (insertedLoad id name global globalName) 0 =
        some ⟨.globalVariable global, 0⟩ := by
      simp [pointerOperand, operand, insertedLoad, eval, asPointer, Pointer.word,
        List.range_succ]
    rw [hpointer, Option.some.injEq] at hp
    exact ⟨w, by rw [← hp]; rfl⟩
  | store hstore hp => cases hstore

theorem held_concat_of_not {past : List Event} {e : Event} {X : Owner} (halloc : ¬ IsAlloc X e)
    (hdealloc : ¬ IsDealloc X e) : Held (past ++ [e]) X ↔ Held past X := by
  rw [held_concat]
  tauto

theorem held_of_silent {past : List Event} (X : Owner) :
    Held (past ++ [.silent]) X ↔ Held past X :=
  held_concat_of_not (by simp [IsAlloc]) (by simp [IsDealloc])

/-- Activations below a frame of a stack without recursion allocate nothing it allocates. -/
theorem not_allocated_below {m : Module} {fr : Frame} {rest : List Activation}
    (hnodup : ((Activation.code fr :: rest).filterMap functionName).Nodup) {X : Owner}
    (hX : X ∈ ownersFor m fr.function.name) : ¬ ∃ a ∈ rest, X ∈ allocatedBy m a := by
  rintro ⟨a, ha, hXa⟩
  cases a with
  | environment returnTo => cases hXa
  | code fr' =>
    have hname := ownersFor_name hX hXa
    have hcons : (Activation.code fr :: rest).filterMap functionName =
        fr.function.name :: rest.filterMap functionName := rfl
    rw [hcons, List.nodup_cons] at hnodup
    exact hnodup.1 (List.mem_filterMap.mpr ⟨_, ha, congrArg some hname.symm⟩)

section Advance

variable {m M : Module} {past : List Event} {held : List Owner} {rest : List Activation}

theorem heldOn_alloc {a a' : Activation}
    (hheld : ∀ Y, Held past Y ↔ HeldOn m held (a :: rest) Y) (activation : ℕ) (name : String)
    (X : Owner) (p : Pointer) (w : Word) (Y : Owner) :
    Held (past ++ [.load activation name (.AI X) p w]) Y ↔
      HeldOn m (held ++ [X]) (a' :: rest) Y := by
  have halloc : IsAlloc Y (.load activation name (.AI X) p w) ↔ Y = X := by
    simp [IsAlloc, eq_comm]
  have hdealloc : ¬ IsDealloc Y (.load activation name (.AI X) p w) := by simp [IsDealloc]
  rw [held_concat, hheld, halloc]
  simp only [HeldOn, List.mem_append, List.mem_singleton, List.tail_cons]
  constructor
  · rintro (rfl | ⟨hY | hY, -⟩)
    · exact Or.inl (Or.inr rfl)
    · exact Or.inl (Or.inl hY)
    · exact Or.inr hY
  · rintro ((hY | rfl) | hY)
    · exact Or.inr ⟨Or.inl hY, hdealloc⟩
    · exact Or.inl rfl
    · exact Or.inr ⟨Or.inr hY, hdealloc⟩

/-- A deallocation load takes its block away; nothing below holds it. -/
theorem heldOn_dealloc {a a' : Activation} {X : Owner}
    (hheld : ∀ Y, Held past Y ↔ HeldOn m (X :: held) (a :: rest) Y) (hX : X ∉ held)
    (hbelow : ¬ ∃ b ∈ rest, X ∈ allocatedBy m b) (activation : ℕ) (name : String) (count : ℕ)
    (p : Pointer) (w : Word) (Y : Owner) :
    Held (past ++ [.load activation name (.DI X count) p w]) Y ↔ HeldOn m held (a' :: rest) Y := by
  have hdealloc : IsDealloc Y (.load activation name (.DI X count) p w) ↔ Y = X := by
    simp [IsDealloc, eq_comm]
  have halloc : ¬ IsAlloc Y (.load activation name (.DI X count) p w) := by simp [IsAlloc]
  rw [held_concat, hheld, hdealloc]
  simp only [halloc, false_or, HeldOn, List.mem_cons, List.tail_cons]
  constructor
  · rintro ⟨(rfl | hY) | hY, hne⟩
    · exact absurd rfl hne
    · exact Or.inl hY
    · exact Or.inr hY
  · rintro (hY | hY)
    · refine ⟨Or.inl (Or.inr hY), ?_⟩
      rintro rfl
      exact hX hY
    · refine ⟨Or.inr hY, ?_⟩
      rintro rfl
      exact hbelow hY

theorem accounted_advance {fr fr' : Frame} {I : Instruction} {code : List Instruction} {e : Event}
    (h : Accounted m M past (.code fr :: rest)) (hcode : fr.code = I :: code)
    (hret : I.opcode ≠ .ret) (hperforms : Performs fr I e)
    (hfunction : fr'.function = fr.function) (hcode' : fr'.code = code)
    (hnodup : ((Activation.code fr :: rest).filterMap functionName).Nodup) :
    Accounted m M (past ++ [e]) (.code fr' :: rest) := by
  obtain ⟨held, ⟨hmem, hphase, hwaiting⟩, hheld⟩ := h
  have hmem' : fr'.function ∈ M.functions := hfunction ▸ hmem
  rw [hcode] at hphase
  rw [← hfunction, ← hcode'] at hphase
  cases next_of_phase hphase with
  | source hid hret' hentry hheldOwners hbody =>
    refine ⟨held, ⟨hmem', ?_, hwaiting⟩, fun X => ?_⟩
    · rw [hheldOwners]
      exact phase_of_body hbody
    · obtain ⟨halloc, hdealloc⟩ := not_marker_of_source hperforms hid X
      rw [held_concat_of_not halloc hdealloc, hheld]
      rfl
  | @alloc X name globalName hI hnext =>
    subst hI
    obtain ⟨w, rfl⟩ := event_of_insertedLoad hperforms
    exact ⟨held ++ [X], ⟨hmem', hnext, hwaiting⟩, heldOn_alloc hheld _ _ X _ w⟩
  | @dealloc X count name globalName held' hI hheldX hsuffix hnext =>
    subst hI
    obtain ⟨w, rfl⟩ := event_of_insertedLoad hperforms
    have hX : X ∈ ownersFor m fr.function.name := hfunction ▸ hsuffix.subset (by simp [hheldX])
    have hheld' : X ∉ held' := by
      have hnodupOwners := (ownersFor_nodup m fr'.function.name).sublist hsuffix.sublist
      rw [hheldX] at hnodupOwners
      exact (List.nodup_cons.mp hnodupOwners).1
    rw [hheldX] at hheld
    exact ⟨held', ⟨hmem', hnext, hwaiting⟩,
      heldOn_dealloc hheld hheld' (not_allocated_below hnodup hX) _ _ count _ w⟩
  | ret hret' hheldNil => exact absurd hret' hret

end Advance

/-- Every block but the first of a function is code of its own. -/
theorem body_of_target {owners : List Owner} {blocks : List (List Instruction)}
    {BB : List Instruction} {target : ℕ} (h : Shaped owners blocks) (htarget : target ≠ 0)
    (hBB : blocks[target]? = some BB) : Body owners BB := by
  obtain ⟨k, rfl⟩ := Nat.exists_eq_succ_of_ne_zero htarget
  cases h with
  | declaration => cases hBB
  | definition hloads hfirst hrest => exact hrest BB (List.mem_of_getElem? hBB)

theorem accounted_moves {m M : Module} {past : List Event} {stack stack' : List Activation}
    {e : Event} (hshape : ∀ F ∈ M.functions, Shaped (ownersFor m F.name) F.blocks)
    (h : Accounted m M past stack) (hmoves : Moves M stack e stack')
    (hnodup : (stack.filterMap functionName).Nodup) :
    Accounted m M (past ++ [e]) stack' := by
  cases hmoves with
  | advance hcode hret hperforms hactivation hfunction hcode' =>
    exact accounted_advance h hcode hret hperforms hfunction hcode' hnodup
  | @call fr rest I code callee hcode hcall activation name args =>
    obtain ⟨held, ⟨hmem, hphase, hwaiting⟩, hheld⟩ := h
    rw [hcode] at hphase
    obtain ⟨-, hheldOwners, hbody⟩ :=
      source_of_next (next_of_phase hphase) (by simp [hcall]) (by simp [hcall])
    refine accounted_enter hshape activation name args _ (fun a ha => ?_) fun X => ?_
    · rcases List.mem_cons.mp ha with rfl | ha
      · exact ⟨hmem, hbody⟩
      · exact hwaiting a ha
    · rw [held_of_silent, hheld, HeldOn, hheldOwners]
      simp [allocatedBy]
  | @ret fr rest I code hcode hret value =>
    obtain ⟨held, ⟨hmem, hphase, hwaiting⟩, hheld⟩ := h
    rw [hcode] at hphase
    cases next_of_phase hphase with
    | source hid hret' hentry hheldOwners hbody => exact absurd hret hret'
    | alloc hI hnext => simp [hI, insertedLoad] at hret
    | dealloc hI hheldX hsuffix hnext => simp [hI, insertedLoad] at hret
    | ret hret' hheldNil =>
      refine accounted_leave hwaiting fun X => ?_
      rw [held_of_silent, hheld, HeldOn, hheldNil]
      simp
  | @branch fr rest I code BB targets target x hcode hbr htarget hBB hphis =>
    obtain ⟨held, ⟨hmem, hphase, hwaiting⟩, hheld⟩ := h
    rw [hcode] at hphase
    obtain ⟨hentry, hheldOwners, -⟩ :=
      source_of_next (next_of_phase hphase) (by simp [hbr]) (by simp [hbr])
    have hpositive : target ≠ 0 := by
      rintro rfl
      rw [hbr] at hentry
      exact hentry htarget
    have hbody := body_of_target (hshape fr.function hmem) hpositive hBB
    refine ⟨held, ⟨hmem, ?_, hwaiting⟩, fun X => ?_⟩
    · rw [hheldOwners]
      exact phase_of_body (body_of_phis hbody hphis)
    · rw [held_of_silent, hheld]
      rfl
  | @environmentStore returnTo rest p w =>
    obtain ⟨held, hstacked, hheld⟩ := h
    refine ⟨held, hstacked, fun X => ?_⟩
    rw [held_concat_of_not (by simp [IsAlloc]) (by simp [IsDealloc]), hheld]
  | @callBack returnTo rest activation name args =>
    obtain ⟨held, ⟨hheldNil, hwaiting⟩, hheld⟩ := h
    refine accounted_enter hshape activation name args _ (fun a ha => ?_) fun X => ?_
    · rcases List.mem_cons.mp ha with rfl | ha
      · exact trivial
      · exact hwaiting a ha
    · rw [held_of_silent, hheld, HeldOn, hheldNil]
      simp [allocatedBy]
  | @finish returnTo rest w =>
    obtain ⟨held, ⟨hheldNil, hwaiting⟩, hheld⟩ := h
    refine accounted_leave hwaiting fun X => ?_
    rw [held_of_silent, hheld, HeldOn, hheldNil]
    simp

theorem accounted_initial {m M : Module}
    (hshape : ∀ F ∈ M.functions, Shaped (ownersFor m F.name) F.blocks) (memory : Memory)
    (args : List Word) : Accounted m M [] (initial M memory args).stack :=
  accounted_enter hshape 0 "main" args none (by simp) fun X => by simp [not_held_nil]

/-! Accesses to access sections. -/

theorem not_accesses_marker {m : SourceModule} {out : Output}
    (h : runOnModule m.toModule = some out) {G : GlobalVariable} (hG : G ∈ out.M.globals)
    {owner : Owner} (hid : G.id = .allocaIns owner ∨ ∃ count, G.id = .deallocaIns owner count)
    (X : Owner) : G.section_ ≠ sectionName X.name .MemAccess := by
  rw [globals_eq h] at hG
  rcases (runOnModule_reached h).extends_.added G hG with hG | ⟨⟨o, ⟨v, hv⟩, -⟩ | hmarker, -⟩
  · rcases source_or_seraj hG with ⟨position, hposition⟩ | hseraj
    · rw [hposition] at hid
      simp at hid
    · rw [hseraj] at hid
      simp at hid
  · rw [hv] at hid
    simp at hid
  · obtain ⟨owners, o, -, ⟨-, hsection⟩ | ⟨count, -, hsection⟩⟩ := hmarker
    · rw [hsection]
      exact (SectionContents.sectionName_access_ne (by decide) X.name o.name).symm
    · rw [hsection]
      exact (SectionContents.sectionName_access_ne (by decide) X.name o.name).symm

theorem held_iff_inProgress {m : SourceModule} {out : Output}
    (h : runOnModule m.toModule = some out) {past : List Event} {s : State}
    {stack' : List Activation} {e : Event} {X : Owner}
    (haccounted : Accounted m.toModule out.M past s.stack) (hmoves : Moves out.M s.stack e stack')
    (haccess : Accesses out.M X e) : Held past X ↔ InProgress m.toModule X s := by
  obtain ⟨held, hstacked, hheld⟩ := haccounted
  obtain ⟨p, G, hpointer, hG, hobject, hsection⟩ := haccess
  have hprogress : InProgress m.toModule X s ↔ ∃ a ∈ s.stack, X ∈ allocatedBy m.toModule a := by
    constructor
    · rintro ⟨fr, hfr, hX⟩
      exact ⟨_, hfr, hX⟩
    · rintro ⟨a, ha, hX⟩
      cases a with
      | code fr => exact ⟨fr, ha, hX⟩
      | environment returnTo => cases hX
  rw [hheld, hprogress]
  generalize s.stack = stack at *
  cases hmoves with
  | @advance fr fr' rest I code e hcode hret hperforms hactivation hfunction hcode' =>
    obtain ⟨hmem, hphase, hwaiting⟩ := hstacked
    rw [hcode] at hphase
    cases next_of_phase hphase with
    | source hid hret' hentry hheldOwners hbody =>
      rw [HeldOn, hheldOwners]
      simp [allocatedBy]
    | @alloc Y name globalName hI hnext =>
      subst hI
      obtain ⟨w, rfl⟩ := event_of_insertedLoad hperforms
      have hid : G.id = .allocaIns Y := by
        cases hpointer
        simpa using hobject.symm
      exact absurd hsection (not_accesses_marker h hG (Or.inl hid) X)
    | @dealloc Y count name globalName held' hI hheldX hsuffix hnext =>
      subst hI
      obtain ⟨w, rfl⟩ := event_of_insertedLoad hperforms
      have hid : G.id = .deallocaIns Y count := by
        cases hpointer
        simpa using hobject.symm
      exact absurd hsection (not_accesses_marker h hG (Or.inr ⟨count, hid⟩) X)
    | ret hret' hheldNil => exact absurd hret' hret
  | _ => cases hpointer

/-- In an execution without recursion, access sections are in use only while they are allocated
exactly when a function that allocates them is active at every access. -/
theorem sectionsHeld_iff {m : SourceModule} {out : Output} (h : runOnModule m.toModule = some out)
    (memory : Memory) (args : List Word) {run : List ((Choice × Event) × State)}
    (hrun : IsRun (Steps out.M) (initial out.M memory args) run)
    (hrec : ∀ t ∈ states (initial out.M memory args) run, NoRecursion t) :
    SectionsHeld out.M (initial out.M memory args) run ↔
      ∀ x ∈ history [] (initial out.M memory args) run, ∀ X, IsOwner out.M X →
        Accesses out.M X x.2.2.1.2 → InProgress m.toModule X x.2.1 := by
  have hshape : ∀ F ∈ out.M.functions, Shaped (ownersFor m.toModule F.name) F.blocks :=
    fun F hF => shaped_function h hF
  have hstart : Accounted m.toModule out.M (([] : List (Choice × Event)).map Prod.snd)
      (initial out.M memory args).stack := accounted_initial hshape memory args
  have hinv : ∀ x ∈ history [] (initial out.M memory args) run,
      Accounted m.toModule out.M (x.1.map Prod.snd) x.2.1.stack ∧
        Steps out.M x.2.1 x.2.2.1 x.2.2.2 := by
    refine history_invariant
      (R := fun past s => Accounted m.toModule out.M (past.map Prod.snd) s.stack)
      (fun past s a t hs hstep hnodup _ => ?_) hrun hstart hrec
    rw [List.map_append]
    exact accounted_moves hshape hs (steps_cases hstep).1 hnodup
  have hiff : ∀ x ∈ history [] (initial out.M memory args) run, ∀ X,
      Accesses out.M X x.2.2.1.2 →
        (Held (x.1.map Prod.snd) X ↔ InProgress m.toModule X x.2.1) := by
    intro x hx X haccess
    obtain ⟨haccounted, hstep⟩ := hinv x hx
    exact held_iff_inProgress h haccounted (steps_cases hstep).1 haccess
  constructor
  · intro hheld x hx X howner haccess
    exact (hiff x hx X haccess).mp (hheld x hx X howner haccess)
  · intro hprogress x hx X howner haccess
    exact (hiff x hx X haccess).mpr (hprogress x hx X howner haccess)

/-- `f` reads the global `g`; `main` writes its own variable and calls `f`. -/
def smallMain : SourceModule where
  globals := [⟨.source 0, "g", .integer 32, some (.constantInt 7), false, "", 4⟩]
  functions := [
    { name := "f"
      args := []
      blocks := [[⟨.source 0, "", .load 4, [.globalVariable (.source 0) "g"]⟩,
        ⟨.source 1, "", .ret, []⟩]] },
    { name := "main"
      args := []
      blocks := [[⟨.source 0, "small", .alloca (.integer 32), []⟩,
        ⟨.source 1, "", .store, [.constantData 4 5, .instruction (.source 0) "small"]⟩,
        ⟨.source 2, "", .call (some "f"), []⟩,
        ⟨.source 3, "", .ret, []⟩]] }]
  aliases := []
  getTypeAllocSize := packedSize
  LastUnique := 0
  symbols_nodup := by decide
  globals_source := globals_source_integer "g"
  functions_wellFormed := by decide

def smallMainOutput : Output := (runOnModule smallMain.toModule).get (by decide +kernel)

theorem smallMain_run : runOnModule smallMain.toModule = some smallMainOutput :=
  (Option.some_get _).symm

def smallMainStart : State := initial smallMainOutput.M (fun _ => .data 0) []

def smallMainRun : List ((Choice × Event) × State) :=
  follow smallMainOutput.M smallMainStart (List.replicate 12 (.run [] 0))

/-- Every access is to the words that allocate and give back, or to the block of a function that
is active. -/
theorem smallMain_accesses : ∀ x ∈ history [] smallMainStart smallMainRun,
    ∀ p ∈ pointerOf x.2.2.1.2, ∀ G ∈ smallMainOutput.M.globals,
      p.object = .globalVariable G.id →
        (∃ X ∈ ([.M, .function "main"] : List Owner), G.section_ = sectionName X.name .MemAccess ∧
          ∃ name ∈ x.2.1.stack.filterMap functionName, X ∈ ownersFor smallMain.toModule name) ∨
        ∃ name ∈ ["M", "main"], ∃ kind ∈ [SectionKind.NoReadAlloca, .NoWriteDealloca],
          G.section_ = sectionName name kind := by
  decide +kernel

theorem sectionsHeld_smallMain : SectionsHeld smallMainOutput.M smallMainStart smallMainRun := by
  refine (sectionsHeld_iff smallMain_run _ _ (isRun_follow _ _ _)
    (by decide +kernel)).mpr ?_
  intro x hx X howner haccess
  obtain ⟨p, G, hp, hG, hobject, hsection⟩ := haccess
  rcases smallMain_accesses x hx p hp G hG hobject with
    ⟨Y, hY, hsection', name, hname, howns⟩ | ⟨name, -, kind, hkind, hsection'⟩
  · have hsame : X.name = Y.name :=
      SectionContents.sectionName_inj.mp (hsection.symm.trans hsection')
    have hfunctions : ∀ F ∈ smallMainOutput.M.functions, F.name ≠ "M" := by decide +kernel
    obtain rfl : X = Y := by
      rcases List.mem_pair.mp hY with rfl | rfl
      · cases X with
        | M => rfl
        | function name =>
          obtain ⟨F, hF, hname⟩ := howner
          exact absurd (hname.trans hsame) (hfunctions F hF)
      · cases X with
        | M => simp [Owner.name] at hsame
        | function name => exact congrArg Owner.function hsame
    obtain ⟨activation, hactive, hfunction⟩ := List.mem_filterMap.mp hname
    cases activation with
    | code fr =>
      obtain rfl : fr.function.name = name := by simpa [functionName] using hfunction
      exact ⟨fr, hactive, howns⟩
    | environment returnTo => cases hfunction
  · have hkind' : kind ≠ .MemAccess := by
      rintro rfl
      simp at hkind
    exact absurd (hsection.symm.trans hsection')
      (SectionContents.sectionName_access_ne hkind' X.name name)

/-- `f` reads the global `g`; `main` has an array larger than the storage and calls `f`. -/
def largeMain : SourceModule where
  globals := [⟨.source 0, "g", .integer 32, some (.constantInt 7), false, "", 4⟩]
  functions := [
    { name := "f"
      args := []
      blocks := [[⟨.source 0, "", .load 4, [.globalVariable (.source 0) "g"]⟩,
        ⟨.source 1, "", .ret, []⟩]] },
    { name := "main"
      args := []
      blocks := [[⟨.source 0, "big", .alloca (.array 8192 (.integer 32)), []⟩,
        ⟨.source 1, "", .call (some "f"), []⟩,
        ⟨.source 2, "", .ret, []⟩]] }]
  aliases := []
  getTypeAllocSize := packedSize
  LastUnique := 0
  symbols_nodup := by decide
  globals_source := globals_source_integer "g"
  functions_wellFormed := by decide

def largeMainOutput : Output := (runOnModule largeMain.toModule).get (by decide +kernel)

theorem largeMain_run : runOnModule largeMain.toModule = some largeMainOutput :=
  (Option.some_get _).symm

def largeMainStart : State := initial largeMainOutput.M (fun _ => .data 0) []

/-- `main` calls `f`, which reads the copy of `g`. -/
def largeMainRun : List ((Choice × Event) × State) :=
  follow largeMainOutput.M largeMainStart [.run [] 0, .run [] 0, .run [] 0]

/-- `main` is bypassed, so that the global block is never allocated, but `f` reads it. -/
theorem sectionsHeld_fails :
    ¬ ∀ (m : SourceModule) (out : Output), runOnModule m.toModule = some out →
      ∀ (memory : Memory) (args : List Word) (run : List ((Choice × Event) × State)),
        IsRun (Steps out.M) (initial out.M memory args) run →
        (∀ t ∈ states (initial out.M memory args) run, NoRecursion t) →
        SectionsHeld out.M (initial out.M memory args) run := by
  intro h
  have hheld : SectionsHeld largeMainOutput.M largeMainStart largeMainRun :=
    h largeMain largeMainOutput largeMain_run _ _ _
      (isRun_follow _ _ _) (by decide +kernel)
  have hread : ∃ x ∈ history [] largeMainStart largeMainRun,
      x.2.2.1.2 = .load 1 "f" (.source 0) ⟨.globalVariable (.relocated .M "g"), 0⟩
        [.data 0, .data 0, .data 0, .data 0] ∧ x.1.map Prod.snd = [.silent, .silent] := by
    decide +kernel
  have hcopy : ∃ G ∈ largeMainOutput.M.globals, G.id = .relocated .M "g" ∧
      G.section_ = sectionName "M" .MemAccess := by decide +kernel
  obtain ⟨x, hx, hevent, hpast⟩ := hread
  obtain ⟨G, hG, hid, hsection⟩ := hcopy
  have hM := hheld x hx .M trivial ⟨_, G, by rw [hevent]; rfl, hG, by rw [hid], hsection⟩
  rw [hpast] at hM
  obtain ⟨before, e, after, hevents, ⟨a, f, p, w, rfl⟩, -⟩ := hM
  have hmem : Event.load a f (.AI .M) p w ∈ [Event.silent, Event.silent] := by simp [hevents]
  simp at hmem

end MMLMStore.SectionLifetime
