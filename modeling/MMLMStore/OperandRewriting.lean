import MMLMStore.RecordedNames

/-!
# Code generated for a function

The code of a function that is kept is its source code with the operands of loads, stores and
address computations renamed, allocation loads ahead of the entry block and deallocation loads
ahead of each return. A function that is not kept is its source.
-/
namespace MMLMStore.OperandRewriting
open KeyedTable KeptFunctions LMStorePass ModuleIR PassSteps RecordedNames

/-- An instruction whose operands are renamed under the symbols of its moment, a module between
the start of code generation and the end of the pass. -/
def Rewritten (ctx : CodeContext) (m final : Module) (I I' : Instruction) : Prop :=
  ∃ m', Extends (IsMarker ctx.owners) m m' ∧ Extends IsCreated m' final ∧
    I' = if renames I.opcode then
      { I with operands := I.operands.map (renameOperand ctx.globVar m') } else I

def Inserted (id : Owner → InstId) (global : Owner → GlobalId) (owners : List Owner)
    (loads : List Instruction) : Prop :=
  List.Forall₂ (fun owner I => ∃ name globalName,
    I = insertedLoad (id owner) name (global owner) globalName) owners loads

/-- Code of a block, without the allocation loads. -/
inductive Laid (ctx : CodeContext) (m final : Module) :
    List Instruction → List Instruction → Prop
  | nil : Laid ctx m final [] []
  | cons {I I' : Instruction} {rest rest' : List Instruction} (hne : I.opcode ≠ .ret)
      (hI : Rewritten ctx m final I I') (hrest : Laid ctx m final rest rest') :
      Laid ctx m final (I :: rest) (I' :: rest')
  | ret {I : Instruction} {loads rest rest' : List Instruction} (count : ℕ)
      (hret : I.opcode = .ret)
      (hloads : Inserted (.DI · count) (.deallocaIns · count) ctx.owners loads)
      (hrest : Laid ctx m final rest rest') :
      Laid ctx m final (I :: rest) (loads ++ I :: rest')

/-- Code of a function: the allocation loads stand at the start of the first block. -/
inductive Coded (ctx : CodeContext) (m final : Module) :
    List BasicBlock → List BasicBlock → Prop
  | declaration : Coded ctx m final [] []
  | definition {entry body loads : List Instruction} {rest rest' : List BasicBlock}
      (hloads : Inserted .AI .allocaIns ctx.owners loads) (hentry : Laid ctx m final entry body)
      (hrest : List.Forall₂ (Laid ctx m final) rest rest') :
      Coded ctx m final (entry :: rest) ((loads ++ body) :: rest')

section Generation

variable {ctx : CodeContext} {m m' final final' : Module}

theorem Laid.mono (hm : Extends (IsMarker ctx.owners) m m')
    (hfinal : Extends IsCreated final final')
    {BB BB' : List Instruction} (h : Laid ctx m' final BB BB') : Laid ctx m final' BB BB' := by
  induction h with
  | nil => exact .nil
  | cons hne hI _ ih =>
    obtain ⟨m₁, hfrom, hto, rfl⟩ := hI
    exact .cons hne ⟨m₁, hm.trans hfrom, hto.trans hfinal, rfl⟩ ih
  | ret count hret hloads _ ih => exact .ret count hret hloads ih

theorem Coded.mono (hfinal : Extends IsCreated final final') {blocks blocks' : List BasicBlock}
    (h : Coded ctx m final blocks blocks') : Coded ctx m final' blocks blocks' := by
  cases h with
  | declaration => exact .declaration
  | definition hloads hentry hrest =>
    exact .definition hloads (hentry.mono (Extends.refl _) hfinal)
      (hrest.imp fun _ _ h => h.mono (Extends.refl _) hfinal)

theorem inserted_insertLoads {gen : Module → Owner → Module × Instruction} {id : Owner → InstId}
    {global : Owner → GlobalId} (hgen : ∀ m owner, ∃ name globalName,
      (gen m owner).2 = insertedLoad (id owner) name (global owner) globalName)
    (owners : List Owner) (m : Module) :
    Inserted id global owners (insertLoads gen owners m).2 := by
  induction owners generalizing m with
  | nil => exact .nil
  | cons owner owners ih => exact .cons (hgen m owner) (ih _)

theorem extends_created {g : GenState} {BB : List Instruction} :
    Extends IsCreated g.M (genBlock ctx BB g).1.M :=
  (extends_genBlock ctx BB g).mono fun _ hG => Or.inr ⟨_, hG⟩

/-- After the allocation loads, or when there are none to insert. -/
def Started (ctx : CodeContext) (g : GenState) : Prop := g.first_block = true ∨ ctx.owners = []

theorem allocas_of_started {g : GenState} (h : Started ctx g) : allocas ctx g = (g.M, []) := by
  unfold allocas
  rcases h with h | h
  · rw [if_pos h]
  · split_ifs
    · rfl
    · rw [h, insertLoads]

theorem started_genInstruction (ctx : CodeContext) (g : GenState) (I : Instruction) :
    Started ctx (genInstruction ctx g I).1 := by
  have hfirst : (genInstruction ctx g I).1.first_block =
      (g.first_block || !ctx.owners.isEmpty) := by
    unfold genInstruction
    dsimp only
    split_ifs <;> rfl
  unfold Started
  rw [hfirst]
  cases howners : ctx.owners with
  | nil => exact Or.inr rfl
  | cons owner owners => simp

theorem laid_genInstruction {g : GenState} {I : Instruction} {rest rest' : List Instruction}
    (hI : Extends IsCreated (genInstruction ctx g I).1.M final)
    (hrest : Laid ctx (allocas ctx g).1 final rest rest') :
    ∃ body, (genInstruction ctx g I).2 = (allocas ctx g).2 ++ body ∧
      Laid ctx (allocas ctx g).1 final (I :: rest) (body ++ rest') := by
  unfold genInstruction at hI ⊢
  dsimp only at hI ⊢
  split_ifs at hI ⊢ with hrenames hret
  · refine ⟨_, rfl, .cons ?_ ⟨_, Extends.refl _, hI, by rw [if_pos hrenames]⟩ hrest⟩
    intro hret
    simp [hret, renames] at hrenames
  · refine ⟨_, rfl, ?_⟩
    rw [List.append_assoc]
    exact .ret g.returns hret (inserted_insertLoads (fun _ _ => ⟨_, _, rfl⟩) _ _) hrest
  · exact ⟨_, rfl, .cons hret ⟨_, Extends.refl _, hI, by rw [if_neg hrenames]⟩ hrest⟩

theorem extends_afterAllocas (g : GenState) (I : Instruction) :
    Extends (IsMarker ctx.owners) (allocas ctx g).1 (genInstruction ctx g I).1.M := by
  unfold genInstruction
  dsimp only
  split_ifs
  · exact Extends.refl _
  · exact extends_deallocas _ _ _
  · exact Extends.refl _

theorem laid_genBlock {BB : List Instruction} {g : GenState} (h : Started ctx g)
    (hfinal : Extends IsCreated (genBlock ctx BB g).1.M final) :
    Laid ctx g.M final BB (genBlock ctx BB g).2 := by
  induction BB generalizing g with
  | nil => exact .nil
  | cons I rest ih =>
    have hrest := ih (started_genInstruction ctx g I) hfinal
    have hmono := hrest.mono (extends_afterAllocas g I) (Extends.refl _)
    obtain ⟨body, hbody, hlaid⟩ := laid_genInstruction (extends_created.trans hfinal) hmono
    rw [allocas_of_started h] at hbody hlaid
    change Laid ctx g.M final (I :: rest) ((genInstruction ctx g I).2 ++ _)
    rw [hbody]
    exact hlaid

theorem started_genBlock {g : GenState} (h : Started ctx g) (BB : List Instruction) :
    Started ctx (genBlock ctx BB g).1 := by
  induction BB generalizing g with
  | nil => exact h
  | cons I rest ih => exact ih (started_genInstruction ctx g I)

theorem laid_genBlocks {blocks : List BasicBlock} {g : GenState} (h : Started ctx g)
    (hfinal : Extends IsCreated (genBlocks ctx blocks g).1.M final) :
    List.Forall₂ (Laid ctx g.M final) blocks (genBlocks ctx blocks g).2 := by
  induction blocks generalizing g with
  | nil => exact .nil
  | cons BB rest ih =>
    have hlater : Extends IsCreated (genBlock ctx BB g).1.M final :=
      ((extends_genBlocks ctx rest _).mono fun _ hG => Or.inr ⟨_, hG⟩).trans hfinal
    refine .cons (laid_genBlock h hlater) ?_
    exact (ih (started_genBlock h BB) hfinal).imp fun _ _ hBB =>
      hBB.mono (extends_genBlock ctx BB g) (Extends.refl _)

theorem coded_genBlocks {blocks : List BasicBlock} (hne : ∀ BB ∈ blocks, BB ≠ []) {g : GenState}
    (hstart : g.first_block = false)
    (hfinal : Extends IsCreated (genBlocks ctx blocks g).1.M final) :
    Coded ctx g.M final blocks (genBlocks ctx blocks g).2 := by
  cases blocks with
  | nil => exact .declaration
  | cons BB rest =>
    cases BB with
    | nil => exact absurd rfl (hne [] (by simp))
    | cons I BB =>
      have hlater : Extends IsCreated (genBlock ctx BB (genInstruction ctx g I).1).1.M final :=
        ((extends_genBlocks ctx rest _).mono fun _ hG => Or.inr ⟨_, hG⟩).trans hfinal
      have hstarted := started_genInstruction ctx g I
      have hBB := (laid_genBlock hstarted hlater).mono (extends_afterAllocas g I) (Extends.refl _)
      obtain ⟨body, hbody, hlaid⟩ := laid_genInstruction (extends_created.trans hlater) hBB
      have hloads : Inserted .AI .allocaIns ctx.owners (allocas ctx g).2 := by
        rw [allocas, if_neg (by simp [hstart])]
        exact inserted_insertLoads (fun _ _ => ⟨_, _, rfl⟩) _ _
      have hblock : (genBlocks ctx ((I :: BB) :: rest) g).2 =
          ((allocas ctx g).2 ++ (body ++ (genBlock ctx BB (genInstruction ctx g I).1).2)) ::
            (genBlocks ctx rest (genBlock ctx (I :: BB) g).1).2 := by
        rw [← List.append_assoc, ← hbody]
        rfl
      rw [hblock]
      refine .definition hloads (hlaid.mono (extends_allocas ctx g) (Extends.refl _)) ?_
      have hrest : List.Forall₂ (Laid ctx (genBlock ctx (I :: BB) g).1.M final) rest
          (genBlocks ctx rest (genBlock ctx (I :: BB) g).1).2 :=
        laid_genBlocks (started_genBlock hstarted BB) hfinal
      exact hrest.imp fun _ _ h => h.mono (extends_genBlock ctx (I :: BB) g) (Extends.refl _)

end Generation

/-! Instructions of the source in the code. -/

def ofSource (I : Instruction) : Bool := I.id.isSource

def sourceInstructions (F : Function) : List Instruction := F.instructions.filter ofSource

theorem filter_inserted {id : Owner → InstId} {global : Owner → GlobalId}
    (hid : ∀ owner, (id owner).isSource = false) {owners : List Owner} {loads : List Instruction}
    (h : Inserted id global owners loads) : loads.filter ofSource = [] := by
  induction h with
  | nil => rfl
  | @cons owner I owners loads hI _ ih =>
    obtain ⟨name, globalName, rfl⟩ := hI
    rw [List.filter_cons_of_neg (by simp [ofSource, insertedLoad, hid]), ih]

section Code

variable {ctx : CodeContext} {m final : Module}

theorem Rewritten.id_eq {I I' : Instruction} (h : Rewritten ctx m final I I') : I'.id = I.id := by
  obtain ⟨m', -, -, rfl⟩ := h
  split_ifs <;> rfl

theorem Laid.ofSource (hm : Extends IsCreated m final) {BB BB' : List Instruction}
    (hsource : ∀ I ∈ BB, I.id.isSource) (h : Laid ctx m final BB BB') :
    List.Forall₂ (Rewritten ctx m final) BB (BB'.filter ofSource) := by
  induction h with
  | nil => exact .nil
  | @cons I I' rest rest' hne hI _ ih =>
    have hid : OperandRewriting.ofSource I' := by
      rw [OperandRewriting.ofSource, hI.id_eq]
      exact hsource I (by simp)
    rw [List.filter_cons_of_pos hid]
    exact .cons hI (ih fun J hJ => hsource J (by simp [hJ]))
  | @ret I loads rest rest' count hret hloads _ ih =>
    have hid : OperandRewriting.ofSource I := hsource I (by simp)
    rw [List.filter_append, filter_inserted (fun _ => rfl) hloads, List.nil_append,
      List.filter_cons_of_pos hid]
    refine .cons ⟨m, Extends.refl _, hm, ?_⟩ (ih fun J hJ => hsource J (by simp [hJ]))
    rw [if_neg (by simp [hret, renames])]

theorem Coded.forall₂_ofSource (hm : Extends IsCreated m final) {blocks blocks' : List BasicBlock}
    (hsource : ∀ BB ∈ blocks, ∀ I ∈ BB, I.id.isSource) (h : Coded ctx m final blocks blocks') :
    List.Forall₂ (List.Forall₂ (Rewritten ctx m final)) blocks
      (blocks'.map (List.filter OperandRewriting.ofSource)) := by
  cases h with
  | declaration => exact .nil
  | @definition entry body loads rest rest' hloads hentry hrest =>
    rw [List.map_cons, List.filter_append, filter_inserted (fun _ => rfl) hloads, List.nil_append]
    refine .cons (hentry.ofSource hm (hsource entry (by simp))) ?_
    rw [List.forall₂_map_right_iff]
    obtain ⟨hlen, hget⟩ := List.forall₂_iff_get.mp hrest
    refine List.forall₂_iff_get.mpr ⟨hlen, fun i hi hi' => ?_⟩
    exact (hget i hi hi').ofSource hm (hsource _ (by simp))

/-- The code of a function keeps its instructions in their order. -/
theorem Coded.sourceInstructions (hm : Extends IsCreated m final) {F F' : Function}
    (hsource : ∀ I ∈ F.instructions, I.id.isSource) (h : Coded ctx m final F.blocks F'.blocks) :
    List.Forall₂ (Rewritten ctx m final) F.instructions
      (OperandRewriting.sourceInstructions F') := by
  have hblocks := h.forall₂_ofSource hm fun BB hBB I hI =>
    hsource I (List.mem_flatten.mpr ⟨BB, hBB, hI⟩)
  rw [OperandRewriting.sourceInstructions, Function.instructions, Function.instructions,
    List.filter_flatten]
  exact List.rel_flatten hblocks

end Code

structure FunctionCode (m : Module) (out : Output) (pre : List Function) (F : Function)
    (s : PassState) (start : Module) (globVar : Table String String) (F' : Function) : Prop where
  before : stateBefore m pre = some s
  relocation : GlbVarGen (.function F.name) (DefUse m F).variables_.entries s.M s.globVar =
    some (start, globVar)
  follows : Follows (recorders m (pre ++ [F])) globVar
  created : Extends IsCreated start out.state.M
  name : F'.name = F.name
  args : F'.args = F.args
  coded : Coded ⟨ownersOf F s.GBlock (blockSize m F), globVar⟩ start out.state.M F.blocks F'.blocks

section Run

variable {m : Module} {out : Output} (h : runOnModule m = some out) {pre post : List Function}
  {F : Function} (hfunctions : m.functions = pre ++ F :: post)

include h hfunctions

theorem exists_functionCode (hkept : IsKept m pre F) (hne : ∀ BB ∈ F.blocks, BB ≠ []) :
    ∃ s start globVar F', FunctionCode m out pre F s start globVar F' ∧
      out.M.functions[pre.length]? = some F' := by
  obtain ⟨s, t, F', post', hbefore, hF, hposition, hrest⟩ := runOnModule_function h hfunctions
  have hs := reached_stateBefore hbefore
  have hDefUse := DefUse_congr hs.getTypeAllocSize F
  obtain ⟨start, hgen, hM, hF'⟩ := (hs.kept hF hkept).code
  have hfinal : Extends IsCreated t.M out.state.M := extends_processFunctions hrest
  have hcoded : Coded (contextOf s F t.globVar) start out.state.M F.blocks
      (genBlocks (contextOf s F t.globVar) F.blocks ⟨start, false, 0⟩).2 :=
    coded_genBlocks hne rfl (hM ▸ hfinal)
  rw [contextOf, hDefUse] at hcoded
  rw [hDefUse] at hgen
  have hstart : Extends IsCreated start t.M := by
    rw [hM]
    exact (extends_genBlocks _ _ ⟨start, false, 0⟩).mono fun _ hG => Or.inr ⟨_, hG⟩
  refine ⟨s, start, t.globVar, F',
    ⟨hbefore, hgen, ?_, hstart.trans hfinal, ?_, ?_, ?_⟩, hposition⟩
  · exact (hs.step hF).follows
  · rw [hF']
  · rw [hF']
  · rw [hF', contextOf, hDefUse]
    exact hcoded

theorem function_of_not_kept (hkept : ¬ IsKept m pre F) :
    out.M.functions[pre.length]? = some F := by
  obtain ⟨s, t, F', post', hbefore, hF, hposition, -⟩ := runOnModule_function h hfunctions
  rw [hposition, ((reached_stateBefore hbefore).skipped hF hkept).function]

end Run

/-! Operands by position. -/

def operandAt (functions : List Function) (i j k : ℕ) : Option Value := do
  let F ← functions[i]?
  let I ← (sourceInstructions F)[j]?
  I.operands[k]?

theorem operandAt_eq_some {functions : List Function} {i j k : ℕ} {val : Value} :
    operandAt functions i j k = some val ↔ ∃ F I, functions[i]? = some F ∧
      (sourceInstructions F)[j]? = some I ∧ I.operands[k]? = some val := by
  simp only [operandAt, Option.bind_eq_bind, Option.bind_eq_some_iff]
  constructor
  · rintro ⟨F, hF, I, hI, hval⟩
    exact ⟨F, I, hF, hI, hval⟩
  · rintro ⟨F, I, hF, hI, hval⟩
    exact ⟨F, hF, I, hI, hval⟩

theorem sourceInstructions_eq {F : Function} (h : ∀ I ∈ F.instructions, I.id.isSource) :
    sourceInstructions F = F.instructions := List.filter_eq_self.mpr h

theorem operandAt_kept {m : Module} {out : Output} {pre : List Function} {F F' : Function}
    {s : PassState} {start : Module} {globVar : Table String String}
    (code : FunctionCode m out pre F s start globVar F')
    (hposition : out.M.functions[pre.length]? = some F')
    (hsource : ∀ I ∈ F.instructions, I.id.isSource) {j k : ℕ} {I : Instruction} {val : Value}
    (hI : F.instructions[j]? = some I) (hval : I.operands[k]? = some val) :
    ∃ owners m', Extends (IsMarker owners) start m' ∧ Extends IsCreated m' out.state.M ∧
      operandAt out.M.functions pre.length j k =
        some (if renames I.opcode then renameOperand globVar m' val else val) := by
  obtain ⟨hlen, hget⟩ :=
    List.forall₂_iff_get.mp (code.coded.sourceInstructions code.created hsource)
  obtain ⟨hj, rfl⟩ := List.getElem?_eq_some_iff.mp hI
  obtain ⟨m', hfrom, hto, hI'⟩ := hget j hj (hlen ▸ hj)
  refine ⟨_, m', hfrom, hto, operandAt_eq_some.mpr
    ⟨F', _, hposition, List.getElem?_eq_getElem (hlen ▸ hj), ?_⟩⟩
  rw [List.get_eq_getElem, List.get_eq_getElem] at hI'
  rw [hI']
  split_ifs
  · rw [List.getElem?_map, hval, Option.map_some]
  · exact hval

end MMLMStore.OperandRewriting
