import MMLMStore.CodeShape
import MMLMStore.CreatedGlobals

/-!
# Contents of the sections

Which globals the finished module has in the sections of a function, in the order of their
creation: what was there when the function was reached, then what was made for it, then what later
functions made. One allocation marker is made for a function, and one deallocation marker for each
of its returns.
-/
namespace MMLMStore.SectionContents
open CodeShape CreatedGlobals KeptFunctions KeyedTable LMStorePass LocalRelocation ModuleIR
  OperandRewriting PassSteps RecordedNames

def sectionGlobals (M : Module) (section_ : String) : List GlobalVariable :=
  M.globals.filter (·.section_ = section_)

/-! Section names. -/

theorem sectionName_inj {name name' : String} {kind : SectionKind} :
    sectionName name kind = sectionName name' kind ↔ name = name' := by
  constructor
  · intro h
    have hchars := congrArg String.toList h
    simp only [sectionName, String.toList_append] at hchars
    rw [List.append_left_inj, List.append_left_inj, List.append_right_inj] at hchars
    exact String.toList_inj.mp hchars
  · rintro rfl
    rfl

/-- Characters of a section's name after the owner's, from the last on. -/
def ending (kind : SectionKind) : List Char := (kind.text ++ "Section").toList.reverse

theorem sectionName_ne {kind kind' : SectionKind} (k : ℕ) (hlen : k ≤ (ending kind).length)
    (hlen' : k ≤ (ending kind').length) (hends : (ending kind).take k ≠ (ending kind').take k)
    (name name' : String) : sectionName name kind ≠ sectionName name' kind' := by
  have hreverse : ∀ name kind, (sectionName name kind).toList.reverse =
      ending kind ++ ("." ++ name).toList.reverse := by
    intro name kind
    rw [sectionName, String.append_assoc, String.toList_append, List.reverse_append, ending]
  intro h
  have hchars := congrArg (fun s : String => s.toList.reverse.take k) h
  simp only [hreverse, List.take_append_of_le_length hlen,
    List.take_append_of_le_length hlen'] at hchars
  exact hends hchars

theorem sectionName_alloc_ne_dealloc (name name' : String) :
    sectionName name .NoReadAlloca ≠ sectionName name' .NoWriteDealloca :=
  sectionName_ne 14 (by decide) (by decide) (by decide) name name'

theorem sectionName_access_ne {kind : SectionKind} (h : kind ≠ .MemAccess) (name name' : String) :
    sectionName name .MemAccess ≠ sectionName name' kind := by
  refine sectionName_ne 8 ?_ ?_ ?_ name name' <;> cases kind <;> first | decide | exact absurd rfl h

theorem sectionGlobals_of_extends {P : GlobalVariable → Prop} {m m' : Module}
    (h : Extends P m m') {s : String} (hP : ∀ G, P G → G.section_ ≠ s) :
    sectionGlobals m' s = sectionGlobals m s := by
  obtain ⟨created, hglobals, hcreated⟩ := h.appended
  have hnone : created.filter (fun G => decide (G.section_ = s)) = [] :=
    List.filter_eq_nil_iff.mpr fun G hG => by simpa using hP G (hcreated G hG)
  rw [sectionGlobals, sectionGlobals, hglobals, List.filter_append, hnone, List.append_nil]

/-! Words that the inserted loads read. -/

/-- A section has grown by words with some ids. -/
def Words (s : String) (m m' : Module) (ids : List GlobalId) : Prop :=
  ∃ created, sectionGlobals m' s = sectionGlobals m s ++ created ∧
    created.map GlobalVariable.id = ids ∧
    ∀ G ∈ created, G.valueType = .integer 32 ∧ G.alignment = 4

theorem Words.refl (s : String) (m : Module) : Words s m m [] :=
  ⟨[], (List.append_nil _).symm, rfl, by simp⟩

theorem Words.trans {s : String} {m m' m'' : Module} {ids ids' : List GlobalId}
    (h : Words s m m' ids) (h' : Words s m' m'' ids') : Words s m m'' (ids ++ ids') := by
  obtain ⟨created, heq, rfl, hwords⟩ := h
  obtain ⟨created', heq', rfl, hwords'⟩ := h'
  exact ⟨created ++ created', by rw [heq', heq, List.append_assoc], List.map_append,
    List.forall_mem_append.mpr ⟨hwords, hwords'⟩⟩

theorem words_newGlobal (m : Module) (id : GlobalId) (data : Initializer)
    (section_ name s : String) :
    Words s m (m.newGlobal id (.integer 32) data section_ 4 name)
      (if section_ = s then [id] else []) := by
  by_cases hs : section_ = s
  · rw [if_pos hs]
    refine ⟨[⟨id, m.symbolName name, .integer 32, some data, false, section_, 4⟩], ?_, rfl, ?_⟩
    · rw [sectionGlobals, sectionGlobals, Module.newGlobal, List.filter_append,
        List.filter_cons_of_pos (by simpa using hs), List.filter_nil]
    · simp
  · rw [if_neg hs]
    refine ⟨[], ?_, rfl, by simp⟩
    rw [sectionGlobals, sectionGlobals, Module.newGlobal, List.filter_append,
      List.filter_cons_of_neg (by simpa using hs), List.filter_nil]

/-- Ids of globals that the loads of a kind read, in the order of the code. -/
def readIds (kind : InstId → Bool) (code : List Instruction) : List GlobalId :=
  (code.filter (kind ·.id)).flatMap fun I => I.operands.filterMap fun
    | .globalVariable id _ => some id
    | _ => none

theorem readIds_append (kind : InstId → Bool) (code code' : List Instruction) :
    readIds kind (code ++ code') = readIds kind code ++ readIds kind code' := by
  rw [readIds, List.filter_append, List.flatMap_append]
  rfl

theorem readIds_of_not {kind : InstId → Bool} {I : Instruction} (h : kind I.id = false) :
    readIds kind [I] = [] := by
  rw [readIds, List.filter_cons_of_neg (by simp [h])]
  rfl

theorem readIds_insertedLoad (kind : InstId → Bool) (id : InstId) (name globalName : String)
    (global : GlobalId) :
    readIds kind [insertedLoad id name global globalName] = if kind id then [global] else [] := by
  by_cases h : kind id = true <;> simp [readIds, insertedLoad, h]

/-- Allocation loads of an owner. -/
def isAI (X : Owner) : InstId → Bool
  | .AI Y => Y = X
  | _ => false

/-- Deallocation loads of an owner. -/
def isDI (X : Owner) : InstId → Bool
  | .DI Y _ => Y = X
  | _ => false

theorem isAI_of_isSource {X : Owner} {id : InstId} (h : id.isSource) : isAI X id = false := by
  cases id <;> simp_all [InstId.isSource, isAI]

theorem isDI_of_isSource {X : Owner} {id : InstId} (h : id.isSource) : isDI X id = false := by
  cases id <;> simp_all [InstId.isSource, isDI]

/-- Code generated between two modules: for each load of the owner one word has been added to the
section of its kind. -/
structure Generated (X : Owner) (m m' : Module) (code : List Instruction) : Prop where
  alloc : Words (sectionName X.name .NoReadAlloca) m m' (readIds (isAI X) code)
  dealloc : Words (sectionName X.name .NoWriteDealloca) m m' (readIds (isDI X) code)

section Generation

variable {X : Owner} {m m' m'' : Module} {code code' : List Instruction}

theorem Generated.nil (X : Owner) (m : Module) : Generated X m m [] :=
  ⟨Words.refl _ m, Words.refl _ m⟩

theorem Generated.append (h : Generated X m m' code) (h' : Generated X m' m'' code') :
    Generated X m m'' (code ++ code') :=
  ⟨by rw [readIds_append]; exact h.alloc.trans h'.alloc,
    by rw [readIds_append]; exact h.dealloc.trans h'.dealloc⟩

theorem generated_source {I : Instruction} (h : I.id.isSource) (X : Owner) (m : Module) :
    Generated X m m [I] := by
  refine ⟨?_, ?_⟩
  · rw [readIds_of_not (isAI_of_isSource h)]
    exact Words.refl _ m
  · rw [readIds_of_not (isDI_of_isSource h)]
    exact Words.refl _ m

theorem generated_insertLoads {gen : Module → Owner → Module × Instruction} {owners : List Owner}
    (hgen : ∀ m, ∀ owner ∈ owners, Generated X m (gen m owner).1 [(gen m owner).2]) (m : Module) :
    Generated X m (insertLoads gen owners m).1 (insertLoads gen owners m).2 := by
  induction owners generalizing m with
  | nil => exact Generated.nil X m
  | cons owner owners ih =>
    exact (hgen m owner List.mem_cons_self).append
      (ih (fun m o ho => hgen m o (List.mem_cons_of_mem owner ho)) _)

theorem generated_allocaInsGen {owner : Owner} (h : owner.name = X.name → owner = X) (m : Module) :
    Generated X m (allocaInsGen m owner).1 [(allocaInsGen m owner).2] := by
  have hword := words_newGlobal m (.allocaIns owner) (.constantInt 0)
    (sectionName owner.name .NoReadAlloca) ("NoReadAlloca." ++ owner.name)
  refine ⟨?_, ?_⟩
  · have hsection : sectionName owner.name .NoReadAlloca = sectionName X.name .NoReadAlloca ↔
        isAI X (.AI owner) := by
      rw [sectionName_inj, isAI, decide_eq_true_iff]
      exact ⟨h, congrArg Owner.name⟩
    have halloc := hword (sectionName X.name .NoReadAlloca)
    rw [if_congr hsection rfl rfl] at halloc
    rw [allocaInsGen, readIds_insertedLoad]
    exact halloc
  · have hdealloc := hword (sectionName X.name .NoWriteDealloca)
    rw [if_neg (sectionName_alloc_ne_dealloc _ _)] at hdealloc
    exact hdealloc

theorem generated_deallocaInsGen {owner : Owner} (h : owner.name = X.name → owner = X) (m : Module)
    (count : ℕ) :
    Generated X m (deallocaInsGen m owner count).1 [(deallocaInsGen m owner count).2] := by
  have hword := words_newGlobal m (.deallocaIns owner count) (.constantInt 0)
    (sectionName owner.name .NoWriteDealloca) ("NoWriteDealloca." ++ owner.name)
  refine ⟨?_, ?_⟩
  · have halloc := hword (sectionName X.name .NoReadAlloca)
    rw [if_neg (sectionName_alloc_ne_dealloc _ _).symm] at halloc
    exact halloc
  · have hsection : sectionName owner.name .NoWriteDealloca =
        sectionName X.name .NoWriteDealloca ↔ isDI X (.DI owner count) := by
      rw [sectionName_inj, isDI, decide_eq_true_iff]
      exact ⟨h, congrArg Owner.name⟩
    have hdealloc := hword (sectionName X.name .NoWriteDealloca)
    rw [if_congr hsection rfl rfl] at hdealloc
    rw [deallocaInsGen, readIds_insertedLoad]
    exact hdealloc

variable {ctx : CodeContext} (hX : ∀ owner ∈ ctx.owners, owner.name = X.name → owner = X)

include hX

theorem generated_allocas (g : GenState) :
    Generated X g.M (allocas ctx g).1 (allocas ctx g).2 := by
  unfold allocas
  split_ifs
  · exact Generated.nil X g.M
  · exact generated_insertLoads (fun m owner ho => generated_allocaInsGen (hX owner ho) m) g.M

theorem generated_genInstruction {I : Instruction} (hsource : I.id.isSource) (g : GenState) :
    Generated X g.M (genInstruction ctx g I).1.M (genInstruction ctx g I).2 := by
  have hallocas := generated_allocas hX g
  unfold genInstruction
  dsimp only
  split_ifs
  · have hrenamed : (InstId.isSource { I with
        operands := I.operands.map (renameOperand ctx.globVar (allocas ctx g).1) }.id) := hsource
    exact hallocas.append (generated_source hrenamed X _)
  · exact hallocas.append ((generated_insertLoads
      (fun m owner ho => generated_deallocaInsGen (hX owner ho) m g.returns) _).append
        (generated_source hsource X _))
  · exact hallocas.append (generated_source hsource X _)

theorem generated_genBlock {BB : List Instruction} (hsource : ∀ I ∈ BB, I.id.isSource)
    (g : GenState) : Generated X g.M (genBlock ctx BB g).1.M (genBlock ctx BB g).2 := by
  induction BB generalizing g with
  | nil => exact Generated.nil X g.M
  | cons I rest ih =>
    exact (generated_genInstruction hX (hsource I List.mem_cons_self) g).append
      (ih (fun J hJ => hsource J (List.mem_cons_of_mem I hJ)) _)

theorem generated_genBlocks {blocks : List BasicBlock}
    (hsource : ∀ BB ∈ blocks, ∀ I ∈ BB, I.id.isSource) (g : GenState) :
    Generated X g.M (genBlocks ctx blocks g).1.M (genBlocks ctx blocks g).2.flatten := by
  induction blocks generalizing g with
  | nil => exact Generated.nil X g.M
  | cons BB rest ih =>
    exact (generated_genBlock hX (hsource BB List.mem_cons_self) g).append
      (ih (fun BB' hBB' => hsource BB' (List.mem_cons_of_mem BB hBB')) _)

end Generation

/-! Ids that the loads read. -/

theorem readIds_insertLoads {gen : Module → Owner → Module × Instruction} {id : Owner → InstId}
    {global : Owner → GlobalId} (hgen : ∀ m owner, ∃ name globalName,
      (gen m owner).2 = insertedLoad (id owner) name (global owner) globalName)
    (kind : InstId → Bool) (owners : List Owner) (m : Module) :
    readIds kind (insertLoads gen owners m).2 =
      (owners.filter fun owner => kind (id owner)).map global := by
  induction owners generalizing m with
  | nil => rfl
  | cons owner owners ih =>
    obtain ⟨name, globalName, hload⟩ := hgen m owner
    change readIds kind ([(gen m owner).2] ++ (insertLoads gen owners (gen m owner).1).2) = _
    rw [readIds_append, ih, hload, readIds_insertedLoad, List.filter_cons]
    split_ifs <;> rfl

theorem filter_eq_singleton {owners : List Owner} (hnodup : owners.Nodup) {X : Owner}
    (hX : X ∈ owners) : (owners.filter fun owner => owner = X) = [X] := by
  rw [List.filter_eq, List.count_eq_one_of_mem hnodup hX]
  rfl

def returnCount (code : List Instruction) : ℕ := code.countP (·.opcode = .ret)

theorem returnCount_append (code code' : List Instruction) :
    returnCount (code ++ code') = returnCount code + returnCount code' := List.countP_append

section Reads

variable (ctx : CodeContext)

theorem genInstruction_code (g : GenState) (I : Instruction) : ∃ I', I'.id = I.id ∧
    (genInstruction ctx g I).2 = (allocas ctx g).2 ++
      ((if I.opcode = .ret then (deallocas ctx g.returns (allocas ctx g).1).2 else []) ++ [I']) := by
  unfold genInstruction
  dsimp only
  split_ifs with hrenames hret hret
  · simp [hret, renames] at hrenames
  · exact ⟨{ I with operands := I.operands.map (renameOperand ctx.globVar (allocas ctx g).1) },
      rfl, rfl⟩
  · exact ⟨I, rfl, rfl⟩
  · exact ⟨I, rfl, rfl⟩

theorem returns_genInstruction (g : GenState) (I : Instruction) :
    (genInstruction ctx g I).1.returns = g.returns + returnCount [I] := by
  unfold genInstruction
  dsimp only
  split_ifs with hrenames hret
  · have hne : I.opcode ≠ .ret := fun hret => by simp [hret, renames] at hrenames
    simp [returnCount, hne]
  · simp [returnCount, hret]
  · simp [returnCount, hret]

theorem returns_genBlock (BB : List Instruction) (g : GenState) :
    (genBlock ctx BB g).1.returns = g.returns + returnCount BB := by
  induction BB generalizing g with
  | nil => rfl
  | cons I rest ih =>
    change (genBlock ctx rest (genInstruction ctx g I).1).1.returns = _
    rw [ih, returns_genInstruction, Nat.add_assoc, ← returnCount_append, List.singleton_append]

variable {ctx} {X : Owner} {I : Instruction} (hsource : I.id.isSource)

include hsource

theorem readIds_isAI_genInstruction (g : GenState) :
    readIds (isAI X) (genInstruction ctx g I).2 = readIds (isAI X) (allocas ctx g).2 := by
  obtain ⟨I', hid, hcode⟩ := genInstruction_code ctx g I
  have hI : isAI X I'.id = false := isAI_of_isSource (hid ▸ hsource)
  have hnone : ∀ m, readIds (isAI X) (deallocas ctx g.returns m).2 = [] := by
    intro m
    rw [deallocas, readIds_insertLoads (fun _ _ => ⟨_, _, rfl⟩)]
    simp [isAI]
  rw [hcode, readIds_append, readIds_append, readIds_of_not hI]
  split_ifs
  · rw [hnone]
    exact List.append_nil _
  · exact List.append_nil _

theorem readIds_isDI_genInstruction (hnodup : ctx.owners.Nodup) (hX : X ∈ ctx.owners)
    (g : GenState) : readIds (isDI X) (genInstruction ctx g I).2 =
      (List.range' g.returns (returnCount [I])).map (.deallocaIns X) := by
  obtain ⟨I', hid, hcode⟩ := genInstruction_code ctx g I
  have hI : isDI X I'.id = false := isDI_of_isSource (hid ▸ hsource)
  have hnone : readIds (isDI X) (allocas ctx g).2 = [] := by
    unfold allocas
    split_ifs
    · rfl
    · rw [readIds_insertLoads (fun _ _ => ⟨_, _, rfl⟩)]
      simp [isDI]
  have hfilter : (ctx.owners.filter fun owner => isDI X (.DI owner g.returns)) = [X] :=
    filter_eq_singleton hnodup hX
  rw [hcode, readIds_append, readIds_append, readIds_of_not hI, hnone, List.nil_append,
    List.append_nil]
  split_ifs with hret
  · rw [deallocas, readIds_insertLoads (fun _ _ => ⟨_, _, rfl⟩), hfilter]
    simp [returnCount, hret]
  · simp [returnCount, hret, readIds]

omit hsource

/-- Allocation loads are inserted once at most. -/
theorem readIds_isAI_genBlock {g : GenState} (h : Started ctx g) {BB : List Instruction}
    (hsource : ∀ I ∈ BB, I.id.isSource) : readIds (isAI X) (genBlock ctx BB g).2 = [] := by
  induction BB generalizing g with
  | nil => rfl
  | cons I rest ih =>
    change readIds (isAI X) ((genInstruction ctx g I).2 ++ _) = _
    rw [readIds_append, readIds_isAI_genInstruction (hsource I List.mem_cons_self),
      allocas_of_started h]
    exact ih (started_genInstruction ctx g I) fun J hJ => hsource J (List.mem_cons_of_mem I hJ)

theorem readIds_isAI_genBlocks {g : GenState} (h : Started ctx g) {blocks : List BasicBlock}
    (hsource : ∀ BB ∈ blocks, ∀ I ∈ BB, I.id.isSource) :
    readIds (isAI X) (genBlocks ctx blocks g).2.flatten = [] := by
  induction blocks generalizing g with
  | nil => rfl
  | cons BB rest ih =>
    change readIds (isAI X) ((genBlock ctx BB g).2 ++ (genBlocks ctx rest _).2.flatten) = _
    rw [readIds_append, readIds_isAI_genBlock h (hsource BB List.mem_cons_self),
      ih (started_genBlock h BB) fun BB' hBB' => hsource BB' (List.mem_cons_of_mem BB hBB')]
    rfl

/-- The code of a function that is not empty has one allocation load of each owner. -/
theorem readIds_isAI_start (hnodup : ctx.owners.Nodup) (hX : X ∈ ctx.owners)
    {blocks : List BasicBlock} (hblocks : blocks ≠ []) (hne : ∀ BB ∈ blocks, BB ≠ [])
    (hsource : ∀ BB ∈ blocks, ∀ I ∈ BB, I.id.isSource) (m : Module) :
    readIds (isAI X) (genBlocks ctx blocks ⟨m, false, 0⟩).2.flatten = [.allocaIns X] := by
  obtain ⟨entry, rest, rfl⟩ := List.exists_cons_of_ne_nil hblocks
  obtain ⟨I, BB, rfl⟩ := List.exists_cons_of_ne_nil (hne entry List.mem_cons_self)
  have hentry := hsource (I :: BB) List.mem_cons_self
  have hstarted := started_genInstruction ctx ⟨m, false, 0⟩ I
  have hblock : Started ctx (genBlock ctx (I :: BB) ⟨m, false, 0⟩).1 :=
    started_genBlock hstarted BB
  have hfilter : (ctx.owners.filter fun owner => isAI X (.AI owner)) = [X] :=
    filter_eq_singleton hnodup hX
  have hallocas : readIds (isAI X) (allocas ctx ⟨m, false, 0⟩).2 = [.allocaIns X] := by
    rw [allocas, if_neg (by simp), readIds_insertLoads (fun _ _ => ⟨_, _, rfl⟩), hfilter]
    rfl
  change readIds (isAI X) (((genInstruction ctx ⟨m, false, 0⟩ I).2 ++ (genBlock ctx BB _).2) ++
    (genBlocks ctx rest _).2.flatten) = _
  rw [readIds_append, readIds_append,
    readIds_isAI_genInstruction (hentry I List.mem_cons_self), hallocas,
    readIds_isAI_genBlock hstarted fun J hJ => hentry J (List.mem_cons_of_mem I hJ),
    readIds_isAI_genBlocks hblock fun BB' hBB' => hsource BB' (List.mem_cons_of_mem _ hBB')]
  rfl

/-- Deallocation loads are numbered by the returns of the function. -/
theorem readIds_isDI_genBlock (hnodup : ctx.owners.Nodup) (hX : X ∈ ctx.owners)
    {BB : List Instruction} (hsource : ∀ I ∈ BB, I.id.isSource) (g : GenState) :
    readIds (isDI X) (genBlock ctx BB g).2 =
      (List.range' g.returns (returnCount BB)).map (.deallocaIns X) := by
  induction BB generalizing g with
  | nil => rfl
  | cons I rest ih =>
    change readIds (isDI X) ((genInstruction ctx g I).2 ++ _) = _
    rw [readIds_append,
      readIds_isDI_genInstruction (hsource I List.mem_cons_self) hnodup hX,
      ih (fun J hJ => hsource J (List.mem_cons_of_mem I hJ)), returns_genInstruction,
      ← List.map_append, List.range'_append_1, ← returnCount_append, List.singleton_append]

theorem readIds_isDI_genBlocks (hnodup : ctx.owners.Nodup) (hX : X ∈ ctx.owners)
    {blocks : List BasicBlock} (hsource : ∀ BB ∈ blocks, ∀ I ∈ BB, I.id.isSource) (g : GenState) :
    readIds (isDI X) (genBlocks ctx blocks g).2.flatten =
      (List.range' g.returns (returnCount blocks.flatten)).map (.deallocaIns X) := by
  induction blocks generalizing g with
  | nil => rfl
  | cons BB rest ih =>
    change readIds (isDI X) ((genBlock ctx BB g).2 ++ (genBlocks ctx rest _).2.flatten) = _
    rw [readIds_append, readIds_isDI_genBlock hnodup hX (hsource BB List.mem_cons_self),
      ih (fun BB' hBB' => hsource BB' (List.mem_cons_of_mem BB hBB')), returns_genBlock,
      ← List.map_append, List.range'_append_1, ← returnCount_append, List.flatten_cons]

end Reads

/-! Runs of the pass. -/

def IsMarkerOf (X : Owner) (id : GlobalId) : Prop := id = .allocaIns X ∨ ∃ c, id = .deallocaIns X c

theorem MadeBy.marker_name {functions : List Function} {G : GlobalVariable}
    (h : MadeBy functions G) {f : String} (hid : IsMarkerOf (.function f) G.id) :
    f ∈ functions.map Function.name := by
  obtain ⟨F, hF, ⟨⟨v, hv⟩, -⟩ | ⟨owner, howner, hmarker⟩⟩ := h
  · rw [hv] at hid
    rcases hid with hid | ⟨c, hid⟩ <;> cases hid
  · have hX : owner = .function f := by
      rcases hmarker with ⟨hG, -⟩ | ⟨count, hG, -⟩ <;> rcases hid with hid | ⟨c, hid⟩ <;>
        rw [hG] at hid <;> cases hid <;> rfl
    subst hX
    simp only [List.mem_cons, reduceCtorEq, Owner.function.injEq, List.not_mem_nil, or_false,
      false_or] at howner
    exact List.mem_map.mpr ⟨F, hF, howner.symm⟩

theorem not_marker_before {m : SourceModule} {pre : List Function} {s : PassState}
    (hs : stateBefore m.toModule pre = some s) {f : String} (hf : f ∉ pre.map Function.name)
    {G : GlobalVariable} (hG : G ∈ s.M.globals) : ¬ IsMarkerOf (.function f) G.id := by
  obtain ⟨s₀, pre', hs₀, hpre⟩ := stateBefore_eq_some.mp hs
  intro hid
  have hsource : G ∉ (withSeraj m.toModule).globals := by
    intro hG
    rcases source_or_seraj hG with ⟨position, hposition⟩ | hseraj
    · rw [hposition] at hid
      rcases hid with hid | ⟨c, hid⟩ <;> cases hid
    · rw [hseraj] at hid
      rcases hid with hid | ⟨c, hid⟩ <;> cases hid
  rcases (madeBy_processFunctions hpre).added G hG with hG | hG
  · have hrel := (prepared hs₀).relocation
    split_ifs at hrel
    · rcases (extends_GlbVarGen hrel).added G hG with hG | ⟨⟨v, hv⟩, -⟩
      · exact hsource hG
      · rw [hv] at hid
        rcases hid with hid | ⟨c, hid⟩ <;> cases hid
    · exact hsource (hrel.1 ▸ hG)
  · exact hf (MadeBy.marker_name hG hid)

/-- Contents of a section: globals that stood there, words with some ids, and later globals. -/
def Holds (M : Module) (s : String) (occupied : List GlobalVariable) (ids : List GlobalId) :
    Prop :=
  ∃ words later, sectionGlobals M s = occupied ++ words ++ later ∧
    words.map GlobalVariable.id = ids ∧
    (∀ G ∈ words, G.valueType = .integer 32 ∧ G.alignment = 4) ∧
    ∀ G ∈ occupied ++ later, G.id ∉ ids

theorem holds_of_words {P : GlobalVariable → Prop} {m start t final : Module} {s : String}
    {ids : List GlobalId} (hstart : sectionGlobals start s = sectionGlobals m s)
    (hwords : Words s start t ids) (hfinal : Extends P t final)
    (hm : ∀ G ∈ m.globals, G.id ∉ ids) (hP : ∀ G, P G → G.id ∉ ids) :
    Holds final s (sectionGlobals m s) ids := by
  obtain ⟨words, heq, hids, hword⟩ := hwords
  obtain ⟨created, hglobals, hcreated⟩ := hfinal.appended
  refine ⟨words, created.filter (·.section_ = s), ?_, hids, hword, ?_⟩
  · rw [← hstart, ← heq, sectionGlobals, sectionGlobals, hglobals, List.filter_append]
  · rw [List.forall_mem_append]
    exact ⟨fun G hG => hm G (List.mem_filter.mp hG).1,
      fun G hG => hP G (hcreated G (List.mem_filter.mp hG).1)⟩

/-- What a run leaves in the sections of a function that is kept, and what the loads in its code
read. -/
structure Sections (out : Output) (s : PassState) (F F' : Function) : Prop where
  alloc_reads : readIds (isAI (.function F.name)) F'.instructions = [.allocaIns (.function F.name)]
  dealloc_reads : readIds (isDI (.function F.name)) F'.instructions =
    (List.range (returnCount F.instructions)).map (.deallocaIns (.function F.name))
  alloc : Holds out.M (sectionName F.name .NoReadAlloca)
    (sectionGlobals s.M (sectionName F.name .NoReadAlloca)) [.allocaIns (.function F.name)]
  dealloc : Holds out.M (sectionName F.name .NoWriteDealloca)
    (sectionGlobals s.M (sectionName F.name .NoWriteDealloca))
    ((List.range (returnCount F.instructions)).map (.deallocaIns (.function F.name)))

/-! Owners of a function's code. -/

theorem codeOwners_nodup (m : Module) (F : Function) : (codeOwners m F).Nodup := by
  unfold codeOwners
  split_ifs <;> simp

theorem mem_codeOwners {m : Module} {F : Function} (hsize : 0 < blockSize m F) :
    .function F.name ∈ codeOwners m F := by
  rw [codeOwners, if_pos hsize.ne']
  exact List.mem_append_right _ List.mem_cons_self

/-- Only the function itself among the owners has its name: `M` allocates in `main`. -/
theorem eq_of_mem_codeOwners {m : Module} {F : Function} {X : Owner} (hX : X ∈ codeOwners m F)
    (hname : X.name = F.name) : X = .function F.name := by
  rw [codeOwners, List.mem_append] at hX
  rcases hX with hX | hX
  · split_ifs at hX with hmain
    · obtain rfl := List.mem_singleton.mp hX
      rw [hmain.1] at hname
      exact absurd hname (by decide)
    · cases hX
  · split_ifs at hX
    · exact List.mem_singleton.mp hX
    · cases hX

section Run

variable {m : SourceModule} {out : Output} (h : runOnModule m.toModule = some out)
  {pre post : List Function} {F : Function} (hfunctions : m.functions = pre ++ F :: post)
  (hkept : IsKept m.toModule pre F)

include h

theorem runOnModule_layout : out.M.getTypeAllocSize = m.getTypeAllocSize := by
  obtain ⟨s, functions, hs, hrun, hM, -⟩ := runOnModule_cases h
  rw [hM]
  exact (extends_processFunctions hrun).getTypeAllocSize.trans hs.getTypeAllocSize

include hfunctions hkept

theorem exists_codeGen : ∃ s start ctx final, stateBefore m.toModule pre = some s ∧
    Extends (IsRelocated (.function F.name)) s.M start ∧ ctx.owners = codeOwners m.toModule F ∧
    (genBlocks ctx F.blocks ⟨start, false, 0⟩).1.M = final ∧
    out.M.functions[pre.length]? =
      some { F with blocks := (genBlocks ctx F.blocks ⟨start, false, 0⟩).2 } ∧
    Extends (MadeBy post) final out.state.M := by
  obtain ⟨s, t, F', post', hbefore, hF, hposition, hrest⟩ := runOnModule_function h hfunctions
  have hs := reached_stateBefore hbefore
  obtain ⟨start, hgen, hM, rfl⟩ := (hs.kept hF hkept).code
  have howners : (contextOf s F t.globVar).owners = codeOwners m.toModule F := by
    rw [contextOf, DefUse_congr hs.getTypeAllocSize F, ← ownersOf_eq hs]
    rfl
  exact ⟨s, start, contextOf s F t.globVar, t.M, hbefore, extends_GlbVarGen hgen, howners,
    hM.symm, hposition, madeBy_processFunctions hrest⟩

theorem sections_of_kept (hsize : 0 < blockSize m.toModule F) : ∃ s F',
    stateBefore m.toModule pre = some s ∧ out.M.functions[pre.length]? = some F' ∧
      Sections out s F F' := by
  obtain ⟨s, start, ctx, final, hbefore, hrelocated, howners, hcode, hposition, hpost⟩ :=
    exists_codeGen h hfunctions hkept
  have hwf := m.functions_wellFormed F (by simp [hfunctions])
  have hnames := m.function_names hfunctions
  have hsource : ∀ BB ∈ F.blocks, ∀ I ∈ BB, I.id.isSource := fun BB hBB I hI =>
    hwf.ids_source I (List.mem_flatten.mpr ⟨BB, hBB, hI⟩)
  have hblocks : F.blocks ≠ [] := by
    intro hnil
    have hempty : F.instructions = [] := by rw [Function.instructions, hnil, List.flatten_nil]
    rw [blockSize, DefUse, hempty] at hsize
    exact Nat.lt_irrefl 0 hsize
  have hnodup : ctx.owners.Nodup := howners ▸ codeOwners_nodup _ _
  have hmem : .function F.name ∈ ctx.owners := howners ▸ mem_codeOwners hsize
  have hgenerated := generated_genBlocks (fun X hX hname => eq_of_mem_codeOwners (howners ▸ hX)
    hname) hsource ⟨start, false, 0⟩
  have halloc := readIds_isAI_start hnodup hmem hblocks hwf.blocks_nonempty hsource start
  have hdealloc := readIds_isDI_genBlocks hnodup hmem hsource ⟨start, false, 0⟩
  rw [← List.range_eq_range'] at hdealloc
  have hholds : ∀ kind ids, kind ≠ .MemAccess → (∀ id ∈ ids, IsMarkerOf (.function F.name) id) →
      Words (sectionName F.name kind) start final ids →
      Holds out.M (sectionName F.name kind) (sectionGlobals s.M (sectionName F.name kind)) ids := by
    intro kind ids hkind hids hwords
    have hstart : sectionGlobals start (sectionName F.name kind) =
        sectionGlobals s.M (sectionName F.name kind) :=
      sectionGlobals_of_extends hrelocated fun G hG => hG.2 ▸ sectionName_access_ne hkind _ _
    have hfinal := holds_of_words hstart hwords hpost
      (fun G hG hid => not_marker_before hbefore hnames.1 hG (hids _ hid))
      (fun G hG hid => hnames.2 (MadeBy.marker_name hG (hids _ hid)))
    rwa [Holds, sectionGlobals, globals_eq h]
  rw [← hcode] at hholds
  have hallocWords := hgenerated.alloc
  have hdeallocWords := hgenerated.dealloc
  rw [halloc] at hallocWords
  rw [hdealloc] at hdeallocWords
  exact ⟨s, _, hbefore, hposition, halloc, hdealloc,
    hholds _ _ (by decide) (by simp [IsMarkerOf]) hallocWords,
    hholds _ _ (by decide) (by simp [IsMarkerOf]) hdeallocWords⟩

end Run

end MMLMStore.SectionContents
