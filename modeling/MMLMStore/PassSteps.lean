import MMLMStore.LMStorePass

/-!
# What the steps of the pass do

Every step adds globals to the module and leaves its symbols alone; `codeGen` either leaves a
function too large for the storage as it is, or gives it a section id and generates its code.
-/
namespace MMLMStore.PassSteps
open KeyedTable LMRefMapping LMStorePass ModuleIR

/-- A module that has grown by globals of a kind. -/
structure Extends (P : GlobalVariable → Prop) (m m' : Module) : Prop where
  getTypeAllocSize : m'.getTypeAllocSize = m.getTypeAllocSize
  functions : m'.functions = m.functions
  symbols : ∀ s ∈ m.symbols, s ∈ m'.symbols
  named : ∀ s ∈ m.symbols, m'.getNamedGlobal s = m.getNamedGlobal s
  appended : ∃ created, m'.globals = m.globals ++ created ∧ ∀ G ∈ created, P G

variable {P Q : GlobalVariable → Prop} {m m' m'' : Module}

theorem Extends.globals (h : Extends P m m') : m.globals <+: m'.globals := by
  obtain ⟨created, heq, -⟩ := h.appended
  exact ⟨created, heq.symm⟩

theorem Extends.added (h : Extends P m m') : ∀ G ∈ m'.globals, G ∈ m.globals ∨ P G := by
  obtain ⟨created, heq, hP⟩ := h.appended
  intro G hG
  rw [heq, List.mem_append] at hG
  exact hG.imp_right (hP G)

theorem Extends.refl (m : Module) : Extends P m m :=
  ⟨rfl, rfl, fun _ h => h, fun _ _ => rfl, [], (List.append_nil _).symm, by simp⟩

theorem Extends.trans (h : Extends P m m') (h' : Extends P m' m'') : Extends P m m'' where
  getTypeAllocSize := h'.getTypeAllocSize.trans h.getTypeAllocSize
  functions := h'.functions.trans h.functions
  symbols s hs := h'.symbols s (h.symbols s hs)
  named s hs := (h'.named s (h.symbols s hs)).trans (h.named s hs)
  appended := by
    obtain ⟨created, heq, hP⟩ := h.appended
    obtain ⟨created', heq', hP'⟩ := h'.appended
    exact ⟨created ++ created', by rw [heq', heq, List.append_assoc],
      List.forall_mem_append.mpr ⟨hP, hP'⟩⟩

theorem Extends.mono (h : Extends P m m') (hPQ : ∀ G, P G → Q G) : Extends Q m m' := by
  obtain ⟨created, heq, hP⟩ := h.appended
  exact { h with appended := ⟨created, heq, fun G hG => hPQ G (hP G hG)⟩ }

theorem extends_newGlobal {id : GlobalId} {valueType : Ty} {initializer : Initializer}
    {section_ name : String} {alignment : ℕ}
    (hP : P ⟨id, m.symbolName name, valueType, some initializer, false, section_, alignment⟩) :
    Extends P m (m.newGlobal id valueType initializer section_ alignment name) where
  getTypeAllocSize := rfl
  functions := rfl
  symbols s hs := mem_symbols_newGlobal.mpr (Or.inl hs)
  named s hs := getNamedGlobal_newGlobal_of_mem hs
  appended := ⟨[_], rfl, by simpa using hP⟩

def IsRelocated (owner : Owner) (G : GlobalVariable) : Prop :=
  (∃ v, G.id = .relocated owner v) ∧ G.section_ = sectionName owner.name .MemAccess

def IsMarker (owners : List Owner) (G : GlobalVariable) : Prop :=
  ∃ owner ∈ owners,
    (G.id = .allocaIns owner ∧ G.section_ = sectionName owner.name .NoReadAlloca) ∨
    ∃ count, G.id = .deallocaIns owner count ∧
      G.section_ = sectionName owner.name .NoWriteDealloca

variable {owner : Owner} {globVar globVar' : Table String String}

theorem relocateVariable_cases {varName : String} {var : Variable}
    (h : relocateVariable owner varName var m globVar = some (m', globVar')) :
    globVar' = globVar.insert varName (targetName owner varName) ∧
      ((createdType var = none ∧ m' = m) ∨
        ∃ ty alignment data, createdType var = some (ty, alignment) ∧
          m' = m.newGlobal (.relocated owner varName) ty data
            (sectionName owner.name .MemAccess) alignment (targetName owner varName)) := by
  unfold relocateVariable at h
  cases hty : createdType var with
  | none =>
    simp only [hty, Option.some.injEq, Prod.mk.injEq] at h
    exact ⟨h.2.symm, Or.inl ⟨rfl, h.1.symm⟩⟩
  | some x =>
    obtain ⟨ty, alignment⟩ := x
    simp only [hty, Option.bind_eq_bind, Option.bind_eq_some_iff, Option.some.injEq,
      Prod.mk.injEq] at h
    obtain ⟨data, -, hm, hg⟩ := h
    exact ⟨hg.symm, Or.inr ⟨ty, alignment, data, rfl, hm.symm⟩⟩

theorem extends_relocateVariable {varName : String} {var : Variable}
    (h : relocateVariable owner varName var m globVar = some (m', globVar')) :
    Extends (IsRelocated owner) m m' := by
  rcases (relocateVariable_cases h).2 with ⟨-, rfl⟩ | ⟨ty, alignment, data, -, rfl⟩
  · exact Extends.refl _
  · exact extends_newGlobal ⟨⟨varName, rfl⟩, rfl⟩

theorem extends_GlbVarGen {entries : List (String × Variable)}
    (h : GlbVarGen owner entries m globVar = some (m', globVar')) :
    Extends (IsRelocated owner) m m' := by
  induction entries generalizing m globVar with
  | nil =>
    cases h
    exact Extends.refl _
  | cons x rest ih =>
    rw [GlbVarGen, Option.bind_eq_bind, Option.bind_eq_some_iff] at h
    obtain ⟨⟨m₁, globVar₁⟩, hfirst, hrest⟩ := h
    exact (extends_relocateVariable hfirst).trans (ih hrest)

theorem extends_insertLoads {owners : List Owner} {gen : Module → Owner → Module × Instruction}
    (hgen : ∀ m, ∀ owner ∈ owners, Extends P m (gen m owner).1) (m : Module) :
    Extends P m (insertLoads gen owners m).1 := by
  induction owners generalizing m with
  | nil => exact Extends.refl _
  | cons owner owners ih =>
    exact (hgen m owner (by simp)).trans
      (ih (fun m o ho => hgen m o (by simp [ho])) _)

theorem extends_allocas (ctx : CodeContext) (g : GenState) :
    Extends (IsMarker ctx.owners) g.M (allocas ctx g).1 := by
  unfold allocas
  split_ifs
  · exact Extends.refl _
  · exact extends_insertLoads (fun _ owner ho =>
      extends_newGlobal ⟨owner, ho, Or.inl ⟨rfl, rfl⟩⟩) _

theorem extends_deallocas (ctx : CodeContext) (returns : ℕ) (m : Module) :
    Extends (IsMarker ctx.owners) m (deallocas ctx returns m).1 :=
  extends_insertLoads (fun _ owner ho =>
    extends_newGlobal ⟨owner, ho, Or.inr ⟨returns, rfl, rfl⟩⟩) m

theorem extends_genInstruction (ctx : CodeContext) (g : GenState) (I : Instruction) :
    Extends (IsMarker ctx.owners) g.M (genInstruction ctx g I).1.M := by
  unfold genInstruction
  dsimp only
  split_ifs
  · exact extends_allocas ctx g
  · exact (extends_allocas ctx g).trans (extends_deallocas _ _ _)
  · exact extends_allocas ctx g

theorem extends_genBlock (ctx : CodeContext) (BB : List Instruction) (g : GenState) :
    Extends (IsMarker ctx.owners) g.M (genBlock ctx BB g).1.M := by
  induction BB generalizing g with
  | nil => exact Extends.refl _
  | cons I rest ih => exact (extends_genInstruction ctx g I).trans (ih _)

theorem extends_genBlocks (ctx : CodeContext) (blocks : List BasicBlock) (g : GenState) :
    Extends (IsMarker ctx.owners) g.M (genBlocks ctx blocks g).1.M := by
  induction blocks generalizing g with
  | nil => exact Extends.refl _
  | cons BB rest ih => exact (extends_genBlock ctx BB g).trans (ih _)

/-! One function. -/

def contextOf (s : PassState) (F : Function) (globVar : Table String String) : CodeContext :=
  ⟨ownersOf F s.GBlock (DefUse s.M F).block_size, globVar⟩

/-- A function whose block fits in the storage left: its variables are relocated, then its code is
generated. -/
structure Kept (s : PassState) (F : Function) (t : PassState) (F' : Function) : Prop where
  fits : (DefUse s.M F).block_size ≤ s.lmstorage_size
  GBlock : t.GBlock = s.GBlock
  BIG : t.BIG = s.BIG
  lmstorage_size : t.lmstorage_size = s.lmstorage_size - (DefUse s.M F).block_size
  blockSID : t.blockSID = s.blockSID + 1
  blockDescriptor : t.blockDescriptor = s.blockDescriptor ++
    [descriptorOf (lmrefOf s.BIG F.name) (s.blockSID + 1) ((DefUse s.M F).settle F)]
  code : ∃ m, GlbVarGen (.function F.name) (DefUse s.M F).variables_.entries s.M s.globVar =
      some (m, t.globVar) ∧
    t.M = (genBlocks (contextOf s F t.globVar) F.blocks ⟨m, false, 0⟩).1.M ∧
    F' = { F with blocks := (genBlocks (contextOf s F t.globVar) F.blocks ⟨m, false, 0⟩).2 }

structure Skipped (s : PassState) (F : Function) (t : PassState) (F' : Function) : Prop where
  exceeds : s.lmstorage_size < (DefUse s.M F).block_size
  function : F' = F
  M : t.M = s.M
  globVar : t.globVar = s.globVar
  GBlock : t.GBlock = s.GBlock
  BIG : t.BIG = s.BIG
  lmstorage_size : t.lmstorage_size = s.lmstorage_size
  blockSID : t.blockSID = s.blockSID
  blockDescriptor : t.blockDescriptor = s.blockDescriptor

theorem processFunction_cases {s t : PassState} {F F' : Function}
    (h : processFunction s F = some (t, F')) : Skipped s F t F' ∨ Kept s F t F' := by
  have hblock : ({ s with lmstore_blocks :=
      s.lmstore_blocks.set F.name (DefUse s.M F) } : PassState).lmstore_blocks.find? F.name =
        some (DefUse s.M F) := by
    rw [Table.find?_set, if_pos rfl]
  unfold processFunction codeGen at h
  rw [hblock] at h
  dsimp only at h
  split_ifs at h with hsize
  · cases h
    exact Or.inl ⟨hsize, rfl, rfl, rfl, rfl, rfl, rfl, rfl, rfl⟩
  · rw [keepFunction, Option.bind_eq_bind, Option.bind_eq_some_iff] at h
    obtain ⟨⟨m, globVar⟩, hgen, hrest⟩ := h
    cases hrest
    exact Or.inr ⟨not_lt.mp hsize, rfl, rfl, rfl, rfl, rfl, m, hgen, rfl, rfl⟩

end MMLMStore.PassSteps
