import Mathlib

/-!
# Modules of the compiler's intermediate representation

The part of an LLVM module that the pass reads or changes: globals with their symbol table,
functions with their basic blocks, and operands, each of which knows the name of the value it
denotes. New globals take the name asked for, or a numbered one when that name is in use.
-/
namespace MMLMStore.ModuleIR

inductive Ty
  | integer (bits : ℕ)
  | float
  | double
  | array (numElements : ℕ) (elementType : Ty)
  | struct (name : String)
  | other (name : String)
  deriving DecidableEq, Repr

inductive DataType
  | isInvalid
  | isIntegerTy
  | isFloatTy
  | isDoubleTy
  | isArrayTy
  | isStructTy
  deriving DecidableEq, Repr

def typeCheck : Ty → DataType
  | .integer _ => .isIntegerTy
  | .float => .isFloatTy
  | .double => .isDoubleTy
  | .array _ _ => .isArrayTy
  | .struct _ => .isStructTy
  | .other _ => .isInvalid

/-- Whom a block belongs to: the module's globals or a function. -/
inductive Owner
  | M
  | function (name : String)
  deriving DecidableEq, Repr

def Owner.name : Owner → String
  | .M => "M"
  | .function name => name

/-- A global variable object: one of the source, by position, or one the pass creates. -/
inductive GlobalId
  | source (position : ℕ)
  | ryan_seraj
  | relocated (owner : Owner) (varName : String)
  | allocaIns (owner : Owner)
  | deallocaIns (owner : Owner) (count : ℕ)
  deriving DecidableEq, Repr

/-- An instruction object: one of the source, or a load the pass inserts. -/
inductive InstId
  | source (n : ℕ)
  | AI (owner : Owner)
  | DI (owner : Owner) (count : ℕ)
  deriving DecidableEq, Repr

def InstId.isSource : InstId → Bool
  | .source _ => true
  | _ => false

/-- What an operand denotes. Constants have no name. -/
inductive Value
  | argument (index : ℕ) (name : String)
  | instruction (id : InstId) (name : String)
  | globalVariable (id : GlobalId) (name : String)
  | function (name : String)
  | constantData (size : ℕ) (value : ℤ)
  | constantExpr (base : Value) (offset : ℤ)
  | null
  deriving DecidableEq, Repr

def Value.getName : Value → String
  | .argument _ name => name
  | .instruction _ name => name
  | .globalVariable _ name => name
  | .function name => name
  | .constantData _ _ => ""
  | .constantExpr _ _ => ""
  | .null => ""

/-- How one index of a `getelementptr` moves the address. -/
inductive Stride
  | bytes (n : ℕ)
  | fields (offsets : List ℕ)
  deriving DecidableEq, Repr

inductive Opcode
  | alloca (ty : Ty)
  | load (size : ℕ)
  | store
  | getElementPtr (strides : List Stride)
  | call (calledFunction : Option String)
  | ret
  | br (targets : List ℕ)
  | phi (incoming : List ℕ)
  | other (name : String)
  deriving DecidableEq, Repr

/-- Blocks a branch may go to. -/
def Opcode.targets : Opcode → List ℕ
  | .br targets => targets
  | _ => []

structure Instruction where
  id : InstId
  name : String
  opcode : Opcode
  operands : List Value
  deriving DecidableEq, Repr

abbrev BasicBlock := List Instruction

structure Function where
  name : String
  args : List String
  blocks : List BasicBlock
  deriving DecidableEq, Repr

def Function.instructions (F : Function) : List Instruction := F.blocks.flatten

/-- Initial value of a global. -/
inductive Initializer
  | constantInt (value : ℤ)
  | constantFP (bits : ℕ)
  | constantDataArray (elements : List ℕ)
  | constantAggregateZero
  | other (references : List Value)
  deriving DecidableEq, Repr

structure GlobalVariable where
  id : GlobalId
  name : String
  valueType : Ty
  initializer : Option Initializer
  localLinkage : Bool
  section_ : String
  alignment : ℕ
  deriving DecidableEq, Repr

structure Module where
  globals : List GlobalVariable
  functions : List Function
  aliases : List String
  getTypeAllocSize : Ty → ℕ
  /-- Counter of the symbol table for numbered names. -/
  LastUnique : ℕ

def Module.symbols (m : Module) : List String :=
  m.globals.map GlobalVariable.name ++ (m.functions.map Function.name ++ m.aliases)

def Module.getNamedGlobal (m : Module) (name : String) : Option GlobalVariable :=
  m.globals.find? (·.name = name)

def Module.getGlobalVariable (m : Module) (name : String) : Option GlobalVariable :=
  (m.getNamedGlobal name).filter (!·.localLinkage)

/-- First number after `LastUnique` that makes the name a new one. -/
def makeUniqueName (taken : List String) (LastUnique : ℕ) (base : String) : ℕ :=
  (((List.range' (LastUnique + 1) (taken.length + 1)).find?
    fun n => base ++ "." ++ toString n ∉ taken).getD 0)

/-- Name a new symbol gets. -/
def Module.symbolName (m : Module) (name : String) : String :=
  if name ∈ m.symbols then name ++ "." ++ toString (makeUniqueName m.symbols m.LastUnique name)
  else name

/-- Append a global variable under the name asked for, made unique when it is in use. -/
def Module.newGlobal (m : Module) (id : GlobalId) (valueType : Ty) (initializer : Initializer)
    (section_ : String) (alignment : ℕ) (name : String) : Module :=
  { m with
    globals := m.globals ++ [
      { id := id
        name := m.symbolName name
        valueType := valueType
        initializer := some initializer
        localLinkage := false
        section_ := section_
        alignment := alignment }]
    LastUnique :=
      if name ∈ m.symbols then makeUniqueName m.symbols m.LastUnique name else m.LastUnique }

/-! Well-formed source modules. -/

/-- The operand denotes something of the function or of the module, under its name. -/
def Value.Declared (m : Module) (F : Function) : Value → Prop
  | .argument index name => F.args[index]? = some name
  | .instruction id name => ∃ I ∈ F.instructions, I.id = id ∧ I.name = name
  | .globalVariable id name => ∃ G ∈ m.globals, G.id = id ∧ G.name = name
  | .function name => name ∈ m.functions.map Function.name
  | .constantData _ _ => True
  | .constantExpr base _ => base.Declared m F
  | .null => False

instance Value.decidableDeclared (m : Module) (F : Function) :
    ∀ v : Value, Decidable (v.Declared m F)
  | .argument index name => inferInstanceAs (Decidable (F.args[index]? = some name))
  | .instruction id name =>
    inferInstanceAs (Decidable (∃ I ∈ F.instructions, I.id = id ∧ I.name = name))
  | .globalVariable id name =>
    inferInstanceAs (Decidable (∃ G ∈ m.globals, G.id = id ∧ G.name = name))
  | .function name => inferInstanceAs (Decidable (name ∈ m.functions.map Function.name))
  | .constantData _ _ => isTrue trivial
  | .constantExpr base _ => decidableDeclared m F base
  | .null => isFalse not_false

structure Function.WellFormed (m : Module) (F : Function) : Prop where
  named : F.name ≠ ""
  ids_source : ∀ I ∈ F.instructions, I.id.isSource
  ids_nodup : (F.instructions.map Instruction.id).Nodup
  names_nodup : ((F.args ++ F.instructions.map Instruction.name).filter (· ≠ "")).Nodup
  operands_declared : ∀ I ∈ F.instructions, ∀ v ∈ I.operands, v.Declared m F
  blocks_nonempty : ∀ B ∈ F.blocks, B ≠ []
  /-- No branch goes back to the entry block. -/
  entry_not_target : ∀ I ∈ F.instructions, 0 ∉ I.opcode.targets

instance (m : Module) (F : Function) : Decidable (F.WellFormed m) :=
  decidable_of_iff (F.name ≠ "" ∧ (∀ I ∈ F.instructions, I.id.isSource) ∧
      (F.instructions.map Instruction.id).Nodup ∧
      ((F.args ++ F.instructions.map Instruction.name).filter (· ≠ "")).Nodup ∧
      (∀ I ∈ F.instructions, ∀ v ∈ I.operands, v.Declared m F) ∧ (∀ B ∈ F.blocks, B ≠ []) ∧
      ∀ I ∈ F.instructions, 0 ∉ I.opcode.targets)
    ⟨fun ⟨h₁, h₂, h₃, h₄, h₅, h₆, h₇⟩ => ⟨h₁, h₂, h₃, h₄, h₅, h₆, h₇⟩,
      fun ⟨h₁, h₂, h₃, h₄, h₅, h₆, h₇⟩ => ⟨h₁, h₂, h₃, h₄, h₅, h₆, h₇⟩⟩

theorem Function.WellFormed.eq_of_name {m : Module} {F : Function} (h : F.WellFormed m)
    {I J : Instruction} (hI : I ∈ F.instructions) (hJ : J ∈ F.instructions)
    (hname : I.name = J.name) (hne : I.name ≠ "") : I = J := by
  have hnodup := h.names_nodup
  rw [List.filter_append, List.filter_map] at hnodup
  have hnames := (List.nodup_append.mp hnodup).2.1
  refine List.inj_on_of_nodup_map hnames ?_ ?_ hname
  · exact List.mem_filter.mpr ⟨hI, by simpa using hne⟩
  · exact List.mem_filter.mpr ⟨hJ, by simpa [← hname] using hne⟩

theorem Function.WellFormed.ne_null {m : Module} {F : Function} (h : F.WellFormed m)
    {I : Instruction} (hI : I ∈ F.instructions) {val : Value} (hval : val ∈ I.operands) :
    val ≠ .null := by
  rintro rfl
  exact h.operands_declared I hI _ hval

/-- A module as the compiler hands it to the pass. -/
structure SourceModule extends Module where
  symbols_nodup : (toModule.symbols.filter (· ≠ "")).Nodup
  globals_source : globals.map GlobalVariable.id = (List.range globals.length).map .source
  functions_wellFormed : ∀ F ∈ functions, F.WellFormed toModule

theorem globals_source_nil : ([] : List GlobalVariable).map GlobalVariable.id =
    (List.range ([] : List GlobalVariable).length).map .source := rfl

theorem globals_source_integer (name : String) :
    let G : GlobalVariable := ⟨.source 0, name, .integer 32, some (.constantInt 7), false, "", 4⟩
    [G].map GlobalVariable.id = (List.range [G].length).map .source := rfl

theorem SourceModule.eq_of_global_name (m : SourceModule) {G G' : GlobalVariable}
    (hG : G ∈ m.globals) (hG' : G' ∈ m.globals) (hname : G.name = G'.name) (hne : G.name ≠ "") :
    G = G' := by
  have hnodup := m.symbols_nodup
  rw [Module.symbols, List.filter_append, List.filter_map] at hnodup
  refine List.inj_on_of_nodup_map (List.nodup_append.mp hnodup).1 ?_ ?_ hname
  · exact List.mem_filter.mpr ⟨hG, by simpa using hne⟩
  · exact List.mem_filter.mpr ⟨hG', by simpa [← hname] using hne⟩

/-- Functions have distinct names. -/
theorem SourceModule.function_names (m : SourceModule) {pre post : List Function} {F : Function}
    (hfunctions : m.functions = pre ++ F :: post) :
    F.name ∉ pre.map Function.name ∧ F.name ∉ post.map Function.name := by
  have hnamed : F.name ≠ "" := (m.functions_wellFormed F (by simp [hfunctions])).named
  have hnodup := m.symbols_nodup
  rw [Module.symbols, List.filter_append, List.filter_append, hfunctions, List.map_append,
    List.map_cons, List.filter_append, List.filter_cons_of_pos (by simpa using hnamed)] at hnodup
  have hnames := (List.nodup_append.mp (List.nodup_append.mp hnodup).2.1).1
  obtain ⟨-, hlater, hdisjoint⟩ := List.nodup_append.mp hnames
  have hkeep : ∀ G : Function, G.name = F.name → decide (G.name ≠ "") = true := by
    intro G hG
    simpa [hG] using hnamed
  refine ⟨fun hmem => ?_, fun hmem => ?_⟩
  · exact hdisjoint F.name (List.mem_filter.mpr ⟨hmem, hkeep F rfl⟩) F.name (by simp) rfl
  · exact (List.nodup_cons.mp hlater).1 (List.mem_filter.mpr ⟨hmem, hkeep F rfl⟩)

/-- Allocation sizes on a target with eight-byte pointers, without padding. -/
def packedSize : Ty → ℕ
  | .integer bits => (bits + 7) / 8
  | .float => 4
  | .double => 8
  | .array numElements elementType => numElements * packedSize elementType
  | .struct _ => 8
  | .other _ => 8

/-! Symbol table lemmas. -/

section Symbols

variable {m : Module} {id : GlobalId} {valueType : Ty} {initializer : Initializer}
  {section_ name : String} {alignment : ℕ}

theorem makeUniqueName_not_mem (taken : List String) (LastUnique : ℕ) (base : String) :
    base ++ "." ++ toString (makeUniqueName taken LastUnique base) ∉ taken := by
  unfold makeUniqueName
  cases h : (List.range' (LastUnique + 1) (taken.length + 1)).find?
      fun n => base ++ "." ++ toString n ∉ taken with
  | some n => simpa using List.find?_some h
  | none =>
    -- more numbers were tried than there are names
    exfalso
    have hall := List.find?_eq_none.mp h
    have hinj : Function.Injective fun n : ℕ => base ++ "." ++ toString n := by
      intro a b hab
      have hrepr : a.repr = b.repr := by simpa using hab
      exact Nat.repr_injective hrepr
    have hsub : ((List.range' (LastUnique + 1) (taken.length + 1)).map
        fun n => base ++ "." ++ toString n) ⊆ taken := by
      intro s hs
      obtain ⟨n, hn, rfl⟩ := List.mem_map.mp hs
      simpa using hall n hn
    have hnodup : ((List.range' (LastUnique + 1) (taken.length + 1)).map
        fun n => base ++ "." ++ toString n).Nodup :=
      (List.nodup_range' (h := by norm_num)).map hinj
    have hlen := (hnodup.subperm hsub).length_le
    simp at hlen

theorem symbolName_not_mem (m : Module) (name : String) : m.symbolName name ∉ m.symbols := by
  unfold Module.symbolName
  split_ifs with h
  · exact makeUniqueName_not_mem _ _ _
  · exact h

theorem symbolName_of_not_mem (h : name ∉ m.symbols) : m.symbolName name = name := if_neg h

theorem symbolName_eq_self_iff : m.symbolName name = name ↔ name ∉ m.symbols := by
  constructor
  · intro h hmem
    have hfresh := symbolName_not_mem m name
    rw [h] at hfresh
    exact hfresh hmem
  · exact symbolName_of_not_mem

@[simp] theorem newGlobal_functions :
    (m.newGlobal id valueType initializer section_ alignment name).functions = m.functions := rfl

@[simp] theorem newGlobal_getTypeAllocSize :
    (m.newGlobal id valueType initializer section_ alignment name).getTypeAllocSize =
      m.getTypeAllocSize := rfl

theorem mem_symbols_newGlobal {s : String} :
    s ∈ (m.newGlobal id valueType initializer section_ alignment name).symbols ↔
      s ∈ m.symbols ∨ s = m.symbolName name := by
  simp only [Module.symbols, Module.newGlobal, List.map_append, List.map_cons, List.map_nil,
    List.mem_append, List.mem_singleton]
  tauto

theorem mem_globals_newGlobal {G : GlobalVariable} :
    G ∈ (m.newGlobal id valueType initializer section_ alignment name).globals ↔
      G ∈ m.globals ∨ G = ⟨id, m.symbolName name, valueType, some initializer, false, section_,
        alignment⟩ := by
  simp [Module.newGlobal]

theorem name_mem_symbols {G : GlobalVariable} (h : G ∈ m.globals) : G.name ∈ m.symbols :=
  List.mem_append.mpr (Or.inl (List.mem_map.mpr ⟨G, h, rfl⟩))

theorem getNamedGlobal_newGlobal (s : String) :
    (m.newGlobal id valueType initializer section_ alignment name).getNamedGlobal s =
      (m.getNamedGlobal s).or (if m.symbolName name = s then
        some ⟨id, m.symbolName name, valueType, some initializer, false, section_, alignment⟩
      else none) := by
  simp only [Module.getNamedGlobal, Module.newGlobal, List.find?_append, List.find?_cons,
    List.find?_nil]
  by_cases h : m.symbolName name = s <;> simp [h]

/-- Creating a symbol leaves the symbols there are alone. -/
theorem getNamedGlobal_newGlobal_of_mem {s : String} (h : s ∈ m.symbols) :
    (m.newGlobal id valueType initializer section_ alignment name).getNamedGlobal s =
      m.getNamedGlobal s := by
  have hne : m.symbolName name ≠ s := fun heq => symbolName_not_mem m name (heq ▸ h)
  rw [getNamedGlobal_newGlobal, if_neg hne, Option.or_none]

theorem getNamedGlobal_eq_some {s : String} {G : GlobalVariable}
    (h : m.getNamedGlobal s = some G) : G ∈ m.globals ∧ G.name = s :=
  ⟨List.mem_of_find?_eq_some h, by simpa using List.find?_some h⟩

/-- The new global is found under the name it got. -/
theorem getNamedGlobal_newGlobal_self :
    (m.newGlobal id valueType initializer section_ alignment name).getNamedGlobal
      (m.symbolName name) = some ⟨id, m.symbolName name, valueType, some initializer, false,
        section_, alignment⟩ := by
  have hfree : m.getNamedGlobal (m.symbolName name) = none := by
    cases hfound : m.getNamedGlobal (m.symbolName name) with
    | none => rfl
    | some G =>
      obtain ⟨hG, hname⟩ := getNamedGlobal_eq_some hfound
      exact absurd (hname ▸ name_mem_symbols hG) (symbolName_not_mem _ _)
  rw [getNamedGlobal_newGlobal, hfree, if_pos rfl, Option.none_or]

theorem getGlobalVariable_eq_some {s : String} {G : GlobalVariable} :
    m.getGlobalVariable s = some G ↔ m.getNamedGlobal s = some G ∧ G.localLinkage = false := by
  simp [Module.getGlobalVariable, Option.filter_eq_some_iff]

end Symbols

end MMLMStore.ModuleIR
