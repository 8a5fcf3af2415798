import MMLMStore.DescriptorFormat
import MMLMStore.LMRefMapping
import MMLMStore.LMStoreTables

/-!
# The pass

`runOnModule` and what it calls: the blocks of the module and of its functions, the globals made
for their variables, the rewritten operands with the inserted loads, the block descriptors and the
lines of the linker script. A dereferenced null pointer ends the pass (`none`).
-/
namespace MMLMStore.LMStorePass
open HexText DescriptorFormat KeyedTable LMRefMapping LMStoreTables ModuleIR

structure Variable where
  type : DataType
  size : ℕ
  elementType : DataType
  numElements : ℕ
  deriving DecidableEq, Repr

/-- `LMStoreBlock_t` before its sections are placed. -/
structure LMStoreBlock where
  funcName : String
  block_size : ℕ
  bypass : Bool
  variables_ : Table String Variable

inductive SectionKind
  | MemAccess
  | NoReadAlloca
  | ReadAlloca
  | NoWriteDealloca
  | WriteDealloca
  deriving DecidableEq, Repr

def SectionKind.text : SectionKind → String
  | .MemAccess => "MemAccess"
  | .NoReadAlloca => "NoReadAlloca"
  | .ReadAlloca => "ReadAlloca"
  | .NoWriteDealloca => "NoWriteDealloca"
  | .WriteDealloca => "WriteDealloca"

def segmentName (name : String) (kind : SectionKind) : String :=
  "." ++ name ++ kind.text ++ "Segment"

def sectionName (name : String) (kind : SectionKind) : String :=
  "." ++ name ++ kind.text ++ "Section"

/-- A placed block of `blockDescriptor`; the sections are named after `funcName`. -/
structure BlockDescriptor where
  blockSID : ℕ
  funcName : String
  block_size : ℕ
  bypass : Bool
  access_starting_addr : Text
  no_read_alloca_starting_addr : Text
  read_alloca_starting_addr : Text
  no_write_dealloca_starting_addr : Text
  write_dealloca_starting_addr : Text
  deriving DecidableEq, Repr

/-- A line of the linker script. -/
structure LinkLine where
  segment : String
  address : Text
  section_ : String
  deriving DecidableEq, Repr

/-- Process-wide variables of the pass, with the module it works on. Section ids only grow, so the
descriptors stand in their order. -/
structure PassState where
  M : Module
  BIG : BlockGraph
  globVar : Table String String
  lmstore_blocks : Table String LMStoreBlock
  GBlock : LMStoreBlock
  blockDescriptor : List BlockDescriptor
  blockSID : ℕ
  lmstorage_size : ℕ

/-! Variables of a block. -/

/-- Type, size and element description of a variable; sizes are cut to `unsigned`. -/
def variableOf (m : Module) (ty : Ty) : Variable where
  type := typeCheck ty
  size := m.getTypeAllocSize ty % 2 ^ 32
  elementType :=
    match ty with
    | .array _ elementType => typeCheck elementType
    | _ => .isInvalid
  numElements :=
    match ty with
    | .array numElements _ => numElements % 2 ^ 32
    | _ => 0

def LMStoreBlock.record (block : LMStoreBlock) (m : Module) (varName : String) (ty : Ty) :
    LMStoreBlock :=
  { block with
    block_size := addU32 block.block_size (m.getTypeAllocSize ty)
    variables_ := block.variables_.insert varName (variableOf m ty) }

/-- Named allocas of a supported type are recorded, each name once. -/
def recordAlloca (m : Module) (block : LMStoreBlock) (I : Instruction) : LMStoreBlock :=
  match I.opcode with
  | .alloca ty =>
    if I.name ≠ "" ∧ block.variables_.find? I.name = none ∧ typeCheck ty ≠ .isInvalid then
      block.record m I.name ty
    else block
  | _ => block

/-- The access counters and the second visit to the call graph have no reader and are left out. -/
def DefUse (m : Module) (F : Function) : LMStoreBlock :=
  F.instructions.foldl (recordAlloca m) ⟨F.name, 0, false, Table.empty⟩

/-- Globals kept out of the block: arrays of structures and arrays of more than twenty elements. -/
def excluded (m : Module) (ty : Ty) : Bool :=
  typeCheck ty = .isArrayTy ∧
    ((variableOf m ty).elementType = .isStructTy ∨ 20 < (variableOf m ty).numElements)

def recordGlobal (m : Module) (block : LMStoreBlock) (GV : GlobalVariable) : LMStoreBlock :=
  if GV.name ≠ "" ∧ excluded m GV.valueType = false then block.record m GV.name GV.valueType
  else block

/-- The global block before it is measured against the storage. -/
def collectGlobals (m : Module) : LMStoreBlock :=
  m.globals.foldl (recordGlobal m) ⟨"", 0, false, Table.empty⟩

/-! Relocated globals. -/

/-- Type and alignment of the global made for a variable. None is made for a structure, for an
array of anything but integers, floats and doubles, or for an invalid type. -/
def createdType (var : Variable) : Option (Ty × ℕ) :=
  match var.type with
  | .isIntegerTy => some (.integer 32, var.size)
  | .isFloatTy => some (.float, var.size)
  | .isDoubleTy => some (.double, var.size)
  | .isArrayTy =>
    match var.elementType with
    | .isIntegerTy => some (.array var.numElements (.integer 32), 4)
    | .isFloatTy => some (.array var.numElements .float, 4)
    | .isDoubleTy => some (.array var.numElements .double, 8)
    | _ => none
  | _ => none

def zeroInitializer : Ty → Initializer
  | .integer _ => .constantInt 0
  | .float => .constantFP 0
  | .double => .constantFP 0
  | _ => .constantAggregateZero

/-- Copy of an initial value into a created type: integers are read back as 32-bit ones, and what
is not plain data becomes zero. -/
def copyInitializer (ty : Ty) (data : Initializer) : Initializer :=
  match ty, data with
  | .integer _, .constantInt value => .constantInt (value % 2 ^ 32)
  | .float, .constantFP bits => .constantFP bits
  | .double, .constantFP bits => .constantFP bits
  | .array _ (.integer _), .constantDataArray elements =>
    .constantDataArray (elements.map (· % 2 ^ 32))
  | .array _ _, .constantDataArray elements => .constantDataArray elements
  | ty, _ => zeroInitializer ty

/-- Initial value of the global made for a variable of the owner. For the name `M` it is read
from the global of the variable's own name, which must exist and have a value. -/
def initialValue (m : Module) (owner : Owner) (varName : String) (ty : Ty) : Option Initializer :=
  if owner.name = "M" then
    ((m.getNamedGlobal varName).bind GlobalVariable.initializer).map (copyInitializer ty)
  else some (zeroInitializer ty)

def targetName (owner : Owner) (varName : String) : String := owner.name ++ "." ++ varName

/-- The global of one variable, and its entry in `globVar`, which is made in any case. -/
def relocateVariable (owner : Owner) (varName : String) (var : Variable)
    (m : Module) (globVar : Table String String) : Option (Module × Table String String) :=
  let globVar := globVar.insert varName (targetName owner varName)
  match createdType var with
  | none => some (m, globVar)
  | some (ty, alignment) => do
    let data ← initialValue m owner varName ty
    some (m.newGlobal (.relocated owner varName) ty data (sectionName owner.name .MemAccess)
      alignment (targetName owner varName), globVar)

def GlbVarGen (owner : Owner) : List (String × Variable) → Module → Table String String →
    Option (Module × Table String String)
  | [], m, globVar => some (m, globVar)
  | (varName, var) :: rest, m, globVar => do
    let (m, globVar) ← relocateVariable owner varName var m globVar
    GlbVarGen owner rest m globVar

/-! Inserted loads. -/

def insertedLoad (id : InstId) (name : String) (global : GlobalId) (globalName : String) :
    Instruction :=
  { id := id, name := name, opcode := .load 4, operands := [.globalVariable global globalName] }

def allocaInsGen (m : Module) (owner : Owner) : Module × Instruction :=
  let varName := "NoReadAlloca." ++ owner.name
  (m.newGlobal (.allocaIns owner) (.integer 32) (.constantInt 0)
      (sectionName owner.name .NoReadAlloca) 4 varName,
    insertedLoad (.AI owner) ("AI_" ++ varName) (.allocaIns owner) (m.symbolName varName))

def deallocaInsGen (m : Module) (owner : Owner) (count : ℕ) : Module × Instruction :=
  let varName := "NoWriteDealloca." ++ owner.name
  (m.newGlobal (.deallocaIns owner count) (.integer 32) (.constantInt 0)
      (sectionName owner.name .NoWriteDealloca) 4 varName,
    insertedLoad (.DI owner count) ("DI_" ++ varName) (.deallocaIns owner count)
      (m.symbolName varName))

def insertLoads (gen : Module → Owner → Module × Instruction) :
    List Owner → Module → Module × List Instruction
  | [], m => (m, [])
  | owner :: owners, m =>
    let x := gen m owner
    let y := insertLoads gen owners x.1
    (y.1, x.2 :: y.2)

/-! Code of one function. -/

/-- What stays fixed while the code of one function is generated. -/
structure CodeContext where
  owners : List Owner
  globVar : Table String String

/-- Blocks allocated and given back by a function: `main` does it for the global block too. -/
def ownersOf (F : Function) (GBlock : LMStoreBlock) (currBlock_size : ℕ) : List Owner :=
  (if F.name = "main" ∧ GBlock.bypass = false then [.M] else []) ++
    (if currBlock_size ≠ 0 then [.function F.name] else [])

/-- Operand after renaming: what `getGlobalVariable` finds under the new name, null if nothing. -/
def renameOperand (globVar : Table String String) (m : Module) (val : Value) : Value :=
  match globVar.find? val.getName with
  | none => val
  | some target =>
    match m.getGlobalVariable target with
    | some G => .globalVariable G.id G.name
    | none => .null

/-- Loads, stores and address computations are the instructions whose operands are renamed. -/
def renames (opcode : Opcode) : Bool :=
  match opcode with
  | .store => true
  | .load _ => true
  | .getElementPtr _ => true
  | _ => false

structure GenState where
  M : Module
  first_block : Bool
  /-- Return instructions met. -/
  returns : ℕ

/-- Allocation loads before the first instruction; they are not repeated once there are any. -/
def allocas (ctx : CodeContext) (g : GenState) : Module × List Instruction :=
  if g.first_block then (g.M, []) else insertLoads allocaInsGen ctx.owners g.M

def deallocas (ctx : CodeContext) (returns : ℕ) (m : Module) : Module × List Instruction :=
  insertLoads (fun m owner => deallocaInsGen m owner returns) ctx.owners m

def genInstruction (ctx : CodeContext) (g : GenState) (I : Instruction) :
    GenState × List Instruction :=
  let a := allocas ctx g
  let first_block := g.first_block || !ctx.owners.isEmpty
  if renames I.opcode then
    (⟨a.1, first_block, g.returns⟩,
      a.2 ++ [{ I with operands := I.operands.map (renameOperand ctx.globVar a.1) }])
  else if I.opcode = .ret then
    let d := deallocas ctx g.returns a.1
    (⟨d.1, first_block, g.returns + 1⟩, a.2 ++ (d.2 ++ [I]))
  else (⟨a.1, first_block, g.returns⟩, a.2 ++ [I])

def genBlock (ctx : CodeContext) : List Instruction → GenState → GenState × BasicBlock
  | [], g => (g, [])
  | I :: rest, g =>
    let x := genInstruction ctx g I
    let y := genBlock ctx rest x.1
    (y.1, x.2 ++ y.2)

def genBlocks (ctx : CodeContext) : List BasicBlock → GenState → GenState × List BasicBlock
  | [], g => (g, [])
  | BB :: rest, g =>
    let x := genBlock ctx BB g
    let y := genBlocks ctx rest x.1
    (y.1, x.2 :: y.2)

/-! Block descriptors. -/

/-- `block_size` of the descriptor, summed up from zero. -/
def summedSize (block : LMStoreBlock) : ℕ :=
  block.variables_.entries.foldl (fun size x => addU32 size x.2.size) 0

def descriptorOf (lmref_index blockSID : ℕ) (block : LMStoreBlock) : BlockDescriptor where
  blockSID := blockSID
  funcName := block.funcName
  block_size := summedSize block
  bypass := false
  access_starting_addr := access_starting_addr lmref_index
  no_read_alloca_starting_addr :=
    no_read_alloca_starting_addr lmref_index blockSID (summedSize block)
  read_alloca_starting_addr := read_alloca_starting_addr lmref_index blockSID (summedSize block)
  no_write_dealloca_starting_addr :=
    no_write_dealloca_starting_addr lmref_index blockSID (summedSize block)
  write_dealloca_starting_addr := write_dealloca_starting_addr lmref_index blockSID

/-- A new section id and its addresses; the descriptor's own `bypass` is never set. -/
def blockDescriptorGen (s : PassState) (block : LMStoreBlock) : PassState :=
  { s with
    blockSID := s.blockSID + 1
    blockDescriptor := s.blockDescriptor ++
      [descriptorOf (lmrefOf s.BIG block.funcName) (s.blockSID + 1) block] }

/-- Block of a function that fits in the storage: an empty one is bypassed too. -/
def LMStoreBlock.settle (block : LMStoreBlock) (F : Function) : LMStoreBlock :=
  { block with
    bypass := if block.block_size = 0 then true else block.bypass
    funcName := F.name }

def keepFunction (s : PassState) (F : Function) (block : LMStoreBlock) :
    Option (PassState × Function) := do
  let x ← GlbVarGen (.function F.name) block.variables_.entries s.M s.globVar
  let ctx := ⟨ownersOf F s.GBlock block.block_size, x.2⟩
  let code := genBlocks ctx F.blocks ⟨x.1, false, 0⟩
  some (blockDescriptorGen
    { s with
      M := code.1.M
      globVar := x.2
      lmstore_blocks := s.lmstore_blocks.set F.name (block.settle F)
      lmstorage_size := s.lmstorage_size - block.block_size } (block.settle F),
    { F with blocks := code.2 })

def codeGen (s : PassState) (F : Function) : Option (PassState × Function) :=
  match s.lmstore_blocks.find? F.name with
  | none => none
  | some block =>
    if s.lmstorage_size < block.block_size then
      some ({ s with
        lmstore_blocks := s.lmstore_blocks.set F.name { block with bypass := true } }, F)
    else keepFunction s F block

/-- `DefUse` replaces the function's entry of `lmstore_blocks`, then `codeGen` reads it. -/
def processFunction (s : PassState) (F : Function) : Option (PassState × Function) :=
  codeGen { s with lmstore_blocks := s.lmstore_blocks.set F.name (DefUse s.M F) } F

def processFunctions : List Function → PassState → Option (PassState × List Function)
  | [], s => some (s, [])
  | F :: rest, s => do
    let (s, F) ← processFunction s F
    let (s, done) ← processFunctions rest s
    some (s, F :: done)

/-! The module. -/

def GlobVarGen (s : PassState) : Option PassState :=
  let GBlock := collectGlobals s.M
  if s.lmstorage_size < GBlock.block_size then
    some { s with GBlock := { GBlock with bypass := true } }
  else do
    let (m, globVar) ← GlbVarGen .M GBlock.variables_.entries s.M s.globVar
    some { s with
      M := m
      globVar := globVar
      GBlock := GBlock
      lmstorage_size := s.lmstorage_size - GBlock.block_size }

def linkLine (name : String) (kind : SectionKind) (address : Text) : LinkLine :=
  ⟨segmentName name kind, address, sectionName name kind⟩

def descriptorLines (d : BlockDescriptor) : List LinkLine :=
  [linkLine d.funcName .MemAccess d.access_starting_addr,
    linkLine d.funcName .NoReadAlloca d.no_read_alloca_starting_addr,
    linkLine d.funcName .ReadAlloca d.read_alloca_starting_addr,
    linkLine d.funcName .NoWriteDealloca d.no_write_dealloca_starting_addr,
    linkLine d.funcName .WriteDealloca d.write_dealloca_starting_addr]

/-- LMRef digits `00` and section id digits `64` are literals of the format. -/
def globalLines (block_size : ℕ) : List LinkLine :=
  [linkLine "M" .MemAccess (snprintf (['0', 'x', '7', '2'] ++ ['0', '0'] ++ altHex 4 0)),
    linkLine "M" .NoReadAlloca
      (snprintf (['0', 'x', '7', '1'] ++ ['0', '0'] ++ ['6', '4'] ++ twoHex block_size)),
    linkLine "M" .NoWriteDealloca
      (snprintf (['0', 'x', '7', '3'] ++ ['0', '0'] ++ ['6', '4'] ++ twoHex block_size))]

def Fini (s : PassState) : List LinkLine :=
  (s.blockDescriptor.filter fun d => d.block_size > 0 ∧ d.bypass = false).flatMap
      descriptorLines ++
    (if s.GBlock.block_size > 0 ∧ s.GBlock.bypass = false then globalLines s.GBlock.block_size
    else [])

structure Output where
  state : PassState
  /-- The transformed module. -/
  M : Module
  linkld : List LinkLine

/-- The module with the first global the pass adds. -/
def withSeraj (m : Module) : Module :=
  m.newGlobal .ryan_seraj (.integer 32) (.constantInt 10) "" 4 "ryan_seraj"

/-- State before the functions are processed. -/
def prepare (m : Module) : Option PassState := do
  let s ← GlobVarGen
    { M := withSeraj m
      BIG := Table.empty.set "M" default
      globVar := Table.empty
      lmstore_blocks := Table.empty
      GBlock := ⟨"", 0, false, Table.empty⟩
      blockDescriptor := []
      blockSID := 0
      lmstorage_size := 16384 }
  let BIG ← buildGraph m.functions s.BIG
  some { s with BIG := LMRefMappingEntry BIG }

def runOnModule (m : Module) : Option Output := do
  let s ← prepare m
  let (s, functions) ← processFunctions m.functions s
  some ⟨s, { s.M with functions := functions }, Fini s⟩

end MMLMStore.LMStorePass
