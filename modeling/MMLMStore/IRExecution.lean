import MMLMStore.ModuleIR
import MMLMStore.StepRuns

/-!
# Execution of modules

Small steps of a module: a stack of activations, memory as the bytes of objects, and an
environment that stands for functions without a body. It may write to memory, call back and
return what it likes; results of opcodes that the pass does not look at are left open too.
-/
namespace MMLMStore.IRExecution
open ModuleIR StepRuns

inductive Object
  | globalVariable (id : GlobalId)
  | stack (n : ℕ)
  | function (name : String)
  | environment (n : ℕ)
  deriving DecidableEq, Repr

structure Pointer where
  object : Object
  offset : ℤ
  deriving DecidableEq, Repr

/-- A byte of a value: data, or one of the eight bytes of a pointer. -/
inductive Byte
  | data (n : ℕ)
  | fragment (pointer : Pointer) (index : ℕ)
  | undef
  deriving DecidableEq, Repr

abbrev Word := List Byte

def Pointer.add (p : Pointer) (d : ℤ) : Pointer := { p with offset := p.offset + d }

def Pointer.word (p : Pointer) : Word := (List.range 8).map (Byte.fragment p)

def asPointer (w : Word) : Option Pointer :=
  match w with
  | .fragment p _ :: _ => if w = p.word then some p else none
  | _ => none

def wordOf (size : ℕ) (value : ℤ) : Word :=
  (List.range size).map fun i => .data (value / 256 ^ i % 256).toNat

def natOf : Word → Option ℕ
  | [] => some 0
  | .data n :: rest => (natOf rest).map fun k => n + 256 * k
  | _ => none

def intOf (w : Word) : Option ℤ :=
  (natOf w).map fun n => if 2 * n < 256 ^ w.length then (n : ℤ) else n - 256 ^ w.length

abbrev Memory := Pointer → Byte

def readBytes (memory : Memory) (p : Pointer) (size : ℕ) : Word :=
  (List.range size).map fun i : ℕ => memory (p.add i)

/-- Byte that a word written at `p` leaves at `q`, if it reaches there. -/
def written (p : Pointer) (w : Word) (q : Pointer) : Option Byte :=
  if q.object = p.object ∧ p.offset ≤ q.offset then w[(q.offset - p.offset).toNat]? else none

def writeBytes (memory : Memory) (p : Pointer) (w : Word) : Memory :=
  fun q => (written p w q).getD (memory q)

/-! States. -/

structure Frame where
  activation : ℕ
  function : Function
  args : List Word
  registers : List (InstId × Word)
  /-- Block under execution, and the instructions of it that remain. -/
  block : ℕ
  code : List Instruction
  /-- The call that receives the value returned. -/
  returnTo : Option InstId

def Frame.bind (fr : Frame) (id : InstId) (w : Word) : Frame :=
  { fr with registers := (id, w) :: fr.registers }

inductive Activation
  | code (frame : Frame)
  | environment (returnTo : Option InstId)

structure State where
  memory : Memory
  stack : List Activation
  nextActivation : ℕ
  nextObject : ℕ

/-- What is left open in one step. -/
inductive Choice
  | run (word : Word) (index : ℕ)
  | write (p : Pointer) (w : Word)
  | callBack (name : String) (args : List Word)
  | finish (w : Word)
  deriving DecidableEq, Repr

/-- What a step does to memory, and which activation of which function does it. -/
inductive Event
  | silent
  | load (activation : ℕ) (function : String) (id : InstId) (p : Pointer) (w : Word)
  | store (activation : ℕ) (function : String) (id : InstId) (p : Pointer) (w : Word)
  | environmentStore (p : Pointer) (w : Word)
  deriving DecidableEq, Repr

/-! Operands. -/

def eval (fr : Frame) : Value → Option Word
  | .argument index _ => fr.args[index]?
  | .instruction id _ => (fr.registers.find? (·.1 = id)).map Prod.snd
  | .globalVariable id _ => some (Pointer.word ⟨.globalVariable id, 0⟩)
  | .function name => some (Pointer.word ⟨.function name, 0⟩)
  | .constantData size value => some (wordOf size value)
  | .constantExpr base offset =>
    ((eval fr base).bind asPointer).map fun p => (p.add offset).word
  | .null => none

def operand (fr : Frame) (I : Instruction) (k : ℕ) : Option Word := (I.operands[k]?).bind (eval fr)

def pointerOperand (fr : Frame) (I : Instruction) (k : ℕ) : Option Pointer :=
  (operand fr I k).bind asPointer

def strideOffset (stride : Stride) (index : ℤ) : Option ℤ :=
  match stride with
  | .bytes n => some (n * index)
  | .fields offsets => if 0 ≤ index then (offsets[index.toNat]?).map Int.ofNat else none

/-- Distance that the indices of an address computation add up to. -/
def gepOffset : List Stride → List Word → Option ℤ
  | [], [] => some 0
  | stride :: strides, w :: ws => do
    let d ← (intOf w).bind (strideOffset stride)
    let rest ← gepOffset strides ws
    some (d + rest)
  | _, _ => none

/-- Block a branch goes to; which case of a longer branch is taken is left open. -/
def branchTarget (targets : List ℕ) (condition : Option Word) (index : ℕ) : Option ℕ :=
  match targets with
  | [target] => some target
  | [ifTrue, ifFalse] =>
    (condition.bind natOf).map fun n => if n % 2 = 1 then ifTrue else ifFalse
  | _ => targets[index]?

/-- Values of the phi instructions of a block, all read before any is set, and its other
instructions. -/
def phis (fr : Frame) : List Instruction → Option (List (InstId × Word) × List Instruction)
  | [] => some ([], [])
  | I :: rest =>
    match I.opcode with
    | .phi incoming => do
      let k ← incoming.idxOf? fr.block
      let w ← operand fr I k
      let x ← phis fr rest
      some ((I.id, w) :: x.1, x.2)
    | _ => some ([], I :: rest)

/-! Steps. -/

def activationOf (M : Module) (activation : ℕ) (name : String) (args : List Word)
    (returnTo : Option InstId) : Activation :=
  match M.functions.find? (·.name = name) with
  | none => .environment returnTo
  | some F =>
    match F.blocks with
    | [] => .environment returnTo
    | entry :: _ => .code ⟨activation, F, args, [], 0, entry, returnTo⟩

def enter (M : Module) (name : String) (args : List Word) (returnTo : Option InstId)
    (s : State) : State :=
  { s with
    stack := activationOf M s.nextActivation name args returnTo :: s.stack
    nextActivation := s.nextActivation + 1 }

/-- The stack after a return, with the value returned in the caller. -/
def leave (value : Option Word) (returnTo : Option InstId) (rest : List Activation) :
    List Activation :=
  match value, returnTo, rest with
  | some w, some id, .code fr :: below => .code (fr.bind id w) :: below
  | _, _, _ => rest

def execute (M : Module) (word : Word) (index : ℕ) (s : State) (fr : Frame)
    (rest : List Activation) (I : Instruction) (code : List Instruction) :
    Option (Event × State) :=
  let next (fr : Frame) : State := { s with stack := .code { fr with code := code } :: rest }
  match I.opcode with
  | .alloca _ =>
    some (.silent, { next (fr.bind I.id (Pointer.word ⟨.stack s.nextObject, 0⟩)) with
      nextObject := s.nextObject + 1 })
  | .load size => do
    let p ← pointerOperand fr I 0
    let w := readBytes s.memory p size
    some (.load fr.activation fr.function.name I.id p w, next (fr.bind I.id w))
  | .store => do
    let w ← operand fr I 0
    let p ← pointerOperand fr I 1
    some (.store fr.activation fr.function.name I.id p w,
      { next fr with memory := writeBytes s.memory p w })
  | .getElementPtr strides => do
    let p ← pointerOperand fr I 0
    let ws ← (I.operands.drop 1).mapM (eval fr)
    let d ← gepOffset strides ws
    some (.silent, next (fr.bind I.id (p.add d).word))
  | .call (some name) => do
    let args ← I.operands.mapM (eval fr)
    some (.silent, enter M name args (some I.id) (next fr))
  | .call none => do
    -- the callee of an indirect call is the last operand
    let args ← I.operands.dropLast.mapM (eval fr)
    let p ← (I.operands.getLast?.bind (eval fr)).bind asPointer
    match p.object with
    | .function name => some (.silent, enter M name args (some I.id) (next fr))
    | _ => none
  | .ret => some (.silent, { s with stack := leave (operand fr I 0) fr.returnTo rest })
  | .br targets => do
    let target ← branchTarget targets (operand fr I 0) index
    let B ← fr.function.blocks[target]?
    let x ← phis fr B
    some (.silent, { s with
      stack := .code { fr with
        registers := x.1 ++ fr.registers
        block := target
        code := x.2 } :: rest })
  | .phi _ => none
  | .other _ => some (.silent, next (fr.bind I.id word))

def step (M : Module) (s : State) (c : Choice) : Option (Event × State) :=
  match s.stack, c with
  | .code fr :: rest, .run word index =>
    match fr.code with
    | [] => none
    | I :: code => execute M word index s fr rest I code
  | .environment _ :: _, .write p w =>
    some (.environmentStore p w, { s with memory := writeBytes s.memory p w })
  | .environment _ :: _, .callBack name args => some (.silent, enter M name args none s)
  | .environment returnTo :: rest, .finish w =>
    some (.silent, { s with stack := leave (some w) returnTo rest })
  | _, _ => none

/-- One step with the event it makes. -/
def Steps (M : Module) (s : State) (a : Choice × Event) (t : State) : Prop :=
  step M s a.1 = some (a.2, t)

/-- Entry into `main`, with any contents of the memory. -/
def initial (M : Module) (memory : Memory) (args : List Word) : State :=
  enter M "main" args none ⟨memory, [], 0, 0⟩

/-- The run that a list of choices makes, up to the first with no step. -/
def follow (M : Module) : State → List Choice → List ((Choice × Event) × State)
  | _, [] => []
  | s, c :: cs =>
    match step M s c with
    | none => []
    | some (e, t) => ((c, e), t) :: follow M t cs

theorem isRun_follow (M : Module) (s : State) (cs : List Choice) :
    IsRun (Steps M) s (follow M s cs) := by
  induction cs generalizing s with
  | nil => exact trivial
  | cons c cs ih =>
    unfold follow
    cases h : step M s c with
    | none => exact trivial
    | some x => exact ⟨h, ih x.2⟩

/-! What steps do. -/

/-- Event of an instruction that the activation goes past. -/
inductive Performs (fr : Frame) (I : Instruction) : Event → Prop
  | silent (hload : ∀ size, I.opcode ≠ .load size) (hstore : I.opcode ≠ .store) :
      Performs fr I .silent
  | load {size : ℕ} {p : Pointer} {w : Word} (hload : I.opcode = .load size)
      (hp : pointerOperand fr I 0 = some p) :
      Performs fr I (.load fr.activation fr.function.name I.id p w)
  | store {p : Pointer} {w : Word} (hstore : I.opcode = .store)
      (hp : pointerOperand fr I 1 = some p) :
      Performs fr I (.store fr.activation fr.function.name I.id p w)

inductive Moves (M : Module) : List Activation → Event → List Activation → Prop
  | advance {fr fr' : Frame} {rest : List Activation} {I : Instruction} {code : List Instruction}
      {e : Event} (hcode : fr.code = I :: code) (hret : I.opcode ≠ .ret)
      (hperforms : Performs fr I e) (hactivation : fr'.activation = fr.activation)
      (hfunction : fr'.function = fr.function) (hcode' : fr'.code = code) :
      Moves M (.code fr :: rest) e (.code fr' :: rest)
  | call {fr : Frame} {rest : List Activation} {I : Instruction} {code : List Instruction}
      {callee : Option String} (hcode : fr.code = I :: code) (hcall : I.opcode = .call callee)
      (activation : ℕ) (name : String) (args : List Word) :
      Moves M (.code fr :: rest) .silent
        (activationOf M activation name args (some I.id) :: .code { fr with code := code } :: rest)
  | ret {fr : Frame} {rest : List Activation} {I : Instruction} {code : List Instruction}
      (hcode : fr.code = I :: code) (hret : I.opcode = .ret) (value : Option Word) :
      Moves M (.code fr :: rest) .silent (leave value fr.returnTo rest)
  | branch {fr : Frame} {rest : List Activation} {I : Instruction} {code B : List Instruction}
      {targets : List ℕ} {target : ℕ} {x : List (InstId × Word) × List Instruction}
      (hcode : fr.code = I :: code) (hbr : I.opcode = .br targets) (htarget : target ∈ targets)
      (hB : fr.function.blocks[target]? = some B) (hphis : phis fr B = some x) :
      Moves M (.code fr :: rest) .silent
        (.code { fr with registers := x.1 ++ fr.registers, block := target, code := x.2 } :: rest)
  | environmentStore {returnTo : Option InstId} {rest : List Activation} (p : Pointer) (w : Word) :
      Moves M (.environment returnTo :: rest) (.environmentStore p w)
        (.environment returnTo :: rest)
  | callBack {returnTo : Option InstId} {rest : List Activation} (activation : ℕ) (name : String)
      (args : List Word) :
      Moves M (.environment returnTo :: rest) .silent
        (activationOf M activation name args none :: .environment returnTo :: rest)
  | finish {returnTo : Option InstId} {rest : List Activation} (w : Word) :
      Moves M (.environment returnTo :: rest) .silent (leave (some w) returnTo rest)

theorem branchTarget_mem {targets : List ℕ} {condition : Option Word} {index target : ℕ}
    (h : branchTarget targets condition index = some target) : target ∈ targets := by
  unfold branchTarget at h
  split at h
  · cases h
    exact List.mem_singleton.mpr rfl
  · obtain ⟨n, -, rfl⟩ := Option.map_eq_some_iff.mp h
    split_ifs <;> simp
  · exact List.mem_of_getElem? h

def Event.apply (memory : Memory) : Event → Memory
  | .store _ _ _ p w => writeBytes memory p w
  | .environmentStore p w => writeBytes memory p w
  | _ => memory

/-- The word a load yields is the one in memory. -/
def Event.Reads (memory : Memory) : Event → Prop
  | .load _ _ _ p w => w = readBytes memory p w.length
  | _ => True

theorem readBytes_length (memory : Memory) (p : Pointer) (size : ℕ) :
    (readBytes memory p size).length = size := by simp [readBytes]

section Step

variable {M : Module} {s t : State} {e : Event}

theorem execute_moves {word : Word} {index : ℕ} {fr : Frame} {rest : List Activation}
    {I : Instruction} {code : List Instruction} (hcode : fr.code = I :: code)
    (h : execute M word index s fr rest I code = some (e, t)) :
    Moves M (.code fr :: rest) e t.stack ∧ t.memory = e.apply s.memory ∧ e.Reads s.memory := by
  unfold execute at h
  cases hop : I.opcode with
  | alloca ty =>
    simp only [hop, Option.some.injEq, Prod.mk.injEq] at h
    obtain ⟨rfl, rfl⟩ := h
    exact ⟨.advance hcode (by simp [hop]) (.silent (by simp [hop]) (by simp [hop])) rfl rfl rfl,
      rfl, trivial⟩
  | load size =>
    simp only [hop, Option.bind_eq_bind, Option.bind_eq_some_iff, Option.some.injEq,
      Prod.mk.injEq] at h
    obtain ⟨p, hp, rfl, rfl⟩ := h
    refine ⟨.advance hcode (by simp [hop]) (.load hop hp) rfl rfl rfl, rfl, ?_⟩
    simp only [Event.Reads, readBytes_length]
  | store =>
    simp only [hop, Option.bind_eq_bind, Option.bind_eq_some_iff, Option.some.injEq,
      Prod.mk.injEq] at h
    obtain ⟨w, -, p, hp, rfl, rfl⟩ := h
    exact ⟨.advance hcode (by simp [hop]) (.store hop hp) rfl rfl rfl, rfl, trivial⟩
  | getElementPtr strides =>
    simp only [hop, Option.bind_eq_bind, Option.bind_eq_some_iff, Option.some.injEq,
      Prod.mk.injEq] at h
    obtain ⟨p, -, ws, -, d, -, rfl, rfl⟩ := h
    exact ⟨.advance hcode (by simp [hop]) (.silent (by simp [hop]) (by simp [hop])) rfl rfl rfl,
      rfl, trivial⟩
  | call callee =>
    cases callee with
    | some name =>
      simp only [hop, Option.bind_eq_bind, Option.bind_eq_some_iff, Option.some.injEq,
        Prod.mk.injEq] at h
      obtain ⟨args, -, rfl, rfl⟩ := h
      exact ⟨.call hcode hop _ _ _, rfl, trivial⟩
    | none =>
      simp only [hop, Option.bind_eq_bind, Option.bind_eq_some_iff] at h
      obtain ⟨args, -, p, -, h⟩ := h
      split at h
      · simp only [Option.some.injEq, Prod.mk.injEq] at h
        obtain ⟨rfl, rfl⟩ := h
        exact ⟨.call hcode hop _ _ _, rfl, trivial⟩
      · cases h
  | ret =>
    simp only [hop, Option.some.injEq, Prod.mk.injEq] at h
    obtain ⟨rfl, rfl⟩ := h
    exact ⟨.ret hcode hop _, rfl, trivial⟩
  | br targets =>
    simp only [hop, Option.bind_eq_bind, Option.bind_eq_some_iff, Option.some.injEq,
      Prod.mk.injEq] at h
    obtain ⟨target, htarget, B, hB, x, hx, rfl, rfl⟩ := h
    exact ⟨.branch hcode hop (branchTarget_mem htarget) hB hx, rfl, trivial⟩
  | phi incoming =>
    simp [hop] at h
  | other name =>
    simp only [hop, Option.some.injEq, Prod.mk.injEq] at h
    obtain ⟨rfl, rfl⟩ := h
    exact ⟨.advance hcode (by simp [hop]) (.silent (by simp [hop]) (by simp [hop])) rfl rfl rfl,
      rfl, trivial⟩

theorem steps_cases {a : Choice × Event} (h : Steps M s a t) :
    Moves M s.stack a.2 t.stack ∧ t.memory = a.2.apply s.memory ∧ a.2.Reads s.memory := by
  obtain ⟨c, e⟩ := a
  unfold Steps step at h
  split at h
  next fr rest word index hstack hc =>
    split at h
    · cases h
    next I code hcode =>
      rw [hstack]
      exact execute_moves hcode h
  next returnTo rest p w hstack hc =>
    cases h
    rw [hstack]
    exact ⟨.environmentStore p w, rfl, trivial⟩
  next returnTo rest name args hstack hc =>
    cases h
    simp only [enter, hstack]
    exact ⟨.callBack _ name args, rfl, trivial⟩
  next returnTo rest w hstack hc =>
    cases h
    rw [hstack]
    exact ⟨.finish w, rfl, trivial⟩
  · cases h

end Step

end MMLMStore.IRExecution
