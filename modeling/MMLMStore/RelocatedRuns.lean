import MMLMStore.LMStorePass
import MMLMStore.RelocatedMemory
import MMLMStore.RunSimulation

/-!
# Runs of a module whose variables have moved

The second module has the code of the first with the operands of loads, stores and address
computations directed to where the variables have moved, and with further loads inserted. A run of
the first in which no load finds a stale byte is matched by a run of the second: each step by the
same step on moved values, after the loads inserted before it.
-/
namespace MMLMStore.RelocatedRuns

open ModuleIR IRExecution LMStorePass RelocatedMemory RunSimulation StepRuns

/-! Code. -/

def IsConstant : Value → Prop
  | .globalVariable _ _ => True
  | .function _ => True
  | .constantData _ _ => True
  | .constantExpr base _ => IsConstant base
  | _ => False

/-- The operand of a function denotes nothing that has moved. -/
def Clean (plan : Plan) (f : String) : Value → Prop
  | .instruction id _ => id.isSource = true ∧ plan.locals f id = none
  | .globalVariable id _ => IsSource id ∧ plan.globals id = none
  | .constantExpr base _ => IsConstant base ∧ Clean plan f base
  | _ => True

instance decidableIsConstant : DecidablePred IsConstant
  | .globalVariable _ _ | .function _ | .constantData _ _ => isTrue trivial
  | .constantExpr base _ => decidableIsConstant base
  | .argument _ _ | .instruction _ _ | .null => isFalse not_false

instance decidableClean (plan : Plan) (f : String) : DecidablePred (Clean plan f)
  | .instruction id _ =>
    inferInstanceAs (Decidable (id.isSource = true ∧ plan.locals f id = none))
  | .globalVariable id _ => inferInstanceAs (Decidable (IsSource id ∧ plan.globals id = none))
  | .constantExpr base _ =>
    have := decidableClean plan f base
    inferInstanceAs (Decidable (IsConstant base ∧ Clean plan f base))
  | .argument _ _ | .function _ | .constantData _ _ | .null => isTrue trivial

/-- An operand and what it has become. -/
inductive MovedOperand (plan : Plan) (f : String) : Value → Value → Prop
  | same {v : Value} (hclean : Clean plan f v) : MovedOperand plan f v v
  | variable_ {id : InstId} {name name' : String} {g : GlobalId}
      (hmoved : plan.locals f id = some g) :
      MovedOperand plan f (.instruction id name) (.globalVariable g name')
  | global {id : GlobalId} {name name' : String} {g : GlobalId} (hsource : IsSource id)
      (hmoved : plan.globals id = some g) :
      MovedOperand plan f (.globalVariable id name) (.globalVariable g name')

structure MovedInstruction (plan : Plan) (f : String) (I I' : Instruction) : Prop where
  id : I'.id = I.id
  source : I.id.isSource = true
  opcode : I'.opcode = I.opcode
  operands : List.Forall₂ (MovedOperand plan f) I.operands I'.operands
  plain : renames I.opcode = false →
    I'.operands = I.operands ∧ ∀ v ∈ I.operands, Clean plan f v
  /-- What has moved was made by an alloca. -/
  alloca : (plan.locals f I.id).isSome = true → ∃ ty, I.opcode = .alloca ty
  forward : 0 ∉ I.opcode.targets

/-- A load that is not from the first module, from a global. -/
def IsInserted (J : Instruction) : Prop :=
  J.id.isSource = false ∧ ∃ size g name, J.opcode = .load size ∧
    J.operands = [.globalVariable g name]

/-- Code with loads inserted, but none before a phi instruction. -/
inductive Laid (plan : Plan) (f : String) : List Instruction → List Instruction → Prop
  | nil : Laid plan f [] []
  | cons {I I' : Instruction} {code code' : List Instruction}
      (hI : MovedInstruction plan f I I') (hcode : Laid plan f code code') :
      Laid plan f (I :: code) (I' :: code')
  | insert {I J : Instruction} {code code' : List Instruction} (hJ : IsInserted J)
      (hphi : ∀ incoming, I.opcode ≠ .phi incoming) (hcode : Laid plan f (I :: code) code') :
      Laid plan f (I :: code) (J :: code')

inductive MovedBlocks (plan : Plan) (f : String) : List BasicBlock → List BasicBlock → Prop
  | declaration : MovedBlocks plan f [] []
  | definition {entry body loads : List Instruction} {rest rest' : List BasicBlock}
      (hloads : ∀ J ∈ loads, IsInserted J) (hentry : Laid plan f entry body)
      (hrest : List.Forall₂ (Laid plan f) rest rest') :
      MovedBlocks plan f (entry :: rest) ((loads ++ body) :: rest')

structure MovedFunction (plan : Plan) (F F' : Function) : Prop where
  name : F'.name = F.name
  blocks : MovedBlocks plan F.name F.blocks F'.blocks

def MovedModule (plan : Plan) (M M' : Module) : Prop :=
  List.Forall₂ (MovedFunction plan) M.functions M'.functions

/-! States. -/

def lookup (registers : List (InstId × Word)) (id : InstId) : Option Word :=
  (registers.find? (·.1 = id)).map Prod.snd

/-- A register of the first module whose variable has moved holds the address of an object made for
it; the second module does not read it. -/
structure MovedRegisters (plan : Plan) (makers : Makers) (f : String)
    (registers registers' : List (InstId × Word)) : Prop where
  values : ∀ id : InstId, id.isSource = true → plan.locals f id = none →
    Option.Rel (PlacedWord plan makers) (lookup registers id) (lookup registers' id)
  objects : ∀ id : InstId, (plan.locals f id).isSome = true → ∀ w ∈ lookup registers id,
    ∃ n, w = Pointer.word ⟨.stack n, 0⟩ ∧ makers[n]? = some (f, id)

structure MovedFrame (plan : Plan) (makers : Makers) (fr fr' : Frame) : Prop where
  activation : fr'.activation = fr.activation
  function : MovedFunction plan fr.function fr'.function
  args : List.Forall₂ (PlacedWord plan makers) fr.args fr'.args
  registers : MovedRegisters plan makers fr.function.name fr.registers fr'.registers
  block : fr'.block = fr.block
  code : ∃ loads body, fr'.code = loads ++ body ∧ (∀ J ∈ loads, IsInserted J) ∧
    Laid plan fr.function.name fr.code body
  returnTo : fr'.returnTo = fr.returnTo

/-- A value returned goes to a register whose variable has not moved. -/
def Receives (plan : Plan) (returnTo : Option InstId) : List Activation → Prop
  | .code fr :: _ => ∀ id ∈ returnTo, plan.locals fr.function.name id = none
  | _ => True

inductive MovedStack (plan : Plan) (makers : Makers) : List Activation → List Activation → Prop
  | nil : MovedStack plan makers [] []
  | code {fr fr' : Frame} {rest rest' : List Activation} (hframe : MovedFrame plan makers fr fr')
      (hreturn : Receives plan fr.returnTo rest) (hrest : MovedStack plan makers rest rest') :
      MovedStack plan makers (.code fr :: rest) (.code fr' :: rest')
  | environment {returnTo : Option InstId} {rest rest' : List Activation}
      (hreturn : Receives plan returnTo rest) (hrest : MovedStack plan makers rest rest') :
      MovedStack plan makers (.environment returnTo :: rest) (.environment returnTo :: rest')

structure MovedState (plan : Plan) (g : Trail) (s s' : State) : Prop where
  memory : PlacedMemory plan g s.memory s'.memory
  stack : MovedStack plan g.makers s.stack s'.stack
  activation : s'.nextActivation = s.nextActivation
  made : s.nextObject = g.makers.length
  object : s'.nextObject = s.nextObject

/-! Choices and events. -/

def KnownByte (makers : Makers) : Byte → Prop
  | .fragment p _ => Known makers p.object
  | _ => True

instance (makers : Makers) : DecidablePred (KnownByte makers)
  | .fragment p _ => inferInstanceAs (Decidable (Known makers p.object))
  | .data _ | .undef => isTrue trivial

/-- Pointers that come from outside are to objects that there are. -/
def KnownChoice (makers : Makers) : Choice → Prop
  | .run w _ => ∀ b ∈ w, KnownByte makers b
  | .write p w => Known makers p.object ∧ ∀ b ∈ w, KnownByte makers b
  | .callBack _ args => ∀ w ∈ args, ∀ b ∈ w, KnownByte makers b
  | .finish w => ∀ b ∈ w, KnownByte makers b

instance (makers : Makers) : DecidablePred (KnownChoice makers)
  | .run w _ => inferInstanceAs (Decidable (∀ b ∈ w, KnownByte makers b))
  | .write p w =>
    inferInstanceAs (Decidable (Known makers p.object ∧ ∀ b ∈ w, KnownByte makers b))
  | .callBack _ args => inferInstanceAs (Decidable (∀ w ∈ args, ∀ b ∈ w, KnownByte makers b))
  | .finish w => inferInstanceAs (Decidable (∀ b ∈ w, KnownByte makers b))

def placeByte (plan : Plan) (makers : Makers) : Byte → Byte
  | .fragment p i => .fragment (plan.placePointer makers p) i
  | b => b

def placeChoice (plan : Plan) (makers : Makers) : Choice → Choice
  | .run w index => .run (w.map (placeByte plan makers)) index
  | .write p w => .write (plan.placePointer makers p) (w.map (placeByte plan makers))
  | .callBack name args => .callBack name (args.map (List.map (placeByte plan makers)))
  | .finish w => .finish (w.map (placeByte plan makers))

inductive PlacedEvent (plan : Plan) (makers : Makers) : Event → Event → Prop
  | silent : PlacedEvent plan makers .silent .silent
  | load {activation : ℕ} {f : String} {id : InstId} {p : Pointer} {w w' : Word}
      (hw : PlacedWord plan makers w w') :
      PlacedEvent plan makers (.load activation f id p w)
        (.load activation f id (plan.placePointer makers p) w')
  | store {activation : ℕ} {f : String} {id : InstId} {p : Pointer} {w w' : Word}
      (hw : PlacedWord plan makers w w') :
      PlacedEvent plan makers (.store activation f id p w)
        (.store activation f id (plan.placePointer makers p) w')
  | environmentStore {p : Pointer} {w w' : Word} (hw : PlacedWord plan makers w w') :
      PlacedEvent plan makers (.environmentStore p w)
        (.environmentStore (plan.placePointer makers p) w')

/-- The event does not reach for an object that its variable has left. -/
def Reaches (plan : Plan) (makers : Makers) : Event → Prop
  | .load _ _ _ p _ => Current plan makers p.object
  | .store _ _ _ p _ => Current plan makers p.object
  | .environmentStore p _ => Current plan makers p.object
  | .silent => True

instance (plan : Plan) (makers : Makers) : DecidablePred (Reaches plan makers)
  | .load _ _ _ p _ | .store _ _ _ p _ | .environmentStore p _ =>
    inferInstanceAs (Decidable (Current plan makers p.object))
  | .silent => isTrue trivial

/-- A load finds no stale byte. -/
def LoadsFresh (plan : Plan) (g : Trail) : Event → Prop
  | .load _ _ _ p w => ∀ i < w.length, ¬Stale plan g (p.add i)
  | _ => True

instance (plan : Plan) (g : Trail) : DecidablePred (LoadsFresh plan g)
  | .load _ _ _ p w => inferInstanceAs (Decidable (∀ i < w.length, ¬Stale plan g (p.add i)))
  | .silent | .store _ _ _ _ _ | .environmentStore _ _ => isTrue trivial

def IsInsertedLoad : Event → Prop
  | .load _ _ id _ _ => id.isSource = false
  | _ => False

def madeBy (makers : Makers) (fr : Frame) (I : Instruction) : Makers :=
  match I.opcode with
  | .alloca _ => makers ++ [(fr.function.name, I.id)]
  | _ => makers

def nextMakers (makers : Makers) (s : State) : Makers :=
  match s.stack with
  | .code fr :: _ =>
    match fr.code with
    | I :: _ => madeBy makers fr I
    | [] => makers
  | _ => makers

def storesOf : Event → List (Pointer × ℕ)
  | .store _ _ _ p w => [(p, w.length)]
  | .environmentStore p w => [(p, w.length)]
  | _ => []

def nextTrail (g : Trail) (s : State) (e : Event) : Trail :=
  ⟨nextMakers g.makers s, storesOf e ++ g.stores⟩

variable {plan : Plan} {makers makers' : Makers} {g : Trail} {f : String}

/-! More objects on the stack. -/

theorem MovedRegisters.mono (hm : makers <+: makers') {registers registers' : List (InstId × Word)}
    (h : MovedRegisters plan makers f registers registers') :
    MovedRegisters plan makers' f registers registers' where
  values id hid hnone := by
    have := h.values id hid hnone
    generalize lookup registers id = w at this ⊢
    generalize lookup registers' id = w' at this ⊢
    cases this with
    | none => exact .none
    | some hw => exact .some (hw.mono hm)
  objects id hmoved w hw := by
    obtain ⟨n, hn, hmaker⟩ := h.objects id hmoved w hw
    obtain ⟨more, rfl⟩ := hm
    obtain ⟨hlt, -⟩ := List.getElem?_eq_some_iff.mp hmaker
    exact ⟨n, hn, by rw [List.getElem?_append_left hlt, hmaker]⟩

theorem MovedFrame.mono (hm : makers <+: makers') {fr fr' : Frame}
    (h : MovedFrame plan makers fr fr') : MovedFrame plan makers' fr fr' :=
  { h with
    args := h.args.imp fun _ _ hw => hw.mono hm
    registers := h.registers.mono hm }

theorem MovedStack.mono (hm : makers <+: makers') {stack stack' : List Activation}
    (h : MovedStack plan makers stack stack') : MovedStack plan makers' stack stack' := by
  induction h with
  | nil => exact .nil
  | code hframe hreturn _ ih => exact .code (hframe.mono hm) hreturn ih
  | environment hreturn _ ih => exact .environment hreturn ih

/-! Registers. -/

section Registers

variable {registers registers' : List (InstId × Word)} {id : InstId} {w w' : Word}

theorem lookup_cons (id' : InstId) :
    lookup ((id, w) :: registers) id' = if id = id' then some w else lookup registers id' := by
  by_cases h : id = id'
  · subst h
    simp [lookup]
  · simp [lookup, h]

theorem MovedRegisters.bind (h : MovedRegisters plan makers f registers registers')
    (hid : plan.locals f id = none) (hw : PlacedWord plan makers w w') :
    MovedRegisters plan makers f ((id, w) :: registers) ((id, w') :: registers') where
  values id' hsource hnone := by
    rw [lookup_cons, lookup_cons]
    split_ifs
    · exact .some hw
    · exact h.values id' hsource hnone
  objects id' hmoved v hv := by
    rw [lookup_cons] at hv
    split_ifs at hv with heq
    · rw [← heq, hid] at hmoved
      cases hmoved
    · exact h.objects id' hmoved v hv

/-- The address of a new object of a variable that has moved. -/
theorem MovedRegisters.bind_moved (h : MovedRegisters plan makers f registers registers')
    {n : ℕ} (hmoved : (plan.locals f id).isSome = true) (hn : makers[n]? = some (f, id)) :
    MovedRegisters plan makers f ((id, Pointer.word ⟨.stack n, 0⟩) :: registers)
      ((id, w') :: registers') where
  values id' hsource hnone := by
    have hne : id ≠ id' := by
      rintro rfl
      rw [hnone] at hmoved
      cases hmoved
    rw [lookup_cons, lookup_cons, if_neg hne, if_neg hne]
    exact h.values id' hsource hnone
  objects id' hmoved' v hv := by
    rw [lookup_cons] at hv
    split_ifs at hv with heq
    · subst heq
      exact ⟨n, (Option.some.inj hv).symm, hn⟩
    · exact h.objects id' hmoved' v hv

theorem MovedRegisters.insert (h : MovedRegisters plan makers f registers registers')
    (hid : id.isSource = false) :
    MovedRegisters plan makers f registers ((id, w) :: registers') where
  values id' hsource hnone := by
    have hne : id ≠ id' := by
      rintro rfl
      rw [hid] at hsource
      cases hsource
    rw [lookup_cons, if_neg hne]
    exact h.values id' hsource hnone
  objects := h.objects

theorem MovedRegisters.append (h : MovedRegisters plan makers f registers registers')
    {more more' : List (InstId × Word)}
    (hmore : List.Forall₂ (fun x y => x.1 = y.1 ∧ PlacedWord plan makers x.2 y.2) more more')
    (hnone : ∀ x ∈ more, plan.locals f x.1 = none) :
    MovedRegisters plan makers f (more ++ registers) (more' ++ registers') := by
  induction hmore with
  | nil => exact h
  | @cons x y more more' hxy _ ih =>
    obtain ⟨id, w⟩ := x
    obtain ⟨id', w'⟩ := y
    obtain ⟨rfl, hw⟩ := hxy
    exact (ih fun x hx => hnone x (List.mem_cons_of_mem _ hx)).bind (hnone _ List.mem_cons_self) hw

end Registers

/-! Operands. -/

section Operands

variable {fr fr' : Frame} {v v' : Value} {w : Word}

theorem placePointer_global {id : GlobalId} (h : plan.globals id = none) (d : ℤ) :
    plan.placePointer makers ⟨.globalVariable id, d⟩ = ⟨.globalVariable id, d⟩ := by
  simp [Plan.placePointer, Plan.place, h]

/-- A constant of which nothing has moved has one value in all frames. -/
theorem eval_constant (hv : IsConstant v) (hclean : Clean plan f v) (fr fr' : Frame) :
    eval fr v = eval fr' v ∧ ∀ w ∈ eval fr' v, PlacedWord plan makers w w := by
  induction v with
  | globalVariable id name =>
    refine ⟨rfl, fun w hw => ?_⟩
    obtain rfl := Option.some.inj hw
    exact placed_word_of hclean.1 (placePointer_global hclean.2 0)
  | function name =>
    refine ⟨rfl, fun w hw => ?_⟩
    obtain rfl := Option.some.inj hw
    exact placed_word_of trivial rfl
  | constantData size value =>
    refine ⟨rfl, fun w hw => ?_⟩
    obtain rfl := Option.some.inj hw
    exact placed_wordOf size value
  | constantExpr base offset ih =>
    obtain ⟨heq, hplaced⟩ := ih hv hclean.2
    refine ⟨by simp only [eval, heq], fun w hw => ?_⟩
    obtain ⟨p, hp, rfl⟩ := Option.map_eq_some_iff.mp hw
    obtain ⟨u, hu, hup⟩ := Option.bind_eq_some_iff.mp hp
    obtain ⟨hknown, hmoved⟩ := (hplaced u hu).asPointer hup
    rw [hup, Option.some.injEq] at hmoved
    exact placed_word_of hknown (by rw [placePointer_add, ← hmoved])
  | argument index name => exact hv.elim
  | instruction id name => exact hv.elim
  | null => exact hv.elim

theorem getElem?_rel {α β : Type*} {r : α → β → Prop} {l : List α} {l' : List β}
    (h : List.Forall₂ r l l') (i : ℕ) : Option.Rel r l[i]? l'[i]? := by
  induction h generalizing i with
  | nil => exact .none
  | cons hab _ ih =>
    cases i with
    | zero => exact .some hab
    | succ i => exact ih i

/-- An operand of which nothing has moved has a value in both modules or in none. -/
theorem eval_clean (h : MovedFrame plan makers fr fr') (hv : Clean plan fr.function.name v) :
    Option.Rel (PlacedWord plan makers) (eval fr v) (eval fr' v) := by
  have hconstant : IsConstant v →
      Option.Rel (PlacedWord plan makers) (eval fr v) (eval fr' v) := by
    intro hc
    obtain ⟨heq, hplaced⟩ := eval_constant hc hv fr fr'
    rw [heq]
    cases hw : eval fr' v with
    | none => exact .none
    | some w => exact .some (hplaced w hw)
  cases v with
  | argument index name => exact getElem?_rel h.args index
  | instruction id name => exact h.registers.values id hv.1 hv.2
  | globalVariable id name => exact hconstant trivial
  | function name => exact hconstant trivial
  | constantData size value => exact hconstant trivial
  | constantExpr base offset => exact hconstant hv.1
  | null => exact .none

theorem eval_moved (h : MovedFrame plan makers fr fr')
    (hv : MovedOperand plan fr.function.name v v') (hw : eval fr v = some w) :
    ∃ w', eval fr' v' = some w' ∧ PlacedWord plan makers w w' := by
  cases hv with
  | same hclean =>
    have hrel := eval_clean h hclean
    rw [hw] at hrel
    generalize eval fr' v = w' at hrel ⊢
    cases hrel with
    | some hplaced => exact ⟨_, rfl, hplaced⟩
  | @variable_ id name name' g hmoved =>
    obtain ⟨n, rfl, hn⟩ := h.registers.objects id (by simp [hmoved]) w hw
    refine ⟨_, rfl, ?_⟩
    have hplace : plan.placePointer makers ⟨.stack n, 0⟩ = ⟨.globalVariable g, 0⟩ := by
      simp [Plan.placePointer, Plan.place, Plan.moved, hn, hmoved]
    have hknown : Known makers (.stack n) := (List.getElem?_eq_some_iff.mp hn).1
    rw [← hplace]
    exact placed_word hknown
  | @global id name name' g hsource hmoved =>
    obtain rfl := Option.some.inj hw
    refine ⟨_, rfl, ?_⟩
    have hplace : plan.placePointer makers ⟨.globalVariable id, 0⟩ = ⟨.globalVariable g, 0⟩ := by
      simp [Plan.placePointer, Plan.place, hmoved]
    rw [← hplace]
    exact placed_word hsource

theorem mapM_moved (h : MovedFrame plan makers fr fr') {vs vs' : List Value}
    (hvs : List.Forall₂ (MovedOperand plan fr.function.name) vs vs') {ws : List Word}
    (hws : vs.mapM (eval fr) = some ws) :
    ∃ ws', vs'.mapM (eval fr') = some ws' ∧ List.Forall₂ (PlacedWord plan makers) ws ws' := by
  induction hvs generalizing ws with
  | nil =>
    cases hws
    exact ⟨[], rfl, .nil⟩
  | @cons v v' vs vs' hv _ ih =>
    simp only [List.mapM_cons, Option.bind_eq_bind, Option.bind_eq_some_iff] at hws
    obtain ⟨w, hw, ws, hws, hcons⟩ := hws
    obtain rfl := Option.some.inj hcons
    obtain ⟨w', hw', hplaced⟩ := eval_moved h hv hw
    obtain ⟨ws', hws', hrest⟩ := ih hws
    exact ⟨w' :: ws', by simp [List.mapM_cons, hw', hws'], .cons hplaced hrest⟩

variable {I I' : Instruction} {p : Pointer} {k : ℕ}

theorem operand_moved (h : MovedFrame plan makers fr fr')
    (hI : MovedInstruction plan fr.function.name I I') (hw : operand fr I k = some w) :
    ∃ w', operand fr' I' k = some w' ∧ PlacedWord plan makers w w' := by
  obtain ⟨v, hv, hvw⟩ := Option.bind_eq_some_iff.mp hw
  have hrel := getElem?_rel hI.operands k
  unfold operand
  rw [hv] at hrel
  generalize I'.operands[k]? = v' at hrel ⊢
  cases hrel with
  | some hmoved => exact eval_moved h hmoved hvw

theorem pointerOperand_moved (h : MovedFrame plan makers fr fr')
    (hI : MovedInstruction plan fr.function.name I I') (hp : pointerOperand fr I k = some p) :
    Known makers p.object ∧
      pointerOperand fr' I' k = some (plan.placePointer makers p) := by
  obtain ⟨w, hw, hwp⟩ := Option.bind_eq_some_iff.mp hp
  obtain ⟨w', hw', hplaced⟩ := operand_moved h hI hw
  obtain ⟨hknown, hp'⟩ := hplaced.asPointer hwp
  exact ⟨hknown, Option.bind_eq_some_iff.mpr ⟨w', hw', hp'⟩⟩

theorem operand_plain (h : MovedFrame plan makers fr fr')
    (hI : MovedInstruction plan fr.function.name I I') (hplain : renames I.opcode = false) :
    Option.Rel (PlacedWord plan makers) (operand fr I k) (operand fr' I' k) := by
  obtain ⟨heq, hclean⟩ := hI.plain hplain
  unfold operand
  rw [heq]
  cases hv : I.operands[k]? with
  | none => exact .none
  | some v => exact eval_clean h (hclean v (List.mem_of_getElem? hv))

theorem gepOffset_moved {strides : List Stride} {ws ws' : List Word} {d : ℤ}
    (hws : List.Forall₂ (PlacedWord plan makers) ws ws') (h : gepOffset strides ws = some d) :
    gepOffset strides ws' = some d := by
  induction hws generalizing strides d with
  | nil => exact h
  | @cons w w' ws ws' hw _ ih =>
    cases strides with
    | nil => cases h
    | cons stride strides =>
      simp only [gepOffset, Option.bind_eq_bind, Option.bind_eq_some_iff, Option.some.injEq] at h ⊢
      obtain ⟨a, ⟨z, hz, ha⟩, b, hb, rfl⟩ := h
      exact ⟨a, ⟨z, hw.intOf hz, ha⟩, b, ih hb, rfl⟩

theorem branchTarget_moved {targets : List ℕ} {c c' : Option Word} {index target : ℕ}
    (hc : Option.Rel (PlacedWord plan makers) c c')
    (h : branchTarget targets c index = some target) :
    branchTarget targets c' index = some target := by
  unfold branchTarget at h ⊢
  split at h
  · exact h
  · obtain ⟨n, hn, heq⟩ := Option.map_eq_some_iff.mp h
    obtain ⟨w, hw, hwn⟩ := Option.bind_eq_some_iff.mp hn
    subst hw
    cases hc with
    | some hplaced => simp [hplaced.natOf hwn, heq]
  · exact h

theorem phis_moved (h : MovedFrame plan makers fr fr') {B B' : List Instruction}
    (hB : Laid plan fr.function.name B B') {x : List (InstId × Word) × List Instruction}
    (hx : phis fr B = some x) :
    ∃ x', phis fr' B' = some x' ∧ Laid plan fr.function.name x.2 x'.2 ∧
      List.Forall₂ (fun a b => a.1 = b.1 ∧ PlacedWord plan makers a.2 b.2) x.1 x'.1 ∧
      ∀ a ∈ x.1, plan.locals fr.function.name a.1 = none := by
  induction hB generalizing x with
  | nil =>
    cases hx
    exact ⟨([], []), rfl, .nil, .nil, by simp⟩
  | @cons I I' code code' hI hcode ih =>
    unfold phis at hx ⊢
    rw [hI.opcode]
    cases hop : I.opcode with
    | phi incoming =>
      simp only [hop, Option.bind_eq_bind, Option.bind_eq_some_iff, Option.some.injEq] at hx
      obtain ⟨k, hk, w, hw, y, hy, rfl⟩ := hx
      obtain ⟨w', hw', hplaced⟩ := operand_moved h hI hw
      obtain ⟨y', hy', hlaid, hvalues, hnone⟩ := ih hy
      refine ⟨((I'.id, w') :: y'.1, y'.2), ?_, hlaid, .cons ⟨hI.id.symm, hplaced⟩ hvalues, ?_⟩
      · simp [h.block, hk, hw', hy']
      · rw [List.forall_mem_cons]
        refine ⟨?_, hnone⟩
        cases hmoved : plan.locals fr.function.name I.id with
        | none => rfl
        | some g =>
          obtain ⟨ty, hty⟩ := hI.alloca (by simp [hmoved])
          simp [hop] at hty
    | _ =>
      simp only [hop, Option.some.injEq] at hx
      subst hx
      exact ⟨([], I' :: code'), rfl, .cons hI hcode, .nil, by simp⟩
  | @insert I J code code' hJ hphi hcode ih =>
    have hx' : x = ([], I :: code) := by
      unfold phis at hx
      cases hop : I.opcode with
      | phi incoming => exact absurd hop (hphi incoming)
      | _ =>
        simp only [hop, Option.some.injEq] at hx
        exact hx.symm
    subst hx'
    obtain ⟨size, g, name, hload, -⟩ := hJ.2
    exact ⟨([], J :: code'), by simp [phis, hload], .insert hJ hphi hcode, .nil, by simp⟩

end Operands

/-! Calls and returns. -/

section Calls

variable {M M' : Module} {rest rest' : List Activation} {returnTo : Option InstId}

theorem find?_moved (hM : MovedModule plan M M') (name : String) :
    Option.Rel (MovedFunction plan) (M.functions.find? (·.name = name))
      (M'.functions.find? (·.name = name)) := by
  unfold MovedModule at hM
  generalize M.functions = functions at hM ⊢
  generalize M'.functions = functions' at hM ⊢
  induction hM with
  | nil => exact .none
  | @cons F F' functions functions' hF _ ih =>
    by_cases hname : F.name = name
    · rw [List.find?_cons_of_pos (by simpa using hname),
        List.find?_cons_of_pos (by simpa [hF.name] using hname)]
      exact .some hF
    · rw [List.find?_cons_of_neg (by simpa using hname),
        List.find?_cons_of_neg (by simpa [hF.name] using hname)]
      exact ih

theorem activationOf_moved (hM : MovedModule plan M M') {args args' : List Word}
    (hargs : List.Forall₂ (PlacedWord plan makers) args args')
    (hreturn : Receives plan returnTo rest) (hrest : MovedStack plan makers rest rest') (n : ℕ)
    (name : String) : MovedStack plan makers (activationOf M n name args returnTo :: rest)
      (activationOf M' n name args' returnTo :: rest') := by
  have hfind := find?_moved hM name
  unfold activationOf
  generalize M.functions.find? (·.name = name) = F at hfind ⊢
  generalize M'.functions.find? (·.name = name) = F' at hfind ⊢
  cases hfind with
  | none => exact .environment hreturn hrest
  | @some F F' hF =>
    have hblocks := hF.blocks
    dsimp only
    generalize hB : F.blocks = B at hblocks
    generalize hB' : F'.blocks = B' at hblocks
    cases hblocks with
    | declaration => exact .environment hreturn hrest
    | definition hloads hentry hrest' =>
      refine .code ?_ hreturn hrest
      exact ⟨rfl, hF, hargs, ⟨fun _ _ _ => .none, fun _ _ _ hw => by cases hw⟩, rfl,
        ⟨_, _, rfl, hloads, hentry⟩, rfl⟩

theorem MovedFrame.bind {fr fr' : Frame} (h : MovedFrame plan makers fr fr') {id : InstId}
    (hid : plan.locals fr.function.name id = none) {w w' : Word}
    (hw : PlacedWord plan makers w w') :
    MovedFrame plan makers (fr.bind id w) (fr'.bind id w') :=
  ⟨h.activation, h.function, h.args, h.registers.bind hid hw, h.block, h.code, h.returnTo⟩

theorem leave_moved {value value' : Option Word}
    (hvalue : Option.Rel (PlacedWord plan makers) value value')
    (hreturn : Receives plan returnTo rest) (hrest : MovedStack plan makers rest rest') :
    MovedStack plan makers (leave value returnTo rest) (leave value' returnTo rest') := by
  cases hvalue with
  | none => simpa [leave] using hrest
  | @some w w' hw =>
    cases returnTo with
    | none => simpa [leave] using hrest
    | some id =>
      cases hrest with
      | nil => exact .nil
      | code hframe hreturn' hbelow =>
        exact .code (hframe.bind (hreturn id rfl) hw) hreturn' hbelow
      | environment hreturn' hbelow => exact .environment hreturn' hbelow

end Calls

/-! Steps. -/

theorem laid_cons {I : Instruction} {code body : List Instruction}
    (h : Laid plan f (I :: code) body) : ∃ loads I' code', body = loads ++ I' :: code' ∧
      (∀ J ∈ loads, IsInserted J) ∧ MovedInstruction plan f I I' ∧ Laid plan f code code' := by
  generalize hc : I :: code = c at h
  induction h with
  | nil => cases hc
  | @cons _ I' _ code' hI hcode _ =>
    obtain ⟨rfl, rfl⟩ := List.cons.inj hc
    exact ⟨[], I', code', rfl, by simp, hI, hcode⟩
  | @insert _ J _ body hJ _ _ ih =>
    obtain ⟨loads, I', code', rfl, hloads, hI, hcode⟩ := ih hc
    exact ⟨J :: loads, I', code', rfl, List.forall_mem_cons.mpr ⟨hJ, hloads⟩, hI, hcode⟩

theorem laid_append {I : Instruction} {code body loads : List Instruction}
    (hloads : ∀ J ∈ loads, IsInserted J) (hphi : ∀ incoming, I.opcode ≠ .phi incoming)
    (h : Laid plan f (I :: code) body) : Laid plan f (I :: code) (loads ++ body) := by
  induction loads with
  | nil => exact h
  | cons J loads ih =>
    obtain ⟨hJ, hrest⟩ := List.forall_mem_cons.mp hloads
    exact .insert hJ hphi (ih hrest)

theorem target_moved {blocks blocks' : List BasicBlock} (h : MovedBlocks plan f blocks blocks')
    {target : ℕ} (hne : target ≠ 0) {B : BasicBlock} (hB : blocks[target]? = some B) :
    ∃ B', blocks'[target]? = some B' ∧ Laid plan f B B' := by
  cases h with
  | declaration => simp at hB
  | @definition entry body loads rest rest' hloads hentry hrest =>
    obtain ⟨k, rfl⟩ := Nat.exists_eq_succ_of_ne_zero hne
    rw [List.getElem?_cons_succ] at hB
    have hrel := getElem?_rel hrest k
    rw [hB] at hrel
    rw [List.getElem?_cons_succ]
    generalize rest'[k]? = B' at hrel ⊢
    cases hrel with
    | some hlaid => exact ⟨_, rfl, hlaid⟩

theorem skip_inserted (M' : Module) {loads body : List Instruction}
    (hloads : ∀ J ∈ loads, IsInserted J) {t : State} {fr' : Frame} {rest' : List Activation}
    (hstack : t.stack = .code fr' :: rest') (hcode : fr'.code = loads ++ body)
    {registers : List (InstId × Word)}
    (hregisters : MovedRegisters plan makers f registers fr'.registers) :
    ∃ run registers', IsRun (Steps M') t run ∧ (∀ x ∈ run, IsInsertedLoad x.1.2) ∧
      final t run = { t with
        stack := .code { fr' with registers := registers', code := body } :: rest' } ∧
      MovedRegisters plan makers f registers registers' := by
  induction loads generalizing t fr' with
  | nil =>
    refine ⟨[], fr'.registers, trivial, by simp, ?_, hregisters⟩
    rw [List.nil_append] at hcode
    simp [final, ← hcode, ← hstack]
  | cons J loads ih =>
    obtain ⟨hJ, hrest⟩ := List.forall_mem_cons.mp hloads
    obtain ⟨hid, size, g, name, hop, hoperands⟩ := hJ
    have hpointer : pointerOperand fr' J 0 = some ⟨.globalVariable g, 0⟩ := by
      simp [pointerOperand, operand, hoperands, eval, asPointer_eq_some]
    have hstep : step M' t (.run [] 0) = some (.load fr'.activation fr'.function.name J.id
        ⟨.globalVariable g, 0⟩ (readBytes t.memory ⟨.globalVariable g, 0⟩ size),
        { t with stack := .code { fr'.bind J.id
          (readBytes t.memory ⟨.globalVariable g, 0⟩ size) with code := loads ++ body } ::
            rest' }) := by
      simp [step, hstack, hcode, execute, hop, hpointer]
    obtain ⟨run, registers', hrun, hinserted, hfinal, hregisters'⟩ :=
      ih hrest (t := { t with stack := .code { fr'.bind J.id
          (readBytes t.memory ⟨.globalVariable g, 0⟩ size) with code := loads ++ body } ::
            rest' }) rfl rfl (hregisters.insert hid)
    refine ⟨((.run [] 0, _), _) :: run, registers', ⟨hstep, hrun⟩, ?_, hfinal, hregisters'⟩
    exact List.forall_mem_cons.mpr ⟨hid, hinserted⟩

theorem placed_known {w : Word} (h : ∀ b ∈ w, KnownByte makers b) :
    PlacedWord plan makers w (w.map (placeByte plan makers)) := by
  refine List.forall₂_map_right_iff.mpr (List.forall₂_same.mpr fun b hb => ?_)
  cases b with
  | data n => exact .data n
  | undef => exact .undef _
  | fragment p i => exact .fragment (h _ hb) i

theorem placed_known_list {ws : List Word} (h : ∀ w ∈ ws, ∀ b ∈ w, KnownByte makers b) :
    List.Forall₂ (PlacedWord plan makers) ws (ws.map (List.map (placeByte plan makers))) := by
  rw [List.forall₂_map_right_iff, List.forall₂_same]
  exact fun w hw => placed_known (h w hw)

theorem MovedFrame.advance {fr fr' : Frame} (h : MovedFrame plan makers fr fr')
    {registers registers' : List (InstId × Word)}
    (hregisters : MovedRegisters plan makers fr.function.name registers registers')
    {code code' : List Instruction} (hcode : Laid plan fr.function.name code code') :
    MovedFrame plan makers { fr with registers := registers, code := code }
      { fr' with registers := registers', code := code' } :=
  ⟨h.activation, h.function, h.args, hregisters, h.block, ⟨[], code', rfl, by simp, hcode⟩,
    h.returnTo⟩

section Step

variable {M M' : Module} {s s' t : State} {fr fr' : Frame} {rest rest' : List Activation}
  {I I' : Instruction} {code code' : List Instruction} {e : Event}

theorem plain_none (hI : MovedInstruction plan f I I') (hop : ∀ ty, I.opcode ≠ .alloca ty) :
    plan.locals f I.id = none := by
  cases hmoved : plan.locals f I.id with
  | none => rfl
  | some g =>
    obtain ⟨ty, hty⟩ := hI.alloca (by simp [hmoved])
    exact absurd hty (hop ty)

/-- What the two modules have in common when the first is about to take an instruction. -/
structure Aligned (plan : Plan) (g : Trail) (s s' : State) (fr fr' : Frame)
    (rest rest' : List Activation) (I I' : Instruction) (code code' : List Instruction) : Prop where
  memory : PlacedMemory plan g s.memory s'.memory
  activation : s'.nextActivation = s.nextActivation
  made : s.nextObject = g.makers.length
  object : s'.nextObject = s.nextObject
  frame : MovedFrame plan g.makers fr fr'
  receives : Receives plan fr.returnTo rest
  rest : MovedStack plan g.makers rest rest'
  instruction : MovedInstruction plan fr.function.name I I'
  code : Laid plan fr.function.name code code'

theorem Aligned.next (h : Aligned plan g s s' fr fr' rest rest' I I' code code')
    {stores : List (Pointer × ℕ)} {memory memory' : Memory}
    (hmemory : PlacedMemory plan ⟨g.makers, stores⟩ memory memory')
    {registers registers' : List (InstId × Word)}
    (hregisters : MovedRegisters plan g.makers fr.function.name registers registers') :
    MovedState plan ⟨g.makers, stores⟩
      { s with
        memory := memory
        stack := .code { fr with registers := registers, code := code } :: rest }
      { s' with
        memory := memory'
        stack := .code { fr' with registers := registers', code := code' } :: rest' } :=
  ⟨hmemory, .code (h.frame.advance hregisters h.code) h.receives h.rest, h.activation, h.made,
    h.object⟩

theorem Aligned.alloca (h : Aligned plan g s s' fr fr' rest rest' I I' code code') :
    MovedState plan (g.push (fr.function.name, I.id))
      { s with
        stack := .code { fr.bind I.id (Pointer.word ⟨.stack s.nextObject, 0⟩) with
          code := code } :: rest
        nextObject := s.nextObject + 1 }
      { s' with
        stack := .code { fr'.bind I'.id (Pointer.word ⟨.stack s'.nextObject, 0⟩) with
          code := code' } :: rest'
        nextObject := s'.nextObject + 1 } := by
  have hm := List.prefix_append g.makers [(fr.function.name, I.id)]
  have hmade : (g.makers ++ [(fr.function.name, I.id)])[s.nextObject]? =
      some (fr.function.name, I.id) := by simp [h.made]
  have hregisters := h.frame.registers.mono hm
  rw [h.instruction.id, h.object]
  refine ⟨h.memory.push _, .code ((h.frame.mono hm).advance ?_ h.code) h.receives (h.rest.mono hm),
    h.activation, by simp [h.made, Trail.push], rfl⟩
  cases hmoved : plan.locals fr.function.name I.id with
  | some g => exact hregisters.bind_moved (by simp [hmoved]) hmade
  | none =>
    refine hregisters.bind hmoved ?_
    have hknown : Known (g.makers ++ [(fr.function.name, I.id)]) (.stack s.nextObject) := by
      simp [Known, h.made]
    have hplace : plan.placePointer (g.makers ++ [(fr.function.name, I.id)])
        ⟨.stack s.nextObject, 0⟩ = ⟨.stack s.nextObject, 0⟩ := by
      simp only [Plan.placePointer, Plan.place, Plan.moved, hmade, Option.bind_some, hmoved,
        Option.elim_none]
    exact placed_word_of hknown hplace

theorem Aligned.call (hM : MovedModule plan M M')
    (h : Aligned plan g s s' fr fr' rest rest' I I' code code') {callee : Option String}
    (hop : I.opcode = .call callee) {args args' : List Word}
    (hargs : List.Forall₂ (PlacedWord plan g.makers) args args') (name : String) :
    MovedState plan g
      (enter M name args (some I.id) { s with stack := .code { fr with code := code } :: rest })
      (enter M' name args' (some I'.id)
        { s' with stack := .code { fr' with code := code' } :: rest' }) := by
  have hnone := plain_none h.instruction (by simp [hop])
  have hstack : MovedStack plan g.makers (.code { fr with code := code } :: rest)
      (.code { fr' with code := code' } :: rest') :=
    .code (h.frame.advance h.frame.registers h.code) h.receives h.rest
  have hreceives : Receives plan (some I.id) (.code { fr with code := code } :: rest) := by
    intro id hid
    rw [← Option.some.inj hid]
    exact hnone
  refine ⟨h.memory, ?_, by simp [enter, h.activation], h.made, h.object⟩
  have := activationOf_moved hM hargs hreceives hstack s.nextActivation name
  simpa only [enter, h.activation, h.instruction.id] using this

theorem operands_plain (h : Aligned plan g s s' fr fr' rest rest' I I' code code')
    (hplain : renames I.opcode = false) {vs : List Value} (hvs : vs ⊆ I.operands) :
    List.Forall₂ (MovedOperand plan fr.function.name) vs vs :=
  List.forall₂_same.mpr fun v hv => .same ((h.instruction.plain hplain).2 v (hvs hv))

/-- An instruction of the first module and its counterpart. -/
theorem execute_moved (hplan : plan.Apart) (hM : MovedModule plan M M')
    (h : Aligned plan g s s' fr fr' rest rest' I I' code code') {word : Word} {index : ℕ}
    (hknown : ∀ b ∈ word, KnownByte g.makers b) (hfresh : LoadsFresh plan g e)
    (hstep : execute M word index s fr rest I code = some (e, t)) :
    ∃ e' t', execute M' (word.map (placeByte plan g.makers)) index s' fr' rest' I' code' =
        some (e', t') ∧
      PlacedEvent plan (madeBy g.makers fr I) e e' ∧
      MovedState plan ⟨madeBy g.makers fr I, storesOf e ++ g.stores⟩ t t' := by
  have hI := h.instruction
  unfold execute at hstep ⊢
  unfold madeBy
  rw [hI.opcode]
  cases hop : I.opcode with
  | alloca ty =>
    simp only [hop, Option.some.injEq, Prod.mk.injEq] at hstep ⊢
    obtain ⟨rfl, rfl⟩ := hstep
    exact ⟨_, _, ⟨rfl, rfl⟩, .silent, h.alloca⟩
  | load size =>
    simp only [hop, Option.bind_eq_bind, Option.bind_eq_some_iff, Option.some.injEq,
      Prod.mk.injEq] at hstep ⊢
    obtain ⟨p, hp, rfl, rfl⟩ := hstep
    obtain ⟨hpknown, hp'⟩ := pointerOperand_moved h.frame hI hp
    have hw := h.memory.read hpknown fun i hi => hfresh i (by rwa [readBytes_length])
    refine ⟨_, _, ⟨_, hp', rfl, rfl⟩, ?_, ?_⟩
    · rw [h.frame.activation, h.frame.function.name, hI.id]
      exact .load hw
    · rw [hI.id]
      exact h.next h.memory (h.frame.registers.bind (plain_none hI (by simp [hop])) hw)
  | store =>
    simp only [hop, Option.bind_eq_bind, Option.bind_eq_some_iff, Option.some.injEq,
      Prod.mk.injEq] at hstep ⊢
    obtain ⟨w, hw, p, hp, rfl, rfl⟩ := hstep
    obtain ⟨w', hw', hplaced⟩ := operand_moved h.frame hI hw
    obtain ⟨hpknown, hp'⟩ := pointerOperand_moved h.frame hI hp
    refine ⟨_, _, ⟨_, hw', _, hp', rfl, rfl⟩, ?_, ?_⟩
    · rw [h.frame.activation, h.frame.function.name, hI.id]
      exact .store hplaced
    · exact h.next (h.memory.write hplan hpknown hplaced) h.frame.registers
  | getElementPtr strides =>
    simp only [hop, Option.bind_eq_bind, Option.bind_eq_some_iff, Option.some.injEq,
      Prod.mk.injEq] at hstep ⊢
    obtain ⟨p, hp, ws, hws, d, hd, rfl, rfl⟩ := hstep
    obtain ⟨hpknown, hp'⟩ := pointerOperand_moved h.frame hI hp
    obtain ⟨ws', hws', hplaced⟩ := mapM_moved h.frame (List.forall₂_drop 1 hI.operands) hws
    refine ⟨_, _, ⟨_, hp', _, hws', _, gepOffset_moved hplaced hd, rfl, rfl⟩, .silent, ?_⟩
    rw [hI.id]
    refine h.next h.memory (h.frame.registers.bind (plain_none hI (by simp [hop])) ?_)
    exact placed_word (p := p.add d) hpknown
  | call callee =>
    have hplain : renames I.opcode = false := by simp [hop, renames]
    have heq := (hI.plain hplain).1
    cases callee with
    | some name =>
      simp only [hop, Option.bind_eq_bind, Option.bind_eq_some_iff, Option.some.injEq,
        Prod.mk.injEq] at hstep ⊢
      obtain ⟨args, hargs, rfl, rfl⟩ := hstep
      obtain ⟨args', hargs', hplaced⟩ :=
        mapM_moved h.frame (operands_plain h hplain (List.Subset.refl _)) hargs
      exact ⟨_, _, ⟨args', heq ▸ hargs', rfl, rfl⟩, .silent, h.call hM hop hplaced name⟩
    | none =>
      simp only [hop, Option.bind_eq_bind, Option.bind_eq_some_iff] at hstep ⊢
      obtain ⟨args, hargs, p, ⟨w, ⟨v, hv, hvw⟩, hwp⟩, hstep⟩ := hstep
      obtain ⟨args', hargs', hplaced⟩ :=
        mapM_moved h.frame (operands_plain h hplain (List.dropLast_subset _)) hargs
      have hclean := (hI.plain hplain).2 v (List.mem_of_getLast? hv)
      obtain ⟨w', hw', hww'⟩ := eval_moved h.frame (.same hclean) hvw
      obtain ⟨hpknown, hp'⟩ := hww'.asPointer hwp
      obtain ⟨⟨o⟩, d⟩ := p
      · cases hstep
      · cases hstep
      · rename_i name
        simp only [Option.some.injEq, Prod.mk.injEq] at hstep
        obtain ⟨rfl, rfl⟩ := hstep
        refine ⟨_, _, ⟨args', heq ▸ hargs', _, ⟨w', ⟨v, heq ▸ hv, hw'⟩, hp'⟩, rfl⟩, .silent, ?_⟩
        exact h.call hM hop hplaced name
      · cases hstep
  | ret =>
    simp only [hop, Option.some.injEq, Prod.mk.injEq] at hstep ⊢
    obtain ⟨rfl, rfl⟩ := hstep
    refine ⟨_, _, ⟨rfl, rfl⟩, .silent, h.memory, ?_, h.activation, h.made, h.object⟩
    rw [h.frame.returnTo]
    exact leave_moved (operand_plain h.frame hI (by simp [hop, renames])) h.receives h.rest
  | br targets =>
    simp only [hop, Option.bind_eq_bind, Option.bind_eq_some_iff, Option.some.injEq,
      Prod.mk.injEq] at hstep ⊢
    obtain ⟨target, htarget, B, hB, x, hx, rfl, rfl⟩ := hstep
    have hne : target ≠ 0 := by
      rintro rfl
      refine hI.forward ?_
      rw [hop]
      exact branchTarget_mem htarget
    have htarget' := branchTarget_moved
      (operand_plain h.frame hI (k := 0) (by simp [hop, renames])) htarget
    obtain ⟨B', hB', hlaid⟩ := target_moved h.frame.function.blocks hne hB
    obtain ⟨x', hx', hcode, hvalues, hnone⟩ := phis_moved h.frame hlaid hx
    refine ⟨_, _, ⟨target, htarget', B', hB', x', hx', rfl, rfl⟩, .silent, h.memory, ?_,
      h.activation, h.made, h.object⟩
    refine .code ?_ h.receives h.rest
    exact ⟨h.frame.activation, h.frame.function, h.frame.args,
      h.frame.registers.append hvalues hnone, rfl, ⟨[], x'.2, rfl, by simp, hcode⟩,
      h.frame.returnTo⟩
  | phi incoming => simp [hop] at hstep
  | other name =>
    simp only [hop, Option.some.injEq, Prod.mk.injEq] at hstep ⊢
    obtain ⟨rfl, rfl⟩ := hstep
    refine ⟨_, _, ⟨rfl, rfl⟩, .silent, ?_⟩
    rw [hI.id]
    exact h.next h.memory
      (h.frame.registers.bind (plain_none hI (by simp [hop])) (placed_known hknown))

end Step

/-! Runs. -/

theorem placeByte_mono (hm : makers <+: makers') {b : Byte} (hb : KnownByte makers b) :
    placeByte plan makers' b = placeByte plan makers b := by
  cases b with
  | fragment p i => simp [placeByte, Plan.placePointer, place_mono hm hb]
  | data n => rfl
  | undef => rfl

theorem placeWord_mono (hm : makers <+: makers') {w : Word} (hw : ∀ b ∈ w, KnownByte makers b) :
    w.map (placeByte plan makers') = w.map (placeByte plan makers) :=
  List.map_congr_left fun b hb => placeByte_mono hm (hw b hb)

theorem placeChoice_mono (hm : makers <+: makers') {c : Choice} (hc : KnownChoice makers c) :
    placeChoice plan makers' c = placeChoice plan makers c := by
  cases c with
  | run w index => simp only [placeChoice, placeWord_mono hm hc]
  | write p w =>
    simp only [placeChoice, placeWord_mono hm hc.2, Plan.placePointer, place_mono hm hc.1]
  | callBack name args =>
    simp only [placeChoice]
    rw [List.map_congr_left fun w hw => placeWord_mono hm (hc w hw)]
  | finish w => simp only [placeChoice, placeWord_mono hm hc]

theorem prefix_madeBy (makers : Makers) (fr : Frame) (I : Instruction) :
    makers <+: madeBy makers fr I := by
  unfold madeBy
  cases I.opcode with
  | alloca ty => exact List.prefix_append _ _
  | _ => exact List.prefix_refl _

/-- The run that matches a step: inserted loads, then the same step on moved values. -/
def Matches (plan : Plan) (makers : Makers) (a : Choice × Event)
    (run : List ((Choice × Event) × State)) : Prop :=
  ∃ loads e t, run = loads ++ [((placeChoice plan makers a.1, e), t)] ∧
    (∀ x ∈ loads, IsInsertedLoad x.1.2) ∧ PlacedEvent plan makers a.2 e

def Keeps (plan : Plan) (g : Trail) (_ : State) (a : Choice × Event) : Prop :=
  KnownChoice g.makers a.1 ∧ LoadsFresh plan g a.2

instance (g : Trail) (s : State) (a : Choice × Event) : Decidable (Keeps plan g s a) :=
  inferInstanceAs (Decidable (_ ∧ _))

theorem matched_single {M' : Module} {s' t t' : State} {c : Choice} {e e' : Event}
    (hstep : step M' s' (placeChoice plan makers c) = some (e', t'))
    (he : PlacedEvent plan makers e e') (ht : MovedState plan g t t') :
    ∃ run', IsRun (Steps M') s' run' ∧ Matches plan makers (c, e) run' ∧
      MovedState plan g t (final s' run') :=
  ⟨[((placeChoice plan makers c, e'), t')], ⟨hstep, trivial⟩, ⟨[], e', t', rfl, by simp, he⟩, ht⟩

theorem step_moved {M M' : Module} (hplan : plan.Apart) (hM : MovedModule plan M M') :
    Simulates (Steps M) (Steps M') (fun g s a _ => nextTrail g s a.2) (MovedState plan)
      (Keeps plan) (fun g => Matches plan g.makers) := by
  rintro g s ⟨c, e⟩ t s' hs hstep ⟨hknown, hfresh⟩
  have hmoved := hs.stack
  unfold Steps step at hstep
  dsimp only at hstep hknown hfresh ⊢
  split at hstep
  next fr rest word index hstack =>
    rw [hstack] at hmoved
    generalize hstack' : s'.stack = stack' at hmoved
    cases hmoved with
    | @code fr fr' rest rest' hframe hreturn hrest =>
      split at hstep
      · cases hstep
      next I code hcode =>
        have hmakers : nextMakers g.makers s = madeBy g.makers fr I := by
          simp only [nextMakers, hstack, hcode]
        obtain ⟨loads, body, hcode', hloads, hlaid⟩ := hframe.code
        rw [hcode] at hlaid
        obtain ⟨loads', I', code', rfl, hloads', hI, hlaid'⟩ := laid_cons hlaid
        rw [← List.append_assoc] at hcode'
        obtain ⟨run, registers, hrun, hinserted, hfinal, hregisters⟩ := skip_inserted M'
          (List.forall_mem_append.mpr ⟨hloads, hloads'⟩) hstack' hcode' hframe.registers
        have haligned : Aligned plan g s (final s' run) fr
            { fr' with registers := registers, code := I' :: code' }
            rest rest' I I' code code' := by
          rw [hfinal]
          refine ⟨hs.memory, hs.activation, hs.made, hs.object, ?_, hreturn, hrest, hI, hlaid'⟩
          refine ⟨hframe.activation, hframe.function, hframe.args, hregisters, hframe.block,
            ⟨[], I' :: code', rfl, by simp, ?_⟩, hframe.returnTo⟩
          rw [hcode]
          exact .cons hI hlaid'
        obtain ⟨e', t', hexecute, hplaced, ht⟩ :=
          execute_moved hplan hM haligned hknown hfresh hstep
        have hstep' : Steps M' (final s' run)
            (placeChoice plan g.makers (.run word index), e') t' := by
          rw [hfinal] at hexecute ⊢
          exact hexecute
        refine ⟨run ++ [((placeChoice plan g.makers (.run word index), e'), t')], ?_, ?_, ?_⟩
        · exact isRun_append.mpr ⟨hrun, hstep', trivial⟩
        · change Matches plan (nextMakers g.makers s) _ _
          rw [hmakers, ← placeChoice_mono (prefix_madeBy g.makers fr I) hknown]
          exact ⟨run, e', t', rfl, hinserted, hplaced⟩
        · rw [nextTrail, hmakers, final_append]
          exact ht
  next returnTo rest p w hstack =>
    cases hstep
    have hmakers : nextMakers g.makers s = g.makers := by simp only [nextMakers, hstack]
    rw [nextTrail, hmakers]
    rw [hstack] at hmoved
    generalize hstack' : s'.stack = stack' at hmoved
    cases hmoved with
    | environment hreturn hrest =>
      have hw : PlacedWord plan g.makers w (w.map (placeByte plan g.makers)) := placed_known hknown.2
      have hstep' : step M' s' (placeChoice plan g.makers (.write p w)) =
          some (.environmentStore (plan.placePointer g.makers p) (w.map (placeByte plan g.makers)),
            { s' with
              memory := writeBytes s'.memory (plan.placePointer g.makers p)
                (w.map (placeByte plan g.makers)) }) := by
        simp only [step, hstack', placeChoice]
      refine matched_single hstep' (.environmentStore hw) ?_
      refine ⟨hs.memory.write hplan hknown.1 hw, ?_, hs.activation, hs.made, hs.object⟩
      simp only [hstack, hstack']
      exact .environment hreturn hrest
  next returnTo rest name args hstack =>
    cases hstep
    have hmakers : nextMakers g.makers s = g.makers := by simp only [nextMakers, hstack]
    rw [nextTrail, hmakers]
    rw [hstack] at hmoved
    generalize hstack' : s'.stack = stack' at hmoved
    cases hmoved with
    | environment hreturn hrest =>
      have hstep' : step M' s' (placeChoice plan g.makers (.callBack name args)) =
          some (.silent, enter M' name (args.map (List.map (placeByte plan g.makers))) none s') := by
        simp only [step, hstack', placeChoice]
      refine matched_single hstep' .silent ?_
      refine ⟨hs.memory, ?_, by simp [enter, hs.activation], hs.made, hs.object⟩
      simp only [enter, hstack, hstack', hs.activation]
      exact activationOf_moved hM (placed_known_list hknown) (by simp [Receives])
        (.environment hreturn hrest) _ _
  next returnTo rest w hstack =>
    cases hstep
    have hmakers : nextMakers g.makers s = g.makers := by simp only [nextMakers, hstack]
    rw [nextTrail, hmakers]
    rw [hstack] at hmoved
    generalize hstack' : s'.stack = stack' at hmoved
    cases hmoved with
    | @environment _ _ rest' hreturn hrest =>
      have hstep' : step M' s' (placeChoice plan g.makers (.finish w)) =
          some (.silent, { s' with
            stack := leave (some (w.map (placeByte plan g.makers))) returnTo rest' }) := by
        simp only [step, hstack', placeChoice]
      refine matched_single hstep' .silent ?_
      refine ⟨hs.memory, ?_, hs.activation, hs.made, hs.object⟩
      exact leave_moved (.some (placed_known hknown)) hreturn hrest
  · cases hstep

/-- Every run of the first module whose steps meet the condition is matched, step by step, by a run
of the second. -/
theorem run_moved {M M' : Module} (hplan : plan.Apart) (hM : MovedModule plan M M') {s s' : State}
    {run : List ((Choice × Event) × State)} (hrun : IsRun (Steps M) s run)
    (hs : MovedState plan g s s')
    (hkeeps : ∀ x ∈ ghosts (fun g s a _ => nextTrail g s a.2) g s run,
      Keeps plan x.1 x.2.1 x.2.2.1) :
    ∃ runs' : List (List ((Choice × Event) × State)), IsRun (Steps M') s' runs'.flatten ∧
      List.Forall₂ (fun x run' => Matches plan (nextMakers x.1.makers x.2.1) x.2.2.1 run')
        (ghosts (fun g s a _ => nextTrail g s a.2) g s run) runs' := by
  obtain ⟨runs', hrun', hmatches, -⟩ := (step_moved hplan hM).run hrun hs hkeeps
  exact ⟨runs', hrun', hmatches⟩

/-! Runs that reach for newest objects only. -/

/-- What the steps of such a run are asked for. -/
def Follows (plan : Plan) (makers : Makers) (_ : State) (a : Choice × Event) : Prop :=
  KnownChoice makers a.1 ∧ Reaches plan makers a.2

instance (makers : Makers) (s : State) (a : Choice × Event) :
    Decidable (Follows plan makers s a) := inferInstanceAs (Decidable (_ ∧ _))

theorem nextMakers_cases (makers : Makers) (s : State) :
    nextMakers makers s = makers ∨ ∃ x, nextMakers makers s = makers ++ [x] := by
  unfold nextMakers madeBy
  split
  · split
    · split
      · exact Or.inr ⟨_, rfl⟩
      · exact Or.inl rfl
    · exact Or.inl rfl
  · exact Or.inl rfl

theorem nextMakers_of_store {M : Module} {s t : State} {a : Choice × Event}
    (h : Steps M s a t) (hstore : storesOf a.2 ≠ []) (makers : Makers) :
    nextMakers makers s = makers := by
  obtain ⟨hmoves, -⟩ := steps_cases h
  generalize hs : s.stack = stack at hmoves
  generalize t.stack = stack' at hmoves
  generalize a.2 = e at hmoves hstore
  cases hmoves with
  | advance hcode hret hperforms =>
    cases hperforms with
    | store hop hp => simp [nextMakers, madeBy, hs, hcode, hop]
    | silent hload hstore' => exact absurd rfl hstore
    | load hop hp => exact absurd rfl hstore
  | environmentStore p w => simp [nextMakers, hs]
  | _ => exact absurd rfl hstore

theorem loadsFresh_of_reaches {e : Event} (h : CurrentFresh plan g)
    (hreaches : Reaches plan g.makers e) : LoadsFresh plan g e := by
  cases e with
  | load a f id p w => exact fun i _ => h (p.add i) hreaches
  | _ => trivial

theorem currentFresh_step {M : Module} {s t : State} {a : Choice × Event} (hplan : plan.Apart)
    (h : CurrentFresh plan g) (hstep : Steps M s a t) (hreaches : Reaches plan g.makers a.2)
    (hbefore : ∀ y ∈ g.stores, Known g.makers y.1.object)
    (hafter : ∀ y ∈ (nextTrail g s a.2).stores, Known (nextTrail g s a.2).makers y.1.object) :
    CurrentFresh plan (nextTrail g s a.2) := by
  have hmade := nextMakers_of_store hstep
  unfold nextTrail at hafter ⊢
  generalize a.2 = e at hreaches hafter hmade ⊢
  cases e with
  | store b f id p w =>
    rw [hmade (by simp [storesOf])] at hafter ⊢
    exact h.store hplan hbefore (hafter _ List.mem_cons_self) hreaches _
  | environmentStore p w =>
    rw [hmade (by simp [storesOf])] at hafter ⊢
    exact h.store hplan hbefore (hafter _ List.mem_cons_self) hreaches _
  | _ =>
    rcases nextMakers_cases g.makers s with hsame | ⟨x, hx⟩
    · rw [hsame]
      exact h
    · rw [hx]
      exact h.push hbefore x

theorem follows_moved {M M' : Module} (hplan : plan.Apart) (hM : MovedModule plan M M') :
    Simulates (Steps M) (Steps M') (fun g s a _ => nextTrail g s a.2)
      (fun g s s' => MovedState plan g s s' ∧ CurrentFresh plan g)
      (fun g s a => Follows plan g.makers s a) (fun g => Matches plan g.makers) := by
  rintro g s a t s' ⟨hs, hcurrent⟩ hstep ⟨hknown, hreaches⟩
  obtain ⟨run', hrun', hmatches, ht⟩ := step_moved hplan hM g s a t s' hs hstep
    ⟨hknown, loadsFresh_of_reaches hcurrent hreaches⟩
  exact ⟨run', hrun', hmatches, ht,
    currentFresh_step hplan hcurrent hstep hreaches hs.memory.known ht.memory.known⟩

theorem run_follows {M M' : Module} (hplan : plan.Apart) (hM : MovedModule plan M M') {s s' : State}
    {run : List ((Choice × Event) × State)} (hrun : IsRun (Steps M) s run)
    (hs : MovedState plan .new s s')
    (hfollows : ∀ x ∈ ghosts (fun makers s _ _ => nextMakers makers s) [] s run,
      Follows plan x.1 x.2.1 x.2.2.1) :
    ∃ runs' : List (List ((Choice × Event) × State)), IsRun (Steps M') s' runs'.flatten ∧
      List.Forall₂ (fun x run' => Matches plan (nextMakers x.1 x.2.1) x.2.2.1 run')
        (ghosts (fun makers s _ _ => nextMakers makers s) [] s run) runs' := by
  have hmap := ghosts_map (f := fun g s (a : Choice × Event) (_ : State) => nextTrail g s a.2)
    (h := fun makers s _ _ => nextMakers makers s) Trail.makers (fun _ _ _ _ => rfl) .new s run
  change ghosts _ [] s run = _ at hmap
  rw [hmap, List.forall_mem_map] at hfollows
  obtain ⟨runs', hrun', hmatches, -⟩ :=
    (follows_moved hplan hM).run hrun ⟨hs, currentFresh_new plan⟩ hfollows
  refine ⟨runs', hrun', ?_⟩
  rw [hmap, List.forall₂_map_left_iff]
  exact hmatches

end MMLMStore.RelocatedRuns
