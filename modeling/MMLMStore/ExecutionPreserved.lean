import MMLMStore.CodeShape
import MMLMStore.GlobalRelocation
import MMLMStore.RelocatedRuns

/-!
# Execution of the transformed module

The pass moves the variables that are looked up by name. When names do not clash and a variable
that has moved is used nowhere else, the transformed module does what its source does: every run of
the source in which no variable has two live objects is a run of the transformed module, with the
inserted loads between its steps.
-/
namespace MMLMStore.ExecutionPreserved
open CodeShape GlobalRelocation IRExecution KeptFunctions KeyedTable LMStorePass LocalRelocation
  ModuleIR OperandRewriting PassSteps RecordedNames RelocatedMemory RelocatedRuns StepRuns

/-- A load, a store or an address computation uses the value by itself. -/
def LookedUp (F : Function) (val : Value) : Prop :=
  ∃ I ∈ F.instructions, renames I.opcode = true ∧ val ∈ I.operands

instance (F : Function) (val : Value) : Decidable (LookedUp F val) :=
  inferInstanceAs (Decidable (∃ I ∈ F.instructions, renames I.opcode = true ∧ val ∈ I.operands))

/-- Where a local variable is moved: a recorded one that its function looks up. -/
def movedLocal (m : Module) (f : String) (id : InstId) : Option GlobalId := do
  let F ← (keptFunctions m).find? (·.name = f)
  let A ← F.instructions.find? (·.id = id)
  if A.name ∈ localNames m F ∧ LookedUp F (.instruction A.id A.name) then
    some (.relocated (.function f) A.name)
  else none

/-- Where a global is moved: a recorded one that some function looks up. -/
def movedGlobal (m : Module) : GlobalId → Option GlobalId
  | .source k => do
    let G ← m.globals[k]?
    if GlobalKept m ∧ G.name ∈ globalNames m ∧
        ∃ F ∈ keptFunctions m, LookedUp F (.globalVariable G.id G.name) then
      some (.relocated .M G.name)
    else none
  | _ => none

def planOf (m : Module) : Plan := ⟨movedGlobal m, movedLocal m⟩

def IsRenamed (m : Module) (F : Function) (I : Instruction) : Value → Prop
  | .constantExpr _ _ => False
  | _ => F ∈ keptFunctions m ∧ renames I.opcode = true

/-- Names do not clash, and what has moved is used only where it is renamed. -/
structure Movable (m : Module) : Prop where
  names : ∀ i F, m.functions[i]? = some F → IsKept m (m.functions.take i) F →
    NamesApart m (m.functions.take i) F
  copies : ∀ G ∈ m.globals, (movedGlobal m G.id).isSome = true → CopiedUnderName m G.name
  others : ∀ F ∈ m.functions, ∀ I ∈ F.instructions, ∀ val ∈ I.operands,
    IsRenamed m F I val ∨ Clean (planOf m) F.name val

instance (m : Module) : DecidablePred (IsRecordedGlobal m)
  | .globalVariable _ name => inferInstanceAs (Decidable (GlobalKept m ∧ name ∈ globalNames m))
  | .argument _ _ | .instruction _ _ | .function _ => isFalse not_false
  | .constantData _ _ | .constantExpr _ _ | .null => isFalse not_false

instance (m : Module) (pre : List Function) (F : Function) (v : String) :
    Decidable (NamedAsRecorded m pre F v) := inferInstanceAs (Decidable (_ ∧ _))

instance (m : Module) (pre : List Function) (F : Function) : Decidable (NamesApart m pre F) :=
  decidable_of_iff ((∀ I ∈ F.instructions, renames I.opcode → ∀ val ∈ I.operands,
      ∀ v ∈ localOf m F val, NamedAsRecorded m pre F v) ∧
      ∀ I ∈ F.instructions, renames I.opcode → ∀ val ∈ I.operands, localOf m F val = none →
        ¬ IsRecordedGlobal m val →
          firstRecorder (recorders m (pre ++ [F])) val.getName = none)
    ⟨fun h => ⟨h.1, h.2⟩, fun h => ⟨h.locals, h.others⟩⟩

instance (m : Module) (v : String) : Decidable (CopiedUnderName m v) :=
  inferInstanceAs (Decidable (_ ∧ _))

instance (m : Module) (F : Function) (I : Instruction) : DecidablePred (IsRenamed m F I)
  | .constantExpr _ _ => isFalse not_false
  | .argument _ _ | .instruction _ _ | .globalVariable _ _ | .function _ | .constantData _ _
  | .null =>
    inferInstanceAs (Decidable (F ∈ keptFunctions m ∧ renames I.opcode = true))

instance (m : Module) : Decidable (Movable m) :=
  decidable_of_iff ((∀ i < m.functions.length, ∀ F ∈ m.functions[i]?,
      IsKept m (m.functions.take i) F → NamesApart m (m.functions.take i) F) ∧
      (∀ G ∈ m.globals, (movedGlobal m G.id).isSome = true → CopiedUnderName m G.name) ∧
      ∀ F ∈ m.functions, ∀ I ∈ F.instructions, ∀ val ∈ I.operands,
        IsRenamed m F I val ∨ Clean (planOf m) F.name val)
    ⟨fun h => ⟨fun i F hF => h.1 i (List.getElem?_eq_some_iff.mp hF).1 F hF, h.2.1, h.2.2⟩,
      fun h => ⟨fun i _ F hF => h.names i F hF, h.copies, h.others⟩⟩

/-! The plan. -/

theorem movedLocal_eq_some {m : Module} {f : String} {id : InstId} {g : GlobalId} :
    movedLocal m f id = some g ↔ ∃ F, (keptFunctions m).find? (·.name = f) = some F ∧
      ∃ A, F.instructions.find? (·.id = id) = some A ∧
        (A.name ∈ localNames m F ∧ LookedUp F (.instruction A.id A.name)) ∧
        .relocated (.function f) A.name = g := by
  simp only [movedLocal, Option.bind_eq_bind, Option.bind_eq_some_iff,
    Option.ite_none_right_eq_some, Option.some.injEq]

theorem movedGlobal_eq_some {m : Module} {k : ℕ} {g : GlobalId} :
    movedGlobal m (.source k) = some g ↔ ∃ G, m.globals[k]? = some G ∧
      (GlobalKept m ∧ G.name ∈ globalNames m ∧
        ∃ F ∈ keptFunctions m, LookedUp F (.globalVariable G.id G.name)) ∧
      .relocated .M G.name = g := by
  simp only [movedGlobal, Option.bind_eq_bind, Option.bind_eq_some_iff,
    Option.ite_none_right_eq_some, Option.some.injEq]

section Plan

variable {m : SourceModule}

theorem id_of_getElem? {k : ℕ} {G : GlobalVariable} (h : m.globals[k]? = some G) :
    G.id = .source k := by
  have hid := congrArg (·[k]?) m.globals_source
  obtain ⟨hk, rfl⟩ := List.getElem?_eq_some_iff.mp h
  simpa [List.getElem?_map, hk] using hid

theorem mem_functions_of_kept {F : Function} (h : F ∈ keptFunctions m.toModule) :
    F ∈ m.functions := (keep_sublist _ _ _).subset h

theorem apart_planOf (m : SourceModule) : (planOf m.toModule).Apart where
  globals id id' g h h' := by
    cases id with
    | source k =>
      cases id' with
      | source k' =>
        obtain ⟨G, hG, ⟨-, hrecorded, -⟩, rfl⟩ := movedGlobal_eq_some.mp h
        obtain ⟨G', hG', -, heq⟩ := movedGlobal_eq_some.mp h'
        have hname : G.name = G'.name := by simpa using heq.symm
        have hsame := m.eq_of_global_name (List.mem_of_getElem? hG) (List.mem_of_getElem? hG') hname
          (mem_globalNames_iff.mp hrecorded).1
        rw [← id_of_getElem? hG, ← id_of_getElem? hG', hsame]
      | _ => cases h'
    | _ => cases h
  locals f id f' id' g h h' := by
    obtain ⟨F, hF, A, hA, ⟨hrecorded, -⟩, rfl⟩ := movedLocal_eq_some.mp h
    obtain ⟨F', hF', A', hA', -, heq⟩ := movedLocal_eq_some.mp h'
    obtain ⟨rfl, hname⟩ : f = f' ∧ A.name = A'.name := by simpa using heq.symm
    obtain rfl : F = F' := Option.some.inj (hF.symm.trans hF')
    have hwf := m.functions_wellFormed F (mem_functions_of_kept (List.mem_of_find?_eq_some hF))
    have hsame := hwf.eq_of_name (List.mem_of_find?_eq_some hA) (List.mem_of_find?_eq_some hA')
      hname (mem_localNames_iff.mp hrecorded).1
    have hid : A.id = id := by simpa using List.find?_some hA
    have hid' : A'.id = id' := by simpa using List.find?_some hA'
    exact ⟨rfl, by rw [← hid, ← hid', hsame]⟩
  disjoint id f id' g h h' := by
    cases id with
    | source k =>
      obtain ⟨G, -, -, rfl⟩ := movedGlobal_eq_some.mp h
      obtain ⟨F, -, A, -, -, heq⟩ := movedLocal_eq_some.mp h'
      cases heq
    | _ => cases h
  globals_new id g h := by
    cases id with
    | source k =>
      obtain ⟨G, -, -, rfl⟩ := movedGlobal_eq_some.mp h
      exact not_false
    | _ => cases h
  locals_new f id g h := by
    obtain ⟨F, -, A, -, -, rfl⟩ := movedLocal_eq_some.mp h
    exact not_false

theorem find?_kept {pre post : List Function} {F : Function}
    (hfunctions : m.functions = pre ++ F :: post) (hkept : IsKept m.toModule pre F) :
    (keptFunctions m.toModule).find? (·.name = F.name) = some F := by
  cases hfind : (keptFunctions m.toModule).find? (·.name = F.name) with
  | none =>
    have hmem : F ∈ keptFunctions m.toModule := by
      rw [keptFunctions_of_kept hfunctions hkept]
      simp
    simpa using List.find?_eq_none.mp hfind F hmem
  | some G =>
    have hname : G.name = F.name := by simpa using List.find?_some hfind
    obtain ⟨i, hi⟩ := List.getElem?_of_mem (List.mem_of_find?_eq_some hfind)
    rw [(position_of_name hfunctions hkept hi hname).2]

theorem movedLocal_of_not_kept {pre post : List Function} {F : Function}
    (hfunctions : m.functions = pre ++ F :: post) (hkept : ¬ IsKept m.toModule pre F)
    (id : InstId) : movedLocal m.toModule F.name id = none := by
  cases h : movedLocal m.toModule F.name id with
  | none => rfl
  | some g =>
    obtain ⟨G, hG, -⟩ := movedLocal_eq_some.mp h
    have hname : G.name = F.name := by simpa using List.find?_some hG
    refine absurd ?_ (name_notMem_keptFunctions hfunctions hkept)
    exact List.mem_map.mpr ⟨G, List.mem_of_find?_eq_some hG, hname⟩

end Plan

/-! Operands. -/

section Code

variable {m : SourceModule} {out : Output} {pre post : List Function} {F F' : Function}
  {s : PassState} {start : Module} {globVar : Table String String}
  (hfunctions : m.functions = pre ++ F :: post)

theorem find?_id (hF : F.WellFormed m.toModule) {A : Instruction} (hA : A ∈ F.instructions) :
    F.instructions.find? (·.id = A.id) = some A := by
  cases hfind : F.instructions.find? (·.id = A.id) with
  | none => simpa using List.find?_eq_none.mp hfind A hA
  | some B =>
    have hid : B.id = A.id := by simpa using List.find?_some hfind
    rw [List.inj_on_of_nodup_map hF.ids_nodup (List.mem_of_find?_eq_some hfind) hA hid]

include hfunctions in
theorem movedLocal_of_localOf (hkept : IsKept m.toModule pre F) {I : Instruction}
    (hI : I ∈ F.instructions) (hrenames : renames I.opcode = true) {val : Value}
    (hval : val ∈ I.operands) {v : String} (hlocal : localOf m.toModule F val = some v) :
    ∃ id, val = .instruction id v ∧
      movedLocal m.toModule F.name id = some (.relocated (.function F.name) v) := by
  have hF := m.functions_wellFormed F (by simp [hfunctions])
  obtain ⟨-, A, hA, rfl, rfl, -⟩ := (localOf_eq_some_iff hF hI hval).mp hlocal
  refine ⟨A.id, rfl, movedLocal_eq_some.mpr ⟨F, find?_kept hfunctions hkept, A, find?_id hF hA,
    ⟨(localOf_eq_some hlocal).2, I, hI, hrenames, hval⟩, rfl⟩⟩

include hfunctions in
theorem alloca_of_movedLocal {I : Instruction} (hI : I ∈ F.instructions)
    (hmoved : (movedLocal m.toModule F.name I.id).isSome = true) : ∃ ty, I.opcode = .alloca ty := by
  have hF := m.functions_wellFormed F (by simp [hfunctions])
  obtain ⟨g, hg⟩ := Option.isSome_iff_exists.mp hmoved
  obtain ⟨G, hG, A, hA, ⟨hrecorded, -⟩, -⟩ := movedLocal_eq_some.mp hg
  by_cases hkept : IsKept m.toModule pre F
  · rw [find?_kept hfunctions hkept] at hG
    obtain rfl := Option.some.inj hG
    rw [find?_id hF hI] at hA
    obtain rfl := Option.some.inj hA
    obtain ⟨hne, B, hB, hname, ty, hty, -⟩ := mem_localNames_iff.mp hrecorded
    rw [hF.eq_of_name hB hI hname (hname ▸ hne)] at hty
    exact ⟨ty, hty⟩
  · rw [movedLocal_of_not_kept hfunctions hkept] at hg
    cases hg

theorem renameOperand_global (code : FunctionCode m.toModule out pre F s start globVar F')
    {owners : List Owner} {m' : Module} (hm' : Extends (IsMarker owners) start m')
    (hkept : GlobalKept m.toModule) {name : String} (hrecorded : name ∈ globalNames m.toModule)
    (hcopied : CopiedUnderName m.toModule name) (id : GlobalId) :
    ∃ name', renameOperand globVar m' (.globalVariable id name) =
      .globalVariable (.relocated .M name) name' := by
  obtain ⟨s₀, pre', hs₀, hpre⟩ := stateBefore_eq_some.mp code.before
  have hext : Extends IsCreated s₀.M m' :=
    ((extends_processFunctions hpre).trans ((extends_GlbVarGen code.relocation).mono
      fun _ hG => Or.inl ⟨_, hG⟩)).trans (hm'.mono fun _ hG => Or.inr ⟨_, hG⟩)
  obtain ⟨G, hG, hid⟩ := (found_copy_iff hkept hrecorded hs₀ hext).mpr hcopied
  refine ⟨G.name, ?_⟩
  rw [renameOperand, Value.getName, code.follows name, firstRecorder_global hkept hrecorded]
  simp only [Option.map_some, hG, hid]

include hfunctions in
/-- Operands of a kept function that are not recorded keep what they denote. -/
theorem clean_of_not_recorded (hkept : IsKept m.toModule pre F) {I : Instruction}
    (hI : I ∈ F.instructions) {val : Value} (hval : val ∈ I.operands)
    (hlocal : localOf m.toModule F val = none) (hglobal : ¬ IsRecordedGlobal m.toModule val)
    (hexpr : ∀ base offset, val ≠ .constantExpr base offset) :
    Clean (planOf m.toModule) F.name val := by
  have hF := m.functions_wellFormed F (by simp [hfunctions])
  have hdeclared := hF.operands_declared I hI val hval
  cases val with
  | instruction id name =>
    obtain ⟨J, hJ, rfl, rfl⟩ := hdeclared
    refine ⟨hF.ids_source J hJ, Option.eq_none_iff_forall_ne_some.mpr fun g hg => ?_⟩
    obtain ⟨G, hG, A, hA, ⟨hrecorded, -⟩, -⟩ := movedLocal_eq_some.mp hg
    rw [find?_kept hfunctions hkept] at hG
    obtain rfl := Option.some.inj hG
    rw [find?_id hF hJ] at hA
    obtain rfl := Option.some.inj hA
    simp [localOf, hrecorded] at hlocal
  | globalVariable id name =>
    obtain ⟨G, hG, rfl, rfl⟩ := hdeclared
    obtain ⟨k, hk⟩ := source_id hG
    rw [hk]
    refine ⟨trivial, Option.eq_none_iff_forall_ne_some.mpr fun g hg => ?_⟩
    obtain ⟨G', hG', ⟨hgkept, hrecorded, -⟩, -⟩ := movedGlobal_eq_some.mp hg
    obtain rfl := eq_of_source_id hG (List.mem_of_getElem? hG') ((id_of_getElem? hG').trans hk.symm)
    exact hglobal ⟨hgkept, hrecorded⟩
  | constantExpr base offset => exact absurd rfl (hexpr base offset)
  | _ => trivial

theorem movedGlobal_of_lookedUp {G : GlobalVariable} (hG : G ∈ m.globals)
    (hkept : GlobalKept m.toModule) (hrecorded : G.name ∈ globalNames m.toModule)
    (hF : F ∈ keptFunctions m.toModule) (hlookedUp : LookedUp F (.globalVariable G.id G.name)) :
    IsSource G.id ∧ movedGlobal m.toModule G.id = some (.relocated .M G.name) := by
  obtain ⟨k, hk⟩ := List.getElem?_of_mem hG
  rw [id_of_getElem? hk] at hlookedUp ⊢
  refine ⟨trivial, movedGlobal_eq_some.mpr ⟨G, hk, ⟨hkept, hrecorded, F, hF, ?_⟩, rfl⟩⟩
  rwa [id_of_getElem? hk]

include hfunctions in
/-- An operand that is looked up becomes what has taken its place. -/
theorem movedOperand_of_renamed (hm : Movable m.toModule) (hkept : IsKept m.toModule pre F)
    (hnames : NamesApart m.toModule pre F)
    (code : FunctionCode m.toModule out pre F s start globVar F') {owners : List Owner}
    {m' : Module} (hm' : Extends (IsMarker owners) start m') (hout : m'.globals ⊆ out.M.globals)
    {I : Instruction} (hI : I ∈ F.instructions) (hrenames : renames I.opcode = true) {val : Value}
    (hval : val ∈ I.operands) :
    MovedOperand (planOf m.toModule) F.name val (renameOperand globVar m' val) := by
  have hF := m.functions_wellFormed F (by simp [hfunctions])
  have hmem : F ∈ keptFunctions m.toModule := by
    rw [keptFunctions_of_kept hfunctions hkept]
    simp
  cases hlocal : localOf m.toModule F val with
  | some v =>
    have hnamed := hnames.locals I hI hrenames val hval v hlocal
    obtain ⟨id, rfl, hmoved⟩ := movedLocal_of_localOf hfunctions hkept hI hrenames hval hlocal
    obtain ⟨G, -, hid, hrename⟩ :=
      (renameOperand_local_iff hfunctions code hm' hout hlocal).mpr hnamed
    rw [hrename, hid]
    exact .variable_ hmoved
  | none =>
    by_cases hglobal : IsRecordedGlobal m.toModule val
    · cases val with
      | globalVariable id name =>
        obtain ⟨G, hG, rfl, rfl⟩ := hF.operands_declared I hI _ hval
        obtain ⟨hsource, hmoved⟩ :=
          movedGlobal_of_lookedUp hG hglobal.1 hglobal.2 hmem ⟨I, hI, hrenames, hval⟩
        obtain ⟨name', hrename⟩ := renameOperand_global code hm' hglobal.1 hglobal.2
          (hm.copies G hG (by simp [hmoved])) G.id
        rw [hrename]
        exact .global hsource hmoved
      | _ => exact hglobal.elim
    · have hsame := (renameOperand_eq_self_iff code m' (hF.ne_null hI hval)).mpr
        (hnames.others I hI hrenames val hval hlocal hglobal)
      rw [hsame]
      refine .same ?_
      rcases hm.others F (by simp [hfunctions]) I hI val hval with hrenamed | hclean
      · refine clean_of_not_recorded hfunctions hkept hI hval hlocal hglobal fun base offset => ?_
        rintro rfl
        exact hrenamed
      · exact hclean

include hfunctions in
theorem movedInstruction (hm : Movable m.toModule) (hkept : IsKept m.toModule pre F)
    (hnames : NamesApart m.toModule pre F)
    (code : FunctionCode m.toModule out pre F s start globVar F')
    (hglobals : out.M.globals = out.state.M.globals) {ctx : CodeContext}
    (hctx : ctx.globVar = globVar) {I I' : Instruction} (hI : I ∈ F.instructions)
    (hrewritten : Rewritten ctx start out.state.M I I') :
    MovedInstruction (planOf m.toModule) F.name I I' := by
  have hF := m.functions_wellFormed F (by simp [hfunctions])
  obtain ⟨m', hm', hto, rfl⟩ := hrewritten
  have hout : m'.globals ⊆ out.M.globals := by
    rw [hglobals]
    exact hto.globals.subset
  have hsource := hF.ids_source I hI
  have halloca := alloca_of_movedLocal hfunctions hI
  have hforward := hF.entry_not_target I hI
  have hothers := hm.others F (by simp [hfunctions]) I hI
  split_ifs with hrenames
  · refine ⟨rfl, hsource, rfl, ?_, by simp [hrenames], halloca, hforward⟩
    rw [List.forall₂_map_right_iff, List.forall₂_same, hctx]
    exact fun val hval =>
      movedOperand_of_renamed hfunctions hm hkept hnames code hm' hout hI hrenames hval
  · have hclean : ∀ val ∈ I.operands, Clean (planOf m.toModule) F.name val := by
      intro val hval
      rcases hothers val hval with hrenamed | hclean
      · cases val with
        | constantExpr base offset => exact hrenamed.elim
        | _ => exact absurd hrenamed.2 hrenames
      · exact hclean
    refine ⟨rfl, hsource, rfl, ?_, fun _ => ⟨rfl, hclean⟩, halloca, hforward⟩
    exact List.forall₂_same.mpr fun val hval => .same (hclean val hval)

theorem isInserted_of_inserted {id : Owner → InstId} {global : Owner → GlobalId}
    (hid : ∀ owner, (id owner).isSource = false) {owners : List Owner} {loads : List Instruction}
    (h : Inserted id global owners loads) : ∀ J ∈ loads, IsInserted J := by
  induction h with
  | nil => simp
  | @cons owner J owners loads hJ _ ih =>
    obtain ⟨name, globalName, rfl⟩ := hJ
    exact List.forall_mem_cons.mpr ⟨⟨hid owner, 4, global owner, globalName, rfl, rfl⟩, ih⟩

include hfunctions in
theorem laid_of_laid (hm : Movable m.toModule) (hkept : IsKept m.toModule pre F)
    (hnames : NamesApart m.toModule pre F)
    (code : FunctionCode m.toModule out pre F s start globVar F')
    (hglobals : out.M.globals = out.state.M.globals) {ctx : CodeContext}
    (hctx : ctx.globVar = globVar) {BB BB' : List Instruction} (hBB : BB ⊆ F.instructions)
    (h : OperandRewriting.Laid ctx start out.state.M BB BB') :
    RelocatedRuns.Laid (planOf m.toModule) F.name BB BB' := by
  induction h with
  | nil => exact .nil
  | cons hne hI _ ih =>
    obtain ⟨hmem, hrest⟩ := List.cons_subset.mp hBB
    exact .cons (movedInstruction hfunctions hm hkept hnames code hglobals hctx hmem hI) (ih hrest)
  | @ret I loads rest rest' count hret hloads _ ih =>
    obtain ⟨hmem, hrest⟩ := List.cons_subset.mp hBB
    have hsame : Rewritten ctx start out.state.M I I :=
      ⟨start, Extends.refl _, code.created, by rw [if_neg (by simp [hret, renames])]⟩
    have hcons := RelocatedRuns.Laid.cons
      (movedInstruction hfunctions hm hkept hnames code hglobals hctx hmem hsame) (ih hrest)
    exact laid_append (isInserted_of_inserted (fun _ => rfl) hloads) (by simp [hret]) hcons

end Code

theorem movedBlocks_self {plan : Plan} {f : String} {blocks : List BasicBlock}
    (h : ∀ BB ∈ blocks, ∀ I ∈ BB, MovedInstruction plan f I I) :
    MovedBlocks plan f blocks blocks := by
  have hlaid : ∀ BB : List Instruction, (∀ I ∈ BB, MovedInstruction plan f I I) →
      RelocatedRuns.Laid plan f BB BB := by
    intro BB
    induction BB with
    | nil => exact fun _ => .nil
    | cons I BB ih =>
      intro hBB
      obtain ⟨hI, hrest⟩ := List.forall_mem_cons.mp hBB
      exact .cons hI (ih hrest)
  cases blocks with
  | nil => exact .declaration
  | cons BB rest =>
    obtain ⟨hBB, hrest⟩ := List.forall_mem_cons.mp h
    have hblocks : MovedBlocks plan f (BB :: rest) (([] ++ BB) :: rest) :=
      .definition (by simp) (hlaid BB hBB)
        (List.forall₂_same.mpr fun BB' hBB' => hlaid BB' (hrest BB' hBB'))
    exact hblocks

theorem movedFunction {m : SourceModule} {out : Output} (h : runOnModule m.toModule = some out)
    (hm : Movable m.toModule) {pre post : List Function} {F : Function}
    (hfunctions : m.functions = pre ++ F :: post) {F' : Function}
    (hF' : out.M.functions[pre.length]? = some F') :
    MovedFunction (planOf m.toModule) F F' := by
  have hF := m.functions_wellFormed F (by simp [hfunctions])
  by_cases hkept : IsKept m.toModule pre F
  · obtain ⟨s, start, globVar, F₁, code, hposition⟩ :=
      exists_functionCode h hfunctions hkept hF.blocks_nonempty
    obtain rfl : F' = F₁ := Option.some.inj (hF'.symm.trans hposition)
    have hnames : NamesApart m.toModule pre F := by
      have := hm.names pre.length F (by simp [hfunctions]) (by simpa [hfunctions] using hkept)
      simpa [hfunctions] using this
    have hlaid : ∀ BB BB', BB ∈ F.blocks → OperandRewriting.Laid
        ⟨ownersOf F s.GBlock (blockSize m.toModule F), globVar⟩ start out.state.M BB BB' →
        RelocatedRuns.Laid (planOf m.toModule) F.name BB BB' := fun BB BB' hBB hlaid =>
      laid_of_laid hfunctions hm hkept hnames code (globals_eq h) rfl
        (fun I hI => List.mem_flatten.mpr ⟨BB, hBB, hI⟩) hlaid
    refine ⟨code.name, ?_⟩
    have hcoded := code.coded
    generalize F.blocks = blocks at hcoded hlaid
    generalize F'.blocks = blocks' at hcoded
    cases hcoded with
    | declaration => exact .declaration
    | definition hloads hentry hrest =>
      refine .definition (isInserted_of_inserted (fun _ => rfl) hloads) (hlaid _ _ (by simp) hentry)
        (List.forall₂_iff_get.mpr ⟨hrest.length_eq, fun i hi hi' => ?_⟩)
      exact hlaid _ _ (by simp) ((List.forall₂_iff_get.mp hrest).2 i hi hi')
  · have hposition := function_of_not_kept h hfunctions hkept
    obtain rfl : F' = F := Option.some.inj (hF'.symm.trans hposition)
    refine ⟨rfl, movedBlocks_self fun BB hBB I hI => ?_⟩
    have hmem : I ∈ F'.instructions := List.mem_flatten.mpr ⟨BB, hBB, hI⟩
    have hnot : F' ∉ keptFunctions m.toModule := fun hmem =>
      name_notMem_keptFunctions hfunctions hkept (List.mem_map_of_mem hmem)
    have hclean : ∀ val ∈ I.operands, Clean (planOf m.toModule) F'.name val := by
      intro val hval
      rcases hm.others F' (by simp [hfunctions]) I hmem val hval with hrenamed | hclean
      · cases val with
        | constantExpr base offset => exact hrenamed.elim
        | _ => exact absurd hrenamed.1 hnot
      · exact hclean
    refine ⟨rfl, hF.ids_source I hmem, rfl, ?_, fun _ => ⟨rfl, hclean⟩,
      alloca_of_movedLocal hfunctions hmem, hF.entry_not_target I hmem⟩
    exact List.forall₂_same.mpr fun val hval => .same (hclean val hval)

/-- The transformed module has the code of its source. -/
theorem movedModule {m : SourceModule} {out : Output} (h : runOnModule m.toModule = some out)
    (hm : Movable m.toModule) : MovedModule (planOf m.toModule) m.toModule out.M := by
  have hlength : out.M.functions.length = m.functions.length := by
    obtain ⟨s₀, functions, -, hrun, hM, -⟩ := runOnModule_cases h
    rw [hM]
    exact processFunctions_length hrun
  refine List.forall₂_iff_get.mpr ⟨hlength.symm, fun i hi hi' => ?_⟩
  obtain ⟨pre, F, post, hfunctions, rfl⟩ := exists_function h (List.getElem?_eq_getElem hi')
  have hF : m.functions.get ⟨pre.length, hi⟩ = F := by simp [hfunctions]
  rw [hF]
  exact movedFunction h hm hfunctions (List.getElem?_eq_getElem hi')

theorem movedState_initial {plan : Plan} {M M' : Module} (hM : MovedModule plan M M')
    {memory memory' : Memory} (hmemory : PlacedMemory plan .new memory memory') {args : List Word}
    (hargs : ∀ w ∈ args, ∀ b ∈ w, KnownByte [] b) : MovedState plan .new (initial M memory args)
      (initial M' memory' (args.map (List.map (placeByte plan [])))) :=
  ⟨hmemory, activationOf_moved hM (placed_known_list hargs) (by simp [Receives]) .nil _ _, rfl, rfl,
    rfl⟩

/-- What a run of the source is asked for at each step: pointers that come from outside are to
objects that there are, and no access goes to an object whose variable has a newer one. -/
abbrev StaysCurrent (m : Module) (s : State) (run : List ((Choice × Event) × State)) : Prop :=
  ∀ x ∈ ghosts (fun makers s _ _ => nextMakers makers s) [] s run,
    Follows (planOf m) x.1 x.2.1 x.2.2.1

def three : Function where
  name := "three"
  args := []
  blocks := [[⟨.source 0, "x", .alloca (.integer 32), []⟩,
    ⟨.source 1, "", .store, [.constantData 4 3, .instruction (.source 0) "x"]⟩,
    ⟨.source 2, "", .load 4, [.instruction (.source 0) "x"]⟩,
    ⟨.source 3, "", .ret, [.instruction (.source 2) ""]⟩]]

/-- The result of `three` goes to the global `result`. -/
def keepsThree : SourceModule where
  globals := [⟨.source 0, "result", .integer 32, some (.constantInt 7), false, "", 4⟩]
  functions := [three,
    ⟨"main", [], [[⟨.source 0, "r", .call (some "three"), []⟩,
      ⟨.source 1, "", .store, [.instruction (.source 0) "r", .globalVariable (.source 0) "result"]⟩,
      ⟨.source 2, "", .load 4, [.globalVariable (.source 0) "result"]⟩,
      ⟨.source 3, "", .ret, [.instruction (.source 2) ""]⟩]]⟩]
  aliases := []
  getTypeAllocSize := packedSize
  LastUnique := 0
  symbols_nodup := by decide
  globals_source := globals_source_integer "result"
  functions_wellFormed := by decide

/-- Result of the pass on `keepsThree`. -/
def keepsThreeOutput : Output := (runOnModule keepsThree.toModule).get (by decide +kernel)

theorem keepsThree_run : runOnModule keepsThree.toModule = some keepsThreeOutput :=
  (Option.some_get _).symm

theorem keepsThree_movable : Movable keepsThree.toModule := by decide +kernel

def emptyStack : Memory := fun p =>
  match p.object with
  | .stack _ => .undef
  | _ => .data 0

theorem placed_emptyStack (plan : Plan) : PlacedMemory plan .new emptyStack fun _ => .data 0 where
  bytes p hp _ := by
    obtain ⟨o, d⟩ := p
    cases o with
    | stack n => exact absurd hp (Nat.not_lt_zero n)
    | _ => exact .data 0
  unstored _ _ _ := rfl
  known := by simp [Trail.new]

def keepsThreeStart : State := initial keepsThree.toModule emptyStack []

def keepsThreeRun : List ((Choice × Event) × State) :=
  follow keepsThree.toModule keepsThreeStart (List.replicate 8 (.run [] 0))

example : keepsThreeRun.length = 8 := by decide +kernel

end MMLMStore.ExecutionPreserved
