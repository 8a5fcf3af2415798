import MMLMStore.OperandRewriting

/-!
# Relocation of local variables

Renaming goes by bare names that all functions share. The operands of a function denote what they
should exactly when each of its local variables has the name its first recorder entered for it,
and no other operand bears a recorded name.
-/
namespace MMLMStore.LocalRelocation
open KeyedTable KeptFunctions LMStorePass ModuleIR OperandRewriting PassSteps RecordedNames

/-- Local variable that an operand denotes, if it has been recorded for the function. -/
def localOf (m : Module) (F : Function) : Value → Option String
  | .instruction _ name => if name ∈ localNames m F then some name else none
  | _ => none

/-- An operand that denotes a source global of the global block. -/
def IsRecordedGlobal (m : Module) : Value → Prop
  | .globalVariable _ name => GlobalKept m ∧ name ∈ globalNames m
  | _ => False

structure RelocatesLocals (m : Module) (out : Output) (pre : List Function) (F : Function) :
    Prop where
  relocated : ∀ (j k : ℕ) (I : Instruction) (val : Value) (v : String),
    F.instructions[j]? = some I → I.operands[k]? = some val → renames I.opcode →
    localOf m F val = some v → ∃ G ∈ out.M.globals, G.id = .relocated (.function F.name) v ∧
      operandAt out.M.functions pre.length j k = some (.globalVariable G.id G.name)
  untouched : ∀ (j k : ℕ) (I : Instruction) (val : Value),
    F.instructions[j]? = some I → I.operands[k]? = some val →
    localOf m F val = none → ¬ IsRecordedGlobal m val →
    operandAt out.M.functions pre.length j k = some val

def moduleBefore (m : Module) (pre : List Function) (F : Function) (v : String) :
    Option Module := do
  let s ← stateBefore m pre
  let x ← GlbVarGen (.function F.name)
    ((DefUse m F).variables_.entries.takeWhile fun x => x.1 ≠ v) s.M s.globVar
  some x.1

/-- A global is made for the local variable, under the name that the first recorder of the
variable entered. -/
def NamedAsRecorded (m : Module) (pre : List Function) (F : Function) (v : String) : Prop :=
  (∃ var ∈ (DefUse m F).variables_.find? v, (createdType var).isSome) ∧
    ∃ owner ∈ firstRecorder (recorders m (pre ++ [F])) v, ∀ m' ∈ moduleBefore m pre F v,
      m'.symbolName (targetName (.function F.name) v) = targetName owner v

/-- Names in the loads, stores and address computations of a function do not clash. -/
structure NamesApart (m : Module) (pre : List Function) (F : Function) : Prop where
  locals : ∀ I ∈ F.instructions, renames I.opcode → ∀ val ∈ I.operands, ∀ v ∈ localOf m F val,
    NamedAsRecorded m pre F v
  others : ∀ I ∈ F.instructions, renames I.opcode → ∀ val ∈ I.operands, localOf m F val = none →
    ¬ IsRecordedGlobal m val → firstRecorder (recorders m (pre ++ [F])) val.getName = none

/-! Recorded local variables. -/

theorem mem_keys_recordAlloca (m : Module) (block : LMStoreBlock) (I : Instruction) (v : String) :
    v ∈ (recordAlloca m block I).variables_.keys ↔ v ∈ block.variables_.keys ∨
      I.name = v ∧ v ≠ "" ∧ ∃ ty, I.opcode = .alloca ty ∧ typeCheck ty ≠ .isInvalid := by
  unfold recordAlloca
  split
  case h_1 ty hty =>
    split_ifs with hrecord
    · rw [LMStoreBlock.record, Table.mem_keys_insert]
      simp only [hty, Opcode.alloca.injEq, exists_eq_left']
      constructor
      · rintro (rfl | hv)
        · exact Or.inr ⟨rfl, hrecord.1, hrecord.2.2⟩
        · exact Or.inl hv
      · rintro (hv | ⟨rfl, -, -⟩)
        · exact Or.inr hv
        · exact Or.inl rfl
    · refine ⟨Or.inl, ?_⟩
      rintro (hv | ⟨rfl, hne, ty', hty', hvalid⟩)
      · exact hv
      · rw [hty, Opcode.alloca.injEq] at hty'
        subst hty'
        by_contra hout
        exact hrecord ⟨hne, Table.not_mem_keys_iff.mp hout, hvalid⟩
  case h_2 hother =>
    refine ⟨Or.inl, ?_⟩
    rintro (hv | ⟨-, -, ty, hty, -⟩)
    · exact hv
    · exact absurd hty (hother ty)

theorem mem_localNames_iff {m : Module} {F : Function} {v : String} :
    v ∈ localNames m F ↔ v ≠ "" ∧ ∃ A ∈ F.instructions, A.name = v ∧
      ∃ ty, A.opcode = .alloca ty ∧ typeCheck ty ≠ .isInvalid := by
  have hgeneral : ∀ (Is : List Instruction) (block : LMStoreBlock),
      v ∈ (Is.foldl (recordAlloca m) block).variables_.keys ↔ v ∈ block.variables_.keys ∨
        v ≠ "" ∧ ∃ A ∈ Is, A.name = v ∧
          ∃ ty, A.opcode = .alloca ty ∧ typeCheck ty ≠ .isInvalid := by
    intro Is
    induction Is with
    | nil => simp
    | cons I Is ih =>
      intro block
      rw [List.foldl_cons, ih, mem_keys_recordAlloca, or_assoc, and_left_comm, ← and_or_left]
      simp only [List.mem_cons, exists_eq_or_imp]
  have hempty : v ∉ (Table.empty : Table String Variable).keys := by simp [Table.keys, Table.empty]
  rw [localNames, DefUse, hgeneral]
  simp [hempty]

/-! Operands of one function. -/

theorem targetName_ne (owner : Owner) (v : String) : targetName owner v ≠ v := by
  intro h
  have hlen := congrArg String.length h
  simp only [targetName, String.length_append] at hlen
  have hdot : ".".length = 1 := rfl
  omega

/-- In a well-formed function the operand of a recorded name is the recorded alloca itself. -/
theorem localOf_eq_some_iff {m : Module} {F : Function} (hF : F.WellFormed m) {I : Instruction}
    (hI : I ∈ F.instructions) {val : Value} (hval : val ∈ I.operands) {v : String} :
    localOf m F val = some v ↔ v ≠ "" ∧ ∃ A ∈ F.instructions, val = .instruction A.id v ∧
      A.name = v ∧ ∃ ty, A.opcode = .alloca ty ∧ typeCheck ty ≠ .isInvalid := by
  constructor
  · intro h
    cases val with
    | instruction id name =>
      simp only [localOf] at h
      split_ifs at h with hmem
      cases h
      obtain ⟨hne, A, hA, hname, ty, hty⟩ := mem_localNames_iff.mp hmem
      obtain ⟨B, hB, hid, hBname⟩ := hF.operands_declared I hI _ hval
      obtain rfl : A = B := hF.eq_of_name hA hB (hname.trans hBname.symm) (hname ▸ hne)
      exact ⟨hne, A, hA, by rw [hid], hname, ty, hty⟩
    | _ => cases h
  · rintro ⟨hne, A, hA, rfl, hname, hty⟩
    exact if_pos (mem_localNames_iff.mpr ⟨hne, A, hA, hname, hty⟩)

section Operand

variable {m : SourceModule} {out : Output} {pre post : List Function} {F F' : Function}
  {s : PassState} {start : Module} {globVar : Table String String}

theorem not_relocated_before (hfunctions : m.functions = pre ++ F :: post)
    (hs : Reached m.toModule pre s) (v : String) {G : GlobalVariable} (hG : G ∈ s.M.globals) :
    G.id ≠ .relocated (.function F.name) v := by
  intro hid
  rcases hs.extends_.added G hG with hG | hG
  · exact not_relocated_start hG _ v hid
  · exact (m.function_names hfunctions).1 (hG.2 F.name v hid)

theorem not_relocated_marker {owners : List Owner} {G : GlobalVariable} (h : IsMarker owners G)
    (owner : Owner) (v : String) : G.id ≠ .relocated owner v := by
  intro hid
  obtain ⟨o, -, ⟨ho, -⟩ | ⟨count, ho, -⟩⟩ := h
  · rw [ho] at hid
    cases hid
  · rw [ho] at hid
    cases hid

theorem localOf_eq_some {val : Value} {v : String} (h : localOf m.toModule F val = some v) :
    val.getName = v ∧ v ∈ localNames m.toModule F := by
  cases val with
  | instruction id name =>
    simp only [localOf] at h
    split_ifs at h with hmem
    cases h
    exact ⟨rfl, hmem⟩
  | _ => cases h

theorem exists_firstRecorder (code : FunctionCode m.toModule out pre F s start globVar F')
    {v : String} (hv : v ∈ localNames m.toModule F) :
    ∃ owner, firstRecorder (recorders m.toModule (pre ++ [F])) v = some owner := by
  have hfind := find?_GlbVarGen code.relocation v
  have hmem : v ∈ (DefUse m.toModule F).variables_.entries.map Prod.fst := hv
  rw [code.follows v, if_pos hmem] at hfind
  cases hrecorder : firstRecorder (recorders m.toModule (pre ++ [F])) v with
  | some owner => exact ⟨owner, rfl⟩
  | none =>
    rw [hrecorder] at hfind
    cases hold : s.globVar.find? v <;> simp [hold] at hfind

theorem moduleBefore_eq {v : String} {x : Module × Table String String}
    (hs : stateBefore m.toModule pre = some s)
    (hx : GlbVarGen (.function F.name)
      ((DefUse m.toModule F).variables_.entries.takeWhile fun x => x.1 ≠ v) s.M s.globVar =
        some x) :
    moduleBefore m.toModule pre F v = some x.1 := by
  simp only [moduleBefore, hs, Option.bind_eq_bind, Option.bind_some, hx]

theorem renameOperand_local_iff (hfunctions : m.functions = pre ++ F :: post)
    (code : FunctionCode m.toModule out pre F s start globVar F') {owners : List Owner}
    {m' : Module} (hm' : Extends (IsMarker owners) start m')
    (hout : m'.globals ⊆ out.M.globals) {val : Value} {v : String}
    (hval : localOf m.toModule F val = some v) :
    (∃ G ∈ out.M.globals, G.id = .relocated (.function F.name) v ∧
      renameOperand globVar m' val = .globalVariable G.id G.name) ↔
        NamedAsRecorded m.toModule pre F v := by
  obtain ⟨hname, hv⟩ := localOf_eq_some hval
  obtain ⟨owner, howner⟩ := exists_firstRecorder code hv
  obtain ⟨var, hvar⟩ := Table.mem_keys_iff.mp hv
  obtain ⟨after, hentries⟩ := Table.entries_eq_takeWhile hvar
  have hgen := code.relocation
  rw [hentries] at hgen
  obtain ⟨x, hx, -⟩ := GlbVarGen_append hgen
  have hnodup := (DefUse m.toModule F).variables_.keys_nodup
  rw [Table.keys, hentries] at hnodup
  have hreached := reached_stateBefore code.before
  have hlookup := getGlobalVariable_relocated_iff hgen hx hnodup
    (fun G hG => not_relocated_before hfunctions hreached v hG) hm'
    (fun G hG => not_relocated_marker hG _ v) (targetName owner v)
  have hrename : renameOperand globVar m' val =
      (m'.getGlobalVariable (targetName owner v)).elim .null
        fun G => .globalVariable G.id G.name := by
    rw [renameOperand, hname, code.follows v, howner]
    cases h : m'.getGlobalVariable (targetName owner v) <;> simp [h]
  have hcondition : NamedAsRecorded m.toModule pre F v ↔
      (createdType var).isSome ∧
        x.1.symbolName (targetName (.function F.name) v) = targetName owner v := by
    simp [NamedAsRecorded, hvar, howner, moduleBefore_eq code.before hx]
  rw [hcondition, ← hlookup]
  constructor
  · rintro ⟨G, -, hid, hG⟩
    rw [hrename] at hG
    cases hfound : m'.getGlobalVariable (targetName owner v) with
    | none => simp [hfound] at hG
    | some G' =>
      simp only [hfound, Option.elim_some, Value.globalVariable.injEq] at hG
      exact ⟨G', rfl, hG.1.trans hid⟩
  · rintro ⟨G, hG, hid⟩
    refine ⟨G, hout (getNamedGlobal_eq_some (getGlobalVariable_eq_some.mp hG).1).1, hid, ?_⟩
    rw [hrename, hG, Option.elim_some]

theorem renameOperand_eq_self_iff (code : FunctionCode m.toModule out pre F s start globVar F')
    (m' : Module) {val : Value} (hnull : val ≠ .null) :
    renameOperand globVar m' val = val ↔
      firstRecorder (recorders m.toModule (pre ++ [F])) val.getName = none := by
  have hfind := code.follows val.getName
  unfold renameOperand
  cases hrecorder : firstRecorder (recorders m.toModule (pre ++ [F])) val.getName with
  | none =>
    rw [hrecorder] at hfind
    simp [hfind]
  | some owner =>
    rw [hrecorder] at hfind
    simp only [hfind, Option.map_some]
    cases hG : m'.getGlobalVariable (targetName owner val.getName) with
    | none => simpa using hnull.symm
    | some G =>
      simp only [reduceCtorEq, iff_false]
      intro heq
      have hname := (getNamedGlobal_eq_some (getGlobalVariable_eq_some.mp hG).1).2
      rw [← heq] at hname
      exact targetName_ne owner G.name hname.symm

end Operand

/-- Local variables are relocated, and nothing else is, exactly when no names clash. -/
theorem relocatesLocals_iff {m : SourceModule} {out : Output}
    (h : runOnModule m.toModule = some out) {pre post : List Function} {F : Function}
    (hfunctions : m.functions = pre ++ F :: post) (hkept : IsKept m.toModule pre F) :
    RelocatesLocals m.toModule out pre F ↔ NamesApart m.toModule pre F := by
  have hF : F.WellFormed m.toModule := m.functions_wellFormed F (by simp [hfunctions])
  obtain ⟨s, start, globVar, F', code, hposition⟩ :=
    exists_functionCode h hfunctions hkept hF.blocks_nonempty
  have hoperand : ∀ {j k I val}, F.instructions[j]? = some I → I.operands[k]? = some val →
      ∃ owners m', Extends (IsMarker owners) start m' ∧ m'.globals ⊆ out.M.globals ∧
        operandAt out.M.functions pre.length j k =
          some (if renames I.opcode then renameOperand globVar m' val else val) := by
    intro j k I val hI hval
    obtain ⟨owners, m', hm', hto, hat⟩ := operandAt_kept code hposition hF.ids_source hI hval
    refine ⟨owners, m', hm', ?_, hat⟩
    rw [globals_eq h]
    exact hto.globals.subset
  constructor
  · intro hrelocates
    refine ⟨fun I hI hrenames val hval v hv => ?_, fun I hI hrenames val hval hlocal hglobal => ?_⟩
    · obtain ⟨j, hj⟩ := List.getElem?_of_mem hI
      obtain ⟨k, hk⟩ := List.getElem?_of_mem hval
      obtain ⟨owners, m', hm', hsub, hat⟩ := hoperand hj hk
      obtain ⟨G, hG, hid, hGat⟩ := hrelocates.relocated j k I val v hj hk hrenames hv
      rw [hat, if_pos hrenames, Option.some.injEq] at hGat
      exact (renameOperand_local_iff hfunctions code hm' hsub hv).mp ⟨G, hG, hid, hGat⟩
    · obtain ⟨j, hj⟩ := List.getElem?_of_mem hI
      obtain ⟨k, hk⟩ := List.getElem?_of_mem hval
      obtain ⟨owners, m', hm', hsub, hat⟩ := hoperand hj hk
      have hsame := hrelocates.untouched j k I val hj hk hlocal hglobal
      rw [hat, if_pos hrenames, Option.some.injEq] at hsame
      exact (renameOperand_eq_self_iff code m' (hF.ne_null hI hval)).mp hsame
  · intro hapart
    refine ⟨fun j k I val v hj hk hrenames hv => ?_, fun j k I val hj hk hlocal hglobal => ?_⟩
    · obtain ⟨owners, m', hm', hsub, hat⟩ := hoperand hj hk
      have hnamed := hapart.locals I (List.mem_of_getElem? hj) hrenames val
        (List.mem_of_getElem? hk) v hv
      obtain ⟨G, hG, hid, hrename⟩ :=
        (renameOperand_local_iff hfunctions code hm' hsub hv).mpr hnamed
      refine ⟨G, hG, hid, ?_⟩
      rw [hat, if_pos hrenames, hrename]
    · obtain ⟨owners, m', hm', hsub, hat⟩ := hoperand hj hk
      rw [hat]
      split_ifs with hrenames
      · have hI := List.mem_of_getElem? hj
        have hval := List.mem_of_getElem? hk
        rw [(renameOperand_eq_self_iff code m' (hF.ne_null hI hval)).mpr
          (hapart.others I hI hrenames val hval hlocal hglobal)]
      · rfl

def reader (name : String) : Function where
  name := name
  args := []
  blocks := [[⟨.source 0, "x", .alloca (.integer 32), []⟩,
    ⟨.source 1, "", .load 4, [.instruction (.source 0) "x"]⟩,
    ⟨.source 2, "", .ret, []⟩]]

def otherReader : Function := ⟨"main", [], [[⟨.source 0, "y", .alloca (.integer 32), []⟩,
  ⟨.source 1, "", .load 4, [.instruction (.source 0) "y"]⟩, ⟨.source 2, "", .ret, []⟩]]⟩

def ownNames : SourceModule where
  globals := []
  functions := [reader "f", otherReader]
  aliases := []
  getTypeAllocSize := packedSize
  LastUnique := 0
  symbols_nodup := by decide
  globals_source := globals_source_nil
  functions_wellFormed := by decide

def ownNamesOutput : Output := (runOnModule ownNames.toModule).get (by decide +kernel)

theorem ownNames_run : runOnModule ownNames.toModule = some ownNamesOutput :=
  (Option.some_get _).symm

theorem ownNames_apart : NamesApart ownNames.toModule [reader "f"] otherReader where
  locals I hI hrenames val hval v hv := by
    have hlocal : ∀ I ∈ otherReader.instructions, ∀ val ∈ I.operands,
        ∀ v ∈ (localOf ownNames.toModule otherReader val).toList, v = "y" := by decide +kernel
    obtain rfl := hlocal I hI val hval v (by simpa using hv)
    refine ⟨by decide +kernel, .function "main", by decide +kernel, ?_⟩
    decide +kernel
  others I hI _ val hval hlocal _ := by
    have hall : ∀ I ∈ otherReader.instructions, ∀ val ∈ I.operands,
        localOf ownNames.toModule otherReader val ≠ none := by decide +kernel
    exact absurd hlocal (hall I hI val hval)

theorem relocatesLocals_ownNames :
    RelocatesLocals ownNames.toModule ownNamesOutput [reader "f"] otherReader :=
  (relocatesLocals_iff ownNames_run rfl (by decide +kernel)).mpr
    ownNames_apart

/-- `f` and `main` both have a local variable `x`. -/
def sharedName : SourceModule where
  globals := []
  functions := [reader "f", reader "main"]
  aliases := []
  getTypeAllocSize := packedSize
  LastUnique := 0
  symbols_nodup := by decide
  globals_source := globals_source_nil
  functions_wellFormed := by decide

def sharedNameOutput : Output := (runOnModule sharedName.toModule).get (by decide +kernel)

theorem sharedName_run : runOnModule sharedName.toModule = some sharedNameOutput :=
  (Option.some_get _).symm

/-- The load in `main` reads the variable of `f`. -/
theorem relocatesLocals_fails :
    ¬ ∀ (m : SourceModule) (out : Output), runOnModule m.toModule = some out →
      ∀ (pre : List Function) (F : Function) (post : List Function),
        m.functions = pre ++ F :: post → IsKept m.toModule pre F →
        RelocatesLocals m.toModule out pre F := by
  intro h
  have hrelocates := h sharedName sharedNameOutput sharedName_run
    [reader "f"] (reader "main") [] rfl (by decide +kernel)
  obtain ⟨G, -, hid, hat⟩ := hrelocates.relocated 1 0 _ _ "x" rfl rfl rfl (by decide +kernel)
  have hread : operandAt sharedNameOutput.M.functions 1 1 0 =
      some (.globalVariable (.relocated (.function "f") "x") "f.x") := by decide +kernel
  rw [List.length_singleton, hread, Option.some.injEq, Value.globalVariable.injEq] at hat
  have hsame := hat.1.trans hid
  revert hsame
  decide

end MMLMStore.LocalRelocation
