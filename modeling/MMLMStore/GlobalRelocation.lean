import MMLMStore.LocalRelocation

/-!
# Relocation of source globals

A recorded global is copied once for the module, but its uses are rewritten one by one. They all
come to denote the copy, or all stay, exactly when either none of them is rewritten, or all of
them are and the copy has the name looked up.
-/
namespace MMLMStore.GlobalRelocation
open KeyedTable KeptFunctions LMStorePass LocalRelocation ModuleIR OperandRewriting PassSteps
  RecordedNames

/-- Global that a value points into. -/
def baseOf : Value → Option GlobalId
  | .globalVariable id _ => some id
  | .constantExpr base _ => baseOf base
  | _ => none

inductive Use
  | operand (function instruction position : ℕ)
  | reference (global position : ℕ)
  deriving DecidableEq, Repr

def references : Initializer → List Value
  | .other references => references
  | _ => []

def valueAt (M : Module) : Use → Option Value
  | .operand i j k => operandAt M.functions i j k
  | .reference i k => do
    let G ← M.globals[i]?
    let data ← G.initializer
    (references data)[k]?

/-- The use refers to the global, by itself or through a constant expression. -/
def RefersTo (M : Module) (id : GlobalId) (u : Use) : Prop :=
  (valueAt M u).bind baseOf = some id

instance (M : Module) (id : GlobalId) (u : Use) : Decidable (RefersTo M id u) :=
  inferInstanceAs (Decidable (_ = _))

def UsesAgree (m : Module) (out : Output) (G : GlobalVariable) : Prop :=
  (∀ u, RefersTo m G.id u → RefersTo out.M (.relocated .M G.name) u) ∨
    ∀ u, RefersTo m G.id u → RefersTo out.M G.id u

/-- The use is an operand that the pass looks up: the global itself, in a load, a store or an
address computation of a function that is kept. -/
def Renamed (m : Module) (G : GlobalVariable) : Use → Prop
  | .operand i j k => ∃ F I, m.functions[i]? = some F ∧ IsKept m (m.functions.take i) F ∧
      F.instructions[j]? = some I ∧ renames I.opcode ∧
      I.operands[k]? = some (.globalVariable G.id G.name)
  | .reference _ _ => False

def moduleBeforeCopy (m : Module) (v : String) : Option Module :=
  (GlbVarGen .M ((globalBlock m).variables_.entries.takeWhile fun x => x.1 ≠ v) (withSeraj m)
    Table.empty).map Prod.fst

def CopiedUnderName (m : Module) (v : String) : Prop :=
  (∃ var ∈ (globalBlock m).variables_.find? v, (createdType var).isSome) ∧
    ∀ m' ∈ moduleBeforeCopy m v, targetName .M v ∉ m'.symbols

/-! Names of the global block. -/

theorem mem_keys_recordGlobal (m : Module) (block : LMStoreBlock) (GV : GlobalVariable)
    (v : String) : v ∈ (recordGlobal m block GV).variables_.keys ↔
      v ∈ block.variables_.keys ∨ GV.name = v ∧ v ≠ "" ∧ excluded m GV.valueType = false := by
  unfold recordGlobal
  split_ifs with hrecord
  · rw [LMStoreBlock.record, Table.mem_keys_insert]
    constructor
    · rintro (rfl | hv)
      · exact Or.inr ⟨rfl, hrecord⟩
      · exact Or.inl hv
    · rintro (hv | ⟨rfl, -⟩)
      · exact Or.inr hv
      · exact Or.inl rfl
  · refine ⟨Or.inl, ?_⟩
    rintro (hv | ⟨rfl, hexcluded⟩)
    · exact hv
    · exact absurd hexcluded hrecord

theorem mem_globalNames_iff {m : Module} {v : String} : v ∈ globalNames m ↔ v ≠ "" ∧
    ∃ GV ∈ (withSeraj m).globals, GV.name = v ∧ excluded m GV.valueType = false := by
  have hgeneral : ∀ (GVs : List GlobalVariable) (block : LMStoreBlock),
      v ∈ (GVs.foldl (recordGlobal m) block).variables_.keys ↔ v ∈ block.variables_.keys ∨
        v ≠ "" ∧ ∃ GV ∈ GVs, GV.name = v ∧ excluded m GV.valueType = false := by
    intro GVs
    induction GVs with
    | nil => simp
    | cons GV GVs ih =>
      intro block
      rw [List.foldl_cons, ih, mem_keys_recordGlobal, or_assoc, and_left_comm, ← and_or_left]
      simp only [List.mem_cons, exists_eq_or_imp]
  have hrecord : recordGlobal (withSeraj m) = recordGlobal m := rfl
  have hempty : v ∉ (Table.empty : Table String Variable).keys := by simp [Table.keys, Table.empty]
  rw [globalNames, globalBlock, collectGlobals, hrecord, hgeneral]
  simp [hempty]

theorem firstRecorder_empty (m : Module) (functions : List Function) :
    firstRecorder (recorders m functions) "" = none := by
  rw [firstRecorder, Option.map_eq_none_iff, List.find?_eq_none]
  intro r hr
  rw [recorders, List.mem_append, List.mem_map] at hr
  rcases hr with hr | ⟨F, -, rfl⟩
  · split_ifs at hr
    · rw [List.mem_singleton] at hr
      subst hr
      simp [mem_globalNames_iff]
    · cases hr
  · simp [mem_localNames_iff]

/-! Values after the pass. -/

section Run

variable {m : SourceModule} {out : Output} (h : runOnModule m.toModule = some out)

include h

theorem globals_prefix : m.globals <+: out.M.globals := by
  have hreached := runOnModule_reached h
  rw [globals_eq h]
  exact (List.prefix_append _ _).trans hreached.extends_.globals

theorem valueAt_reference {i k : ℕ} {val : Value}
    (hval : valueAt m.toModule (.reference i k) = some val) :
    valueAt out.M (.reference i k) = some val := by
  simp only [valueAt, Option.bind_eq_bind, Option.bind_eq_some_iff] at hval ⊢
  obtain ⟨G, hG, hdata⟩ := hval
  refine ⟨G, ?_, hdata⟩
  obtain ⟨added, hadded⟩ := globals_prefix h
  obtain ⟨hi, rfl⟩ := List.getElem?_eq_some_iff.mp hG
  rw [← hadded, List.getElem?_append_left hi, List.getElem?_eq_getElem hi]

end Run

/-- The operand of a source function, with the functions before it. -/
theorem operandAt_source {m : SourceModule} {i j k : ℕ} {val : Value}
    (hval : operandAt m.functions i j k = some val) :
    ∃ F I post, m.functions = m.functions.take i ++ F :: post ∧ (m.functions.take i).length = i ∧
      m.functions[i]? = some F ∧ F.WellFormed m.toModule ∧ F.instructions[j]? = some I ∧
      I.operands[k]? = some val := by
  obtain ⟨F, I, hF, hI, hk⟩ := operandAt_eq_some.mp hval
  obtain ⟨hi, rfl⟩ := List.getElem?_eq_some_iff.mp hF
  have hwf := m.functions_wellFormed _ (List.getElem_mem hi)
  rw [sourceInstructions_eq hwf.ids_source] at hI
  refine ⟨_, I, m.functions.drop (i + 1), ?_, ?_, hF, hwf, hI, hk⟩
  · rw [List.getElem_cons_drop, List.take_append_drop]
  · rw [List.length_take]
    omega

theorem firstRecorder_global {m : Module} {v : String} (hkept : GlobalKept m)
    (hrecorded : v ∈ globalNames m) (functions : List Function) :
    firstRecorder (recorders m functions) v = some .M := by
  rw [recorders, if_pos hkept, firstRecorder, List.singleton_append,
    List.find?_cons_of_pos (by simpa using hrecorded)]
  rfl

section Global

variable {m : SourceModule} {out : Output} (h : runOnModule m.toModule = some out)
  {G : GlobalVariable} (hG : G ∈ m.globals) (hkept : GlobalKept m.toModule)
  (hrecorded : G.name ∈ globalNames m.toModule)

include hG in
theorem eq_of_source_id {G' : GlobalVariable} (hG' : G' ∈ m.globals) (hid : G'.id = G.id) :
    G' = G := by
  have hnodup : (m.globals.map GlobalVariable.id).Nodup := by
    rw [m.globals_source]
    exact List.Nodup.map (fun _ _ h => by simpa using h) List.nodup_range
  exact List.inj_on_of_nodup_map hnodup hG' hG hid

include hG in
theorem source_id : ∃ position, G.id = .source position := by
  have hid : G.id ∈ m.globals.map GlobalVariable.id := List.mem_map.mpr ⟨G, hG, rfl⟩
  rw [m.globals_source] at hid
  obtain ⟨position, -, hposition⟩ := List.mem_map.mp hid
  exact ⟨position, hposition.symm⟩

include h hG in
theorem eq_of_id {G' : GlobalVariable} (hG' : G' ∈ out.M.globals) (hid : G'.id = G.id) :
    G' = G := by
  obtain ⟨position, hposition⟩ := source_id hG
  rw [globals_eq h] at hG'
  rcases (runOnModule_reached h).extends_.added G' hG' with hG' | ⟨⟨owner, ⟨v, hv⟩, -⟩ | hmarker, -⟩
  · rcases mem_globals_newGlobal.mp hG' with hG' | rfl
    · exact eq_of_source_id hG hG' hid
    · rw [hposition] at hid
      cases hid
  · rw [hv, hposition] at hid
    cases hid
  · obtain ⟨owners, o, -, ⟨ho, -⟩ | ⟨count, ho, -⟩⟩ := hmarker
    · rw [ho, hposition] at hid
      cases hid
    · rw [ho, hposition] at hid
      cases hid

include h in
theorem valueAt_of_not_renamed (hG : G ∈ m.globals) {u : Use} {val : Value}
    (hval : valueAt m.toModule u = some val) (hbase : baseOf val = some G.id)
    (hnot : ¬ Renamed m.toModule G u) : valueAt out.M u = some val := by
  cases u with
  | reference i k => exact valueAt_reference h hval
  | operand i j k =>
    obtain ⟨F, I, post, hfunctions, hlen, hi, hF, hI, hk⟩ := operandAt_source hval
    change operandAt out.M.functions i j k = some val
    by_cases hkeptF : IsKept m.toModule (m.functions.take i) F
    · obtain ⟨s, start, globVar, F', code, hposition⟩ :=
        exists_functionCode h hfunctions hkeptF hF.blocks_nonempty
      obtain ⟨owners, m', -, -, hat⟩ := operandAt_kept code hposition hF.ids_source hI hk
      rw [hlen] at hat
      rw [hat]
      split_ifs with hrenames
      · have hmem := List.mem_of_getElem? hI
        have hval' := List.mem_of_getElem? hk
        rw [(renameOperand_eq_self_iff code m' (hF.ne_null hmem hval')).mpr]
        cases val with
        | globalVariable id name =>
          -- the operand is the global itself
          exfalso
          simp only [baseOf, Option.some.injEq] at hbase
          obtain ⟨G', hG', hid, hname⟩ := hF.operands_declared I hmem _ hval'
          obtain rfl := eq_of_source_id hG hG' (hid.trans hbase)
          exact hnot ⟨F, I, hi, hkeptF, hI, hrenames, by rw [hk, hid, hname]⟩
        | constantExpr base offset => exact firstRecorder_empty _ _
        | _ => cases hbase
      · rfl
    · have hposition := function_of_not_kept h hfunctions hkeptF
      rw [hlen] at hposition
      exact operandAt_eq_some.mpr
        ⟨F, I, hposition, by rwa [sourceInstructions_eq hF.ids_source], hk⟩

include h hkept hrecorded in
theorem valueAt_of_renamed {s₀ : PassState} (hs₀ : prepare m.toModule = some s₀) {u : Use}
    (hu : Renamed m.toModule G u) : ∃ m', Extends IsCreated s₀.M m' ∧
      m'.globals ⊆ out.M.globals ∧ valueAt out.M u =
        some (match m'.getGlobalVariable (targetName .M G.name) with
          | some G' => .globalVariable G'.id G'.name
          | none => .null) := by
  cases u with
  | reference i k => exact absurd hu not_false
  | operand i j k =>
    obtain ⟨F, I, hi, hkeptF, hI, hrenames, hk⟩ := hu
    have hwf := m.functions_wellFormed F (List.mem_of_getElem? hi)
    have hsource : operandAt m.functions i j k = some (.globalVariable G.id G.name) :=
      operandAt_eq_some.mpr ⟨F, I, hi, by rwa [sourceInstructions_eq hwf.ids_source], hk⟩
    obtain ⟨F₁, -, post, hfunctions, hlen, hi₁, -, -, -⟩ := operandAt_source hsource
    obtain rfl : F = F₁ := Option.some.inj (hi.symm.trans hi₁)
    obtain ⟨s, start, globVar, F', code, hposition⟩ :=
      exists_functionCode h hfunctions hkeptF hwf.blocks_nonempty
    obtain ⟨owners, m', hm', hto, hat⟩ := operandAt_kept code hposition hwf.ids_source hI hk
    obtain ⟨s₁, pre', hs₁, hpre⟩ := stateBefore_eq_some.mp code.before
    obtain rfl : s₀ = s₁ := Option.some.inj (hs₀.symm.trans hs₁)
    refine ⟨m', ?_, ?_, ?_⟩
    · exact ((extends_processFunctions hpre).trans ((extends_GlbVarGen code.relocation).mono
        fun _ hG => Or.inl ⟨_, hG⟩)).trans (hm'.mono fun _ hG => Or.inr ⟨_, hG⟩)
    · rw [globals_eq h]
      exact hto.globals.subset
    · change operandAt out.M.functions i j k = _
      rw [hlen] at hat
      rw [hat, if_pos hrenames, renameOperand, Value.getName, code.follows G.name,
        firstRecorder_global hkept hrecorded]
      rfl

theorem not_relocated_created {G : GlobalVariable} (h : IsCreated G) (v : String) :
    G.id ≠ .relocated .M v := by
  rcases h with ⟨f, ⟨w, hw⟩, -⟩ | ⟨owners, hmarker⟩
  · rw [hw]
    simp
  · exact not_relocated_marker hmarker _ v

/-- A module of the run in which the name of a recorded global is looked up. -/
theorem found_copy_iff {m : SourceModule} {v : String} {s : PassState} {m' : Module}
    (hkept : GlobalKept m.toModule) (hrecorded : v ∈ globalNames m.toModule)
    (hs : prepare m.toModule = some s) (hext : Extends IsCreated s.M m') :
    (∃ G, m'.getGlobalVariable (targetName .M v) = some G ∧ G.id = .relocated .M v) ↔
      CopiedUnderName m.toModule v := by
  have hgen := (prepared hs).relocation
  rw [if_pos hkept] at hgen
  obtain ⟨var, hvar⟩ := Table.mem_keys_iff.mp hrecorded
  obtain ⟨after, hentries⟩ := Table.entries_eq_takeWhile hvar
  rw [hentries] at hgen
  obtain ⟨x, hx, -⟩ := GlbVarGen_append hgen
  have hnodup := (globalBlock m.toModule).variables_.keys_nodup
  rw [Table.keys, hentries] at hnodup
  have hbefore : moduleBeforeCopy m.toModule v = some x.1 := by
    rw [moduleBeforeCopy, hx, Option.map_some]
  have hcopied : CopiedUnderName m.toModule v ↔ (createdType var).isSome ∧
      x.1.symbolName (targetName .M v) = targetName .M v := by
    simp [CopiedUnderName, hvar, hbefore, symbolName_eq_self_iff]
  rw [hcopied]
  exact getGlobalVariable_relocated_iff hgen hx hnodup
    (fun G hG => not_relocated_start hG .M v) hext (fun G hG => not_relocated_created hG v)
    (targetName .M v)

include h hkept hrecorded in
theorem refersTo_copy_iff {u : Use} (hu : Renamed m.toModule G u) :
    RefersTo out.M (.relocated .M G.name) u ↔ CopiedUnderName m.toModule G.name := by
  obtain ⟨s₀, functions, hs₀, -⟩ := runOnModule_prepare h
  obtain ⟨m', hm', -, hat⟩ := valueAt_of_renamed h hkept hrecorded hs₀ hu
  rw [← found_copy_iff hkept hrecorded hs₀ hm', RefersTo, hat]
  cases m'.getGlobalVariable (targetName .M G.name) with
  | none => simp [baseOf]
  | some G' => simp [baseOf]

include h hG hkept hrecorded in
theorem not_refersTo_renamed {u : Use} (hu : Renamed m.toModule G u) :
    ¬ RefersTo out.M G.id u := by
  obtain ⟨s₀, functions, hs₀, -⟩ := runOnModule_prepare h
  obtain ⟨m', -, hout, hat⟩ := valueAt_of_renamed h hkept hrecorded hs₀ hu
  rw [RefersTo, hat]
  cases hfound : m'.getGlobalVariable (targetName .M G.name) with
  | none => simp [baseOf]
  | some G' =>
    simp only [Option.bind_some, baseOf, Option.some.injEq]
    intro hid
    obtain ⟨hmem, hname⟩ := getNamedGlobal_eq_some (getGlobalVariable_eq_some.mp hfound).1
    obtain rfl := eq_of_id h hG (hout hmem) hid
    exact targetName_ne .M G'.name hname.symm

include h hG hkept hrecorded in
/-- The uses of a recorded global agree after the pass exactly when none of them is renamed, or
all are and the copy has the name looked up. -/
theorem usesAgree_iff : UsesAgree m.toModule out G ↔
    (∀ u, RefersTo m.toModule G.id u → ¬ Renamed m.toModule G u) ∨
      (∀ u, RefersTo m.toModule G.id u → Renamed m.toModule G u) ∧
        CopiedUnderName m.toModule G.name := by
  have hstays : ∀ u, RefersTo m.toModule G.id u → ¬ Renamed m.toModule G u →
      RefersTo out.M G.id u := by
    intro u hu hnot
    obtain ⟨val, hval, hbase⟩ := Option.bind_eq_some_iff.mp hu
    rw [RefersTo, valueAt_of_not_renamed h hG hval hbase hnot]
    exact hbase
  obtain ⟨position, hposition⟩ := source_id hG
  constructor
  · rintro (hcopy | hsame)
    · have hall : ∀ u, RefersTo m.toModule G.id u → Renamed m.toModule G u := by
        intro u hu
        by_contra hnot
        have hboth := (hcopy u hu).symm.trans (hstays u hu hnot)
        rw [hposition] at hboth
        cases hboth
      by_cases hused : ∃ u, RefersTo m.toModule G.id u
      · obtain ⟨u, hu⟩ := hused
        exact Or.inr ⟨hall, (refersTo_copy_iff h hkept hrecorded (hall u hu)).mp (hcopy u hu)⟩
      · exact Or.inl fun u hu => absurd ⟨u, hu⟩ hused
    · exact Or.inl fun u hu hrenamed =>
        not_refersTo_renamed h hG hkept hrecorded hrenamed (hsame u hu)
  · rintro (hnone | ⟨hall, hcopied⟩)
    · exact Or.inr fun u hu => hstays u hu (hnone u hu)
    · exact Or.inl fun u hu => (refersTo_copy_iff h hkept hrecorded (hall u hu)).mpr hcopied

end Global

def incrementing : Function where
  name := "main"
  args := []
  blocks := [[⟨.source 0, "", .load 4, [.globalVariable (.source 0) "g"]⟩,
    ⟨.source 1, "", .other "add", [.instruction (.source 0) "", .constantData 4 1]⟩,
    ⟨.source 2, "", .store, [.instruction (.source 1) "", .globalVariable (.source 0) "g"]⟩,
    ⟨.source 3, "", .ret, []⟩]]

def counted : GlobalVariable := ⟨.source 0, "g", .integer 32, some (.constantInt 7), false, "", 4⟩

/-- One global integer, used by a load and a store. -/
def counter : SourceModule where
  globals := [counted]
  functions := [incrementing]
  aliases := []
  getTypeAllocSize := packedSize
  LastUnique := 0
  symbols_nodup := by decide
  globals_source := globals_source_integer "g"
  functions_wellFormed := by decide

def counterOutput : Output := (runOnModule counter.toModule).get (by decide +kernel)

theorem counter_run : runOnModule counter.toModule = some counterOutput :=
  (Option.some_get _).symm

/-- The uses of `g` are the operands of the load and the store. -/
theorem counter_renamed {u : Use} (hu : RefersTo counter.toModule counted.id u) :
    Renamed counter.toModule counted u := by
  have hkept : IsKept counter.toModule [] incrementing := by decide +kernel
  have hoperands : ∀ I ∈ incrementing.instructions, ∀ val ∈ I.operands,
      baseOf val = some (.source 0) →
        renames I.opcode ∧ val = .globalVariable (.source 0) "g" := by decide +kernel
  cases u with
  | operand i j k =>
    obtain ⟨val, hval, hbase⟩ := Option.bind_eq_some_iff.mp hu
    obtain ⟨F, I, hF, hI, hk⟩ := operandAt_eq_some.mp hval
    obtain rfl : F = incrementing := List.mem_singleton.mp (List.mem_of_getElem? hF)
    obtain rfl : i = 0 := Nat.lt_one_iff.mp (List.getElem?_eq_some_iff.mp hF).1
    obtain ⟨hrenames, rfl⟩ := hoperands I (List.mem_of_getElem? hI) val (List.mem_of_getElem? hk)
      hbase
    exact ⟨incrementing, I, hF, hkept, hI, hrenames, hk⟩
  | reference i k =>
    obtain ⟨val, hval, -⟩ := Option.bind_eq_some_iff.mp hu
    cases i with
    | zero => cases hval
    | succ i => cases hval

theorem counted_copied : CopiedUnderName counter.toModule counted.name :=
  ⟨by decide +kernel, by decide +kernel⟩

theorem usesAgree_counter : UsesAgree counter.toModule counterOutput counted :=
  (usesAgree_iff counter_run (by decide) (by decide +kernel)
    (by decide +kernel)).mpr (Or.inr ⟨fun _ => counter_renamed, counted_copied⟩)

def loadAndPass : Function where
  name := "main"
  args := []
  blocks := [[⟨.source 0, "", .load 4, [.globalVariable (.source 0) "g"]⟩,
    ⟨.source 1, "", .call (some "use"), [.globalVariable (.source 0) "g"]⟩,
    ⟨.source 2, "", .ret, []⟩]]

/-- One global integer, used by a load and as the argument of a call. -/
def passedGlobal : SourceModule where
  globals := [⟨.source 0, "g", .integer 32, some (.constantInt 7), false, "", 4⟩]
  functions := [loadAndPass, ⟨"use", ["p"], []⟩]
  aliases := []
  getTypeAllocSize := packedSize
  LastUnique := 0
  symbols_nodup := by decide
  globals_source := globals_source_integer "g"
  functions_wellFormed := by decide

def passedGlobalOutput : Output := (runOnModule passedGlobal.toModule).get (by decide +kernel)

theorem passedGlobal_run : runOnModule passedGlobal.toModule = some passedGlobalOutput :=
  (Option.some_get _).symm

/-- The load reads the copy, the call is given the global itself. -/
theorem usesAgree_fails :
    ¬ ∀ (m : SourceModule) (out : Output), runOnModule m.toModule = some out →
      ∀ G ∈ m.globals, GlobalKept m.toModule → G.name ∈ globalNames m.toModule →
        UsesAgree m.toModule out G := by
  intro h
  have hagree := h passedGlobal passedGlobalOutput passedGlobal_run
    _ (List.mem_singleton.mpr rfl) (by decide +kernel) (by decide +kernel)
  rcases hagree with hcopy | hsame
  · have hargument := hcopy (.operand 0 1 0) (by decide)
    revert hargument
    decide +kernel
  · have hload := hsame (.operand 0 0 0) (by decide)
    revert hload
    decide +kernel

end MMLMStore.GlobalRelocation
