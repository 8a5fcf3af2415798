import MMLMStore.CodeShape
import MMLMStore.CreatedGlobals
import MMLMStore.GlobalRelocation

/-!
# Targets of the renaming

`GlbVarGen` enters a target name for every variable of a block, but makes a global for those of
plain types only, and the symbol table may give that global another name. The entries name created
globals, and renaming installs no null, exactly when all recorded types are plain and all target
names free.
-/
namespace MMLMStore.CreatedTargets
open CodeShape CreatedGlobals GlobalRelocation KeptFunctions KeyedTable LMStorePass LocalRelocation
  ModuleIR OperandRewriting PassSteps RecordedNames StorageBudget

def IsScalar : Ty → Bool
  | .integer _ => true
  | .float => true
  | .double => true
  | _ => false

/-- Numbers and arrays of numbers. -/
def IsPlain : Ty → Bool
  | .array _ elementType => IsScalar elementType
  | ty => IsScalar ty

/-- Every entry leads to the global created for its variable, and no operand is null. -/
structure NamesCreated (m : Module) (out : Output) : Prop where
  entries : ∀ v owner, firstRecorder (recorders m m.functions) v = some owner →
    out.state.globVar.find? v = some (targetName owner v) ∧
      ∃ G, out.M.getGlobalVariable (targetName owner v) = some G ∧ G.id = .relocated owner v
  operands : ∀ i j k, operandAt out.M.functions i j k ≠ some .null

/-- The variables that are the first to record their name have a plain type, and their target name
is free when their turn comes. -/
structure TargetsFree (m : Module) : Prop where
  globals : GlobalKept m → ∀ GV ∈ (withSeraj m).globals, ∀ ty, globalType m GV = some ty →
    IsPlain ty ∧ ∀ m' ∈ moduleBeforeCopy m GV.name, targetName .M GV.name ∉ m'.symbols
  locals : ∀ pre F post, m.functions = pre ++ F :: post → IsKept m pre F →
    ∀ A ∈ F.instructions, ∀ ty, localType A = some ty →
      firstRecorder (recorders m pre) A.name = none →
      IsPlain ty ∧
        ∀ m' ∈ moduleBefore m pre F A.name, targetName (.function F.name) A.name ∉ m'.symbols

theorem createdType_isSome (m : Module) (ty : Ty) :
    (createdType (variableOf m ty)).isSome = IsPlain ty := by
  cases ty with
  | array numElements elementType => cases elementType <;> rfl
  | _ => rfl

/-! First recorders. -/

theorem recorders_append (m : Module) (pre post : List Function) :
    ∃ rest, recorders m (pre ++ post) = recorders m pre ++ rest := by
  refine ⟨(keep m (leftAfter m (storageLeft m) pre) post).map
    fun F => (.function F.name, localNames m F), ?_⟩
  rw [recorders, recorders, keep_append, List.map_append, List.append_assoc]

theorem firstRecorder_mono {m : Module} {pre : List Function} {v : String} {owner : Owner}
    (h : firstRecorder (recorders m pre) v = some owner) (post : List Function) :
    firstRecorder (recorders m (pre ++ post)) v = some owner := by
  obtain ⟨rest, hrest⟩ := recorders_append m pre post
  rw [firstRecorder, Option.map_eq_some_iff] at h ⊢
  obtain ⟨r, hr, howner⟩ := h
  exact ⟨r, by rw [hrest, List.find?_append, hr, Option.some_or], howner⟩

theorem firstRecorder_nil {m : Module} {v : String} {owner : Owner} :
    firstRecorder (recorders m []) v = some owner ↔
      owner = .M ∧ GlobalKept m ∧ v ∈ globalNames m := by
  by_cases hkept : GlobalKept m <;> by_cases hv : v ∈ globalNames m <;>
    simp [firstRecorder, recorders, keep, hkept, hv, eq_comm]

/-- A function that is kept is the first recorder of those of its names that nobody recorded. -/
theorem firstRecorder_kept {m : Module} {pre : List Function} {F : Function}
    (hkept : IsKept m pre F) (v : String) : firstRecorder (recorders m (pre ++ [F])) v =
      (firstRecorder (recorders m pre) v).or
        (if v ∈ localNames m F then some (.function F.name) else none) := by
  rw [recorders_of_kept hkept, firstRecorder_append]

/-! Lookups. -/

theorem getGlobalVariable_mono {P : GlobalVariable → Prop} {m m' : Module} (hm : Extends P m m')
    {name : String} {G : GlobalVariable} (h : m.getGlobalVariable name = some G) :
    m'.getGlobalVariable name = some G := by
  obtain ⟨hfound, hlocal⟩ := getGlobalVariable_eq_some.mp h
  obtain ⟨hG, rfl⟩ := getNamedGlobal_eq_some hfound
  exact getGlobalVariable_eq_some.mpr ⟨(hm.named _ (name_mem_symbols hG)).trans hfound, hlocal⟩

theorem find?_of_localType {m : SourceModule} {F : Function} (hwf : F.WellFormed m.toModule)
    {A : Instruction} (hA : A ∈ F.instructions) {ty : Ty} (hty : localType A = some ty) :
    (DefUse m.toModule F).variables_.find? A.name = some (variableOf m.toModule ty) :=
  (find?_DefUse_iff hwf).mpr ⟨A, hA, rfl, ty, hty, rfl⟩

section Run

variable {m : SourceModule} {out : Output} {pre : List Function} {F : Function} {s : PassState}
  {start m' : Module} {globVar : Table String String}

theorem local_lookup_iff (hwf : F.WellFormed m.toModule)
    (hs : stateBefore m.toModule pre = some s)
    (hrel : Relocation out (.function F.name) (DefUse m.toModule F).variables_.entries s.M
      s.globVar start globVar)
    (hm' : Extends (fun G => ∀ v, G.id ≠ .relocated (.function F.name) v) start m')
    {A : Instruction} (hA : A ∈ F.instructions) {ty : Ty} (hty : localType A = some ty) :
    (∃ G, m'.getGlobalVariable (targetName (.function F.name) A.name) = some G ∧
      G.id = .relocated (.function F.name) A.name) ↔ IsPlain ty ∧
        ∀ m' ∈ moduleBefore m.toModule pre F A.name,
          targetName (.function F.name) A.name ∉ m'.symbols := by
  obtain ⟨after, hentries⟩ := Table.entries_eq_takeWhile (find?_of_localType hwf hA hty)
  have hgen := hrel.generated
  rw [hentries] at hgen
  obtain ⟨x, hx, -⟩ := GlbVarGen_append hgen
  rw [hrel.lookup_iff hentries hx hm', createdType_isSome, moduleBefore_eq hs hx]
  simp

theorem global_lookup_iff {s : PassState}
    (hrel : Relocation out .M (globalBlock m.toModule).variables_.entries (withSeraj m.toModule)
      Table.empty s.M s.globVar)
    (hm' : Extends (fun G => ∀ v, G.id ≠ .relocated .M v) s.M m') {GV : GlobalVariable}
    (hGV : GV ∈ (withSeraj m.toModule).globals) {ty : Ty}
    (hty : globalType m.toModule GV = some ty) :
    (∃ G, m'.getGlobalVariable (targetName .M GV.name) = some G ∧
      G.id = .relocated .M GV.name) ↔ IsPlain ty ∧
        ∀ m' ∈ moduleBeforeCopy m.toModule GV.name, targetName .M GV.name ∉ m'.symbols := by
  have hvar := find?_globalBlock_iff.mpr ⟨GV, hGV, rfl, ty, hty, rfl⟩
  obtain ⟨after, hentries⟩ := Table.entries_eq_takeWhile hvar
  have hgen := hrel.generated
  rw [hentries] at hgen
  obtain ⟨x, hx, -⟩ := GlbVarGen_append hgen
  have hbefore : moduleBeforeCopy m.toModule GV.name = some x.1 := by
    rw [moduleBeforeCopy, hx, Option.map_some]
  rw [hrel.lookup_iff hentries hx hm', createdType_isSome, hbefore]
  simp

def Found (m : Module) (pre : List Function) (m' : Module) : Prop :=
  ∀ v owner, firstRecorder (recorders m pre) v = some owner →
    ∃ G, m'.getGlobalVariable (targetName owner v) = some G ∧ G.id = .relocated owner v

theorem Found.mono {P : GlobalVariable → Prop} {m m' m'' : Module} {pre : List Function}
    (h : Found m pre m') (hm : Extends P m' m'') : Found m pre m'' := by
  intro v owner hv
  obtain ⟨G, hG, hid⟩ := h v owner hv
  exact ⟨G, getGlobalVariable_mono hm hG, hid⟩

theorem found_start (hfree : TargetsFree m.toModule) {post : List Function}
    (hfunctions : m.functions = pre ++ F :: post) (hkept : IsKept m.toModule pre F)
    (hs : stateBefore m.toModule pre = some s)
    (hrel : Relocation out (.function F.name) (DefUse m.toModule F).variables_.entries s.M
      s.globVar start globVar) (hfound : Found m.toModule pre s.M) :
    Found m.toModule (pre ++ [F]) start := by
  have hwf := m.functions_wellFormed F (by simp [hfunctions])
  intro v owner hv
  rw [firstRecorder_kept hkept] at hv
  cases hold : firstRecorder (recorders m.toModule pre) v with
  | some old =>
    rw [hold, Option.some_or] at hv
    cases hv
    obtain ⟨G, hG, hid⟩ := hfound v _ hold
    exact ⟨G, getGlobalVariable_mono (extends_GlbVarGen hrel.generated) hG, hid⟩
  | none =>
    rw [hold, Option.none_or] at hv
    split_ifs at hv with hmem
    cases hv
    obtain ⟨hne, A, hA, rfl, ty, hop, hvalid⟩ := mem_localNames_iff.mp hmem
    have hty := localType_eq_some.mpr ⟨hne, hop, hvalid⟩
    exact (local_lookup_iff hwf hs hrel (Extends.refl _) hA hty).mpr
      (hfree.locals pre F post hfunctions hkept A hA ty hty hold)

theorem renameOperand_ne_null {pre : List Function} {start m' : Module}
    {globVar : Table String String} {P : GlobalVariable → Prop}
    (hfollows : Follows (recorders m.toModule pre) globVar) (hfound : Found m.toModule pre start)
    (hm' : Extends P start m') {val : Value} (hnull : val ≠ .null) :
    renameOperand globVar m' val ≠ .null := by
  have hentry := hfollows val.getName
  unfold renameOperand
  cases hrecorder : firstRecorder (recorders m.toModule pre) val.getName with
  | none =>
    rw [hrecorder] at hentry
    simpa [hentry] using hnull
  | some owner =>
    rw [hrecorder] at hentry
    obtain ⟨G, hG, -⟩ := hfound val.getName owner hrecorder
    simp [hentry, getGlobalVariable_mono hm' hG]

variable (h : runOnModule m.toModule = some out)

include h

theorem found_nil (hfree : TargetsFree m.toModule) (hs : stateBefore m.toModule [] = some s) :
    Found m.toModule [] s.M := by
  intro v owner hv
  obtain ⟨rfl, hkept, hmem⟩ := firstRecorder_nil.mp hv
  obtain ⟨s₁, hs₁, hrel⟩ := exists_relocation_M h hkept
  obtain rfl : s = s₁ := Option.some.inj (hs.symm.trans hs₁)
  obtain ⟨var, hvar⟩ := Table.mem_keys_iff.mp hmem
  obtain ⟨GV, hGV, rfl, ty, hty, -⟩ := find?_globalBlock_iff.mp hvar
  exact (global_lookup_iff hrel (Extends.refl _) hGV hty).mpr (hfree.globals hkept GV hGV ty hty)

theorem found_before (hfree : TargetsFree m.toModule) {post : List Function}
    (hfunctions : m.functions = pre ++ post) (hs : stateBefore m.toModule pre = some s) :
    Found m.toModule pre s.M := by
  induction pre using List.reverseRecOn generalizing s post with
  | nil => exact found_nil h hfree hs
  | append_singleton pre F ih =>
    have hsplit : m.functions = pre ++ F :: post := by simpa using hfunctions
    obtain ⟨s₁, t, F', post', hs₁, hF, -, -⟩ := runOnModule_function h hsplit
    obtain ⟨s₀, done, hs₀, hdone⟩ := stateBefore_eq_some.mp hs₁
    have ht := stateBefore_eq_some.mpr ⟨s₀, _, hs₀, processFunctions_concat hdone hF⟩
    obtain rfl : s = t := Option.some.inj (hs.symm.trans ht)
    have hbefore := ih hsplit hs₁
    by_cases hkept : IsKept m.toModule pre F
    · obtain ⟨s₂, start, globVar, t, owners, hs₂, hrel, ht, hmarkers⟩ :=
        exists_relocation_function h hsplit hkept
      obtain rfl : s₁ = s₂ := Option.some.inj (hs₁.symm.trans hs₂)
      obtain rfl : s = t := Option.some.inj (hs.symm.trans ht)
      exact (found_start hfree hsplit hkept hs₁ hrel hbefore).mono hmarkers
    · have hsame : Found m.toModule pre s.M := hbefore.mono (extends_processFunction hF)
      intro v owner hv
      rw [recorders_of_skipped hkept] at hv
      exact hsame v owner hv

theorem operands_ne_null (hfree : TargetsFree m.toModule) (i j k : ℕ) :
    operandAt out.M.functions i j k ≠ some .null := by
  intro hat
  obtain ⟨F', I', hF', hI', hk⟩ := operandAt_eq_some.mp hat
  obtain ⟨pre, F, post, hfunctions, rfl⟩ := exists_function h hF'
  have hwf := m.functions_wellFormed F (by simp [hfunctions])
  by_cases hkept : IsKept m.toModule pre F
  · obtain ⟨s, start, globVar, F₁, code, hposition⟩ :=
      exists_functionCode h hfunctions hkept hwf.blocks_nonempty
    obtain rfl : F' = F₁ := Option.some.inj (hF'.symm.trans hposition)
    obtain ⟨s₁, start₁, globVar₁, t, owners, hs₁, hrel, -, -⟩ :=
      exists_relocation_function h hfunctions hkept
    obtain rfl : s = s₁ := Option.some.inj (code.before.symm.trans hs₁)
    obtain ⟨rfl, rfl⟩ : start = start₁ ∧ globVar = globVar₁ := by
      simpa using code.relocation.symm.trans hrel.generated
    have hfound := found_start hfree hfunctions hkept hs₁ hrel
      (found_before h hfree hfunctions hs₁)
    obtain ⟨hcount, hget⟩ :=
      List.forall₂_iff_get.mp (code.coded.sourceInstructions code.created hwf.ids_source)
    obtain ⟨hj, rfl⟩ := List.getElem?_eq_some_iff.mp hI'
    obtain ⟨m', hfrom, -, hI⟩ := hget j (hcount ▸ hj) hj
    rw [List.get_eq_getElem, List.get_eq_getElem] at hI
    rw [hI] at hk
    have hmem := List.getElem_mem (hcount ▸ hj : j < F.instructions.length)
    split_ifs at hk with hrenames
    · rw [List.getElem?_map, Option.map_eq_some_iff] at hk
      obtain ⟨val, hval, hrename⟩ := hk
      exact renameOperand_ne_null code.follows hfound hfrom
        (hwf.ne_null hmem (List.mem_of_getElem? hval)) hrename
    · exact hwf.ne_null hmem (List.mem_of_getElem? hk) rfl
  · have hposition := function_of_not_kept h hfunctions hkept
    obtain rfl : F' = F := Option.some.inj (hF'.symm.trans hposition)
    rw [sourceInstructions_eq hwf.ids_source] at hI'
    exact hwf.ne_null (List.mem_of_getElem? hI') (List.mem_of_getElem? hk) rfl

end Run

/-- The entries of `globVar` all name created globals exactly when the types are plain and the
names free; renaming then installs no null. -/
theorem namesCreated_iff {m : SourceModule} {out : Output}
    (h : runOnModule m.toModule = some out) :
    NamesCreated m.toModule out ↔ TargetsFree m.toModule := by
  have hsame : out.M.getGlobalVariable = out.state.M.getGlobalVariable := by
    obtain ⟨s, functions, -, -, hM, -⟩ := runOnModule_cases h
    rw [hM]
    rfl
  have hreached := runOnModule_reached h
  constructor
  · intro hnames
    constructor
    case globals =>
      intro hkept GV hGV ty hty
      obtain ⟨s, -, hrel⟩ := exists_relocation_M h hkept
      have hvar := find?_globalBlock_iff.mpr ⟨GV, hGV, rfl, ty, hty, rfl⟩
      have hnone : firstRecorder (recorders m.toModule []) GV.name = some .M :=
        firstRecorder_nil.mpr ⟨rfl, hkept, Table.mem_keys_iff.mpr ⟨_, hvar⟩⟩
      have hfirst : firstRecorder (recorders m.toModule m.functions) GV.name = some .M :=
        firstRecorder_mono hnone m.functions
      obtain ⟨-, hfound⟩ := hnames.entries GV.name .M hfirst
      rw [hsame] at hfound
      exact (global_lookup_iff hrel hrel.after hGV hty).mp hfound
    case locals =>
      intro pre F post hfunctions hkept A hA ty hty hnew
      have hwf := m.functions_wellFormed F (by simp [hfunctions])
      obtain ⟨s, start, globVar, t, owners, hs, hrel, -, -⟩ :=
        exists_relocation_function h hfunctions hkept
      have hmem : A.name ∈ localNames m.toModule F :=
        Table.mem_keys_iff.mpr ⟨_, find?_of_localType hwf hA hty⟩
      have hfirst : firstRecorder (recorders m.toModule m.functions) A.name =
          some (.function F.name) := by
        have hown : firstRecorder (recorders m.toModule (pre ++ [F])) A.name =
            some (.function F.name) := by
          rw [firstRecorder_kept hkept, hnew, if_pos hmem, Option.none_or]
        have hall := firstRecorder_mono hown post
        rwa [List.append_assoc, List.singleton_append, ← hfunctions] at hall
      obtain ⟨-, hfound⟩ := hnames.entries A.name _ hfirst
      rw [hsame] at hfound
      exact (local_lookup_iff hwf hs hrel hrel.after hA hty).mp hfound
  · intro hfree
    constructor
    case entries =>
      intro v owner hv
      obtain ⟨s₀, functions, hs₀, hrun⟩ := runOnModule_prepare h
      have hend := stateBefore_eq_some.mpr ⟨s₀, functions, hs₀, hrun⟩
      have hfound := found_before h hfree (List.append_nil m.functions).symm hend
      refine ⟨by rw [hreached.follows v, hv, Option.map_some], ?_⟩
      rw [hsame]
      exact hfound v owner hv
    case operands => exact operands_ne_null h hfree

def arrayUser : Function := ⟨"main", [], [[⟨.source 0, "a", .alloca (.array 4 (.integer 32)), []⟩,
  ⟨.source 1, "p", .getElementPtr [.fields [0, 4, 8, 12]],
    [.instruction (.source 0) "a", .constantData 4 1]⟩,
  ⟨.source 2, "", .store, [.globalVariable (.source 0) "g", .instruction (.source 0) "a"]⟩,
  ⟨.source 3, "", .load 4, [.instruction (.source 0) "a"]⟩, ⟨.source 4, "", .ret, []⟩]]⟩

/-- A global integer and a local array. -/
def plainVariables : SourceModule where
  globals := [⟨.source 0, "g", .integer 32, some (.constantInt 7), false, "", 4⟩]
  functions := [arrayUser]
  aliases := []
  getTypeAllocSize := packedSize
  LastUnique := 0
  symbols_nodup := by decide
  globals_source := globals_source_integer "g"
  functions_wellFormed := by decide

def plainVariablesOutput : Output := (runOnModule plainVariables.toModule).get (by decide +kernel)

theorem plainVariables_run : runOnModule plainVariables.toModule = some plainVariablesOutput :=
  (Option.some_get _).symm

theorem plainVariables_free : TargetsFree plainVariables.toModule where
  globals _ GV hGV ty hty := by
    have hall : ∀ GV ∈ (withSeraj plainVariables.toModule).globals,
        ∀ ty ∈ globalType plainVariables.toModule GV,
          IsPlain ty ∧ ∀ m' ∈ moduleBeforeCopy plainVariables.toModule GV.name,
            targetName .M GV.name ∉ m'.symbols := by decide +kernel
    exact hall GV hGV ty hty
  locals pre F post hfunctions _ A hA ty hty _ := by
    obtain ⟨rfl, rfl⟩ : pre = [] ∧ F = arrayUser := by
      cases pre with
      | nil => exact ⟨rfl, (List.cons.inj hfunctions).1.symm⟩
      | cons G pre => simp [plainVariables] at hfunctions
    have hall : ∀ A ∈ arrayUser.instructions, ∀ ty ∈ localType A,
        IsPlain ty ∧ ∀ m' ∈ moduleBefore plainVariables.toModule [] arrayUser A.name,
          targetName (.function "main") A.name ∉ m'.symbols := by decide +kernel
    exact hall A hA ty hty

theorem namesCreated_plainVariables :
    NamesCreated plainVariables.toModule plainVariablesOutput :=
  (namesCreated_iff plainVariables_run).mpr plainVariables_free

/-- `main` with a structure that it addresses. -/
def structLocal : SourceModule where
  globals := []
  functions := [⟨"main", [], [[⟨.source 0, "s", .alloca (.struct "pair"), []⟩,
    ⟨.source 1, "", .getElementPtr [.fields [0, 4]],
      [.instruction (.source 0) "s", .constantData 4 1]⟩, ⟨.source 2, "", .ret, []⟩]]⟩]
  aliases := []
  getTypeAllocSize := packedSize
  LastUnique := 0
  symbols_nodup := by decide
  globals_source := globals_source_nil
  functions_wellFormed := by decide

def structLocalOutput : Output := (runOnModule structLocal.toModule).get (by decide +kernel)

theorem structLocal_run : runOnModule structLocal.toModule = some structLocalOutput :=
  (Option.some_get _).symm

/-- The structure is entered as `main.s`, nothing of that name is created, and the address is
computed from null. -/
theorem namesCreated_fails :
    ¬ ∀ (m : SourceModule) (out : Output), runOnModule m.toModule = some out →
      NamesCreated m.toModule out := by
  intro h
  have hnames := h structLocal structLocalOutput structLocal_run
  have hoperand := hnames.operands 0 1 0
  revert hoperand
  decide +kernel

end MMLMStore.CreatedTargets
