import MMLMStore.CreatedTargets
import MMLMStore.IRExecution

/-!
# Variables as the pass rebuilds them

The global made for a variable of a plain type has 32-bit integers in place of the variable's own,
and initial values are copied through them. It has the size, the element stride and the initial
bytes of the variable exactly when integers take four bytes, array lengths fit in 32 bits, and
narrow initial values are not negative.
-/
namespace MMLMStore.RebuiltVariables
open CreatedGlobals CreatedTargets IRExecution KeptFunctions KeyedTable LMStorePass LocalRelocation
  ModuleIR PassSteps RecordedNames StorageBudget

/-! Words. -/

theorem emod_mul (a : ℤ) {b n : ℤ} (hb : 0 < b) (hn : 0 < n) :
    a % (b * n) = a % b + b * (a / b % n) := by
  have hlow := Int.emod_lt_of_pos a hb
  have hhigh := Int.emod_lt_of_pos (a / b) hn
  have hlow' := Int.emod_nonneg a hb.ne'
  have hhigh' := Int.emod_nonneg (a / b) hn.ne'
  have hsum : a % b + b * (a / b % n) + b * n * (a / b / n) = a := by
    calc a % b + b * (a / b % n) + b * n * (a / b / n)
        = a % b + b * (a / b % n + n * (a / b / n)) := by ring
      _ = a := by rw [Int.emod_add_mul_ediv, Int.emod_add_mul_ediv]
  refine ((Int.ediv_emod_unique (mul_pos hb hn)).mpr ⟨hsum, by positivity, ?_⟩).2
  nlinarith

theorem wordOf_succ (k : ℕ) (a : ℤ) :
    wordOf (k + 1) a = .data (a % 256).toNat :: wordOf k (a / 256) := by
  rw [wordOf, wordOf, List.range_succ_eq_map, List.map_cons, List.map_map]
  congr 1
  · simp
  · refine List.map_congr_left fun i _ => ?_
    have hdiv : a / 256 ^ (i + 1) = a / 256 / 256 ^ i := by
      rw [Int.ediv_ediv_of_nonneg (by norm_num), pow_succ']
    simp only [Function.comp_apply, hdiv]

theorem wordOf_eq_iff {k : ℕ} {a b : ℤ} :
    wordOf k a = wordOf k b ↔ a % 256 ^ k = b % 256 ^ k := by
  induction k generalizing a b with
  | zero => simp [wordOf]
  | succ k ih =>
    have hpow : (256 : ℤ) ^ (k + 1) = 256 * 256 ^ k := pow_succ' 256 k
    have ha := emod_mul a (b := 256) (n := 256 ^ k) (by norm_num) (by positivity)
    have hb := emod_mul b (b := 256) (n := 256 ^ k) (by norm_num) (by positivity)
    rw [wordOf_succ, wordOf_succ, List.cons.injEq, Byte.data.injEq, ih, hpow, ha, hb]
    omega

theorem wordOf_emod {k : ℕ} (a : ℤ) : wordOf k (a % 256 ^ k) = wordOf k a :=
  wordOf_eq_iff.mpr (Int.emod_emod_of_dvd a (dvd_refl _))

/-! Sizes and initial values. -/

/-- Data layouts of the pass's targets: arrays have no padding, numbers their usual sizes. -/
structure StandardSizes (m : Module) : Prop where
  integer : m.getTypeAllocSize (.integer 32) = 4
  float : m.getTypeAllocSize .float = 4
  double : m.getTypeAllocSize .double = 8
  array : ∀ numElements elementType, m.getTypeAllocSize (.array numElements elementType) =
    numElements * m.getTypeAllocSize elementType

/-- Distance between neighbouring elements; a number is its only element. -/
def elementStride (m : Module) : Ty → ℕ
  | .array _ elementType => m.getTypeAllocSize elementType
  | ty => m.getTypeAllocSize ty

/-- Initial values that the compiler accepts for a plain type. -/
def WellTyped : Ty → Initializer → Bool
  | .integer _, .constantInt _ => true
  | .float, .constantFP _ => true
  | .double, .constantFP _ => true
  | .array _ elementType, .constantDataArray _ => IsScalar elementType
  | .array _ _, .constantAggregateZero => true
  | _, .other _ => true
  | _, _ => false

/-- Bytes of an initial value in memory. Integers are zero-extended from their width to their
size; what values other than plain data look like is left open. -/
def initialWord (otherWord : Ty → List Value → Word) (m : Module) (ty : Ty) : Initializer → Word
  | .constantInt value =>
    match ty with
    | .integer bits => wordOf (m.getTypeAllocSize ty) (value % 2 ^ bits)
    | _ => []
  | .constantFP bits => wordOf (m.getTypeAllocSize ty) bits
  | .constantDataArray elements =>
    elements.flatMap fun e : ℕ => wordOf (elementStride m ty) (e : ℤ)
  | .constantAggregateZero => wordOf (m.getTypeAllocSize ty) 0
  | .other references => otherWord ty references

/-- Variables of plain types that `GlbVarGen` relocates, with the initial values of the globals. -/
inductive IsRelocatedVariable (m : Module) : Owner → String → Ty → Option Initializer → Prop
  | local_ {pre post : List Function} {F : Function} {A : Instruction} {ty : Ty}
      (hfunctions : m.functions = pre ++ F :: post) (hkept : IsKept m pre F)
      (hA : A ∈ F.instructions) (hty : localType A = some ty) (hplain : IsPlain ty) :
      IsRelocatedVariable m (.function F.name) A.name ty none
  | global {GV : GlobalVariable} {ty : Ty} (hkept : GlobalKept m)
      (hGV : GV ∈ (withSeraj m).globals) (hty : globalType m GV = some ty) (hplain : IsPlain ty) :
      IsRelocatedVariable m .M GV.name ty GV.initializer

def KeepsVariable (otherWord : Ty → List Value → Word) (m : Module) (out : Output) (owner : Owner)
    (v : String) (ty : Ty) (data : Option Initializer) : Prop :=
  ∃ G ∈ out.M.globals, G.id = .relocated owner v ∧
    m.getTypeAllocSize G.valueType = m.getTypeAllocSize ty ∧
    elementStride m G.valueType = elementStride m ty ∧
    ∀ value ∈ data, WellTyped ty value → ∃ value' ∈ G.initializer,
      initialWord otherWord m G.valueType value' = initialWord otherWord m ty value

/-- Integers take four bytes, and an array's length fits in 32 bits. -/
def RebuildsShape (m : Module) : Ty → Prop
  | .integer bits => m.getTypeAllocSize (.integer bits) = 4
  | .array numElements (.integer bits) =>
    m.getTypeAllocSize (.integer bits) = 4 ∧ numElements < 2 ^ 32
  | .array numElements _ => numElements < 2 ^ 32
  | _ => True

/-- An integer narrower than 32 bits is not negative, and what is not plain data is zero. -/
def RebuildsValue (otherWord : Ty → List Value → Word) (m : Module) (ty : Ty) : Initializer → Prop
  | .constantInt value => ∀ bits, ty = .integer bits → bits < 32 →
    value % 2 ^ bits = value % 2 ^ 32
  | .other references => otherWord ty references = wordOf (m.getTypeAllocSize ty) 0
  | _ => True

theorem wordOf_copy_iff (value : ℤ) (bits : ℕ) :
    wordOf 4 (value % 2 ^ 32 % 2 ^ 32) = wordOf 4 (value % 2 ^ bits) ↔
      (bits < 32 → value % 2 ^ bits = value % 2 ^ 32) := by
  have hpow : (256 : ℤ) ^ 4 = 2 ^ 32 := by norm_num
  rw [wordOf_eq_iff, hpow, Int.emod_emod_of_dvd _ (dvd_refl _), Int.emod_emod_of_dvd _ (dvd_refl _)]
  by_cases hbits : bits < 32
  · have hlt : value % 2 ^ bits % 2 ^ 32 = value % 2 ^ bits := by
      refine Int.emod_eq_of_lt (Int.emod_nonneg _ (by positivity)) ?_
      calc value % 2 ^ bits < 2 ^ bits := Int.emod_lt_of_pos _ (by positivity)
        _ ≤ 2 ^ 32 := pow_le_pow_right₀ (by norm_num) hbits.le
    rw [hlt]
    simp only [hbits, true_imp_iff]
    exact eq_comm
  · have hdvd : (2 : ℤ) ^ 32 ∣ 2 ^ bits := pow_dvd_pow 2 (by omega)
    rw [Int.emod_emod_of_dvd _ hdvd]
    simp [hbits]

/-- Types that the pass creates have a zero that fills them. -/
theorem initialWord_zeroInitializer {otherWord : Ty → List Value → Word} {m : Module} {ty ty' : Ty}
    (hty : rebuiltType ty = some ty') :
    initialWord otherWord m ty' (zeroInitializer ty') = wordOf (m.getTypeAllocSize ty') 0 := by
  cases ty with
  | array numElements elementType => cases elementType <;> cases hty <;> rfl
  | _ =>
    cases hty
    try rfl

theorem copyInitializer_of_not_data {ty ty' : Ty} (hty : rebuiltType ty = some ty')
    {value : Initializer} (hint : ∀ n, value ≠ .constantInt n) (hfp : ∀ n, value ≠ .constantFP n)
    (hdata : ∀ l, value ≠ .constantDataArray l) :
    copyInitializer ty' value = zeroInitializer ty' := by
  cases value with
  | constantInt n => exact absurd rfl (hint n)
  | constantFP n => exact absurd rfl (hfp n)
  | constantDataArray l => exact absurd rfl (hdata l)
  | _ =>
    cases ty with
    | array numElements elementType => cases elementType <;> cases hty <;> rfl
    | _ =>
      cases hty
      try rfl

section Shape

variable {m : Module} (hsizes : StandardSizes m)

include hsizes

theorem rebuildsShape_iff {ty ty' : Ty} (hty : rebuiltType ty = some ty') :
    m.getTypeAllocSize ty' = m.getTypeAllocSize ty ∧
      elementStride m ty' = elementStride m ty ↔ RebuildsShape m ty := by
  cases ty with
  | integer bits =>
    cases hty
    simp only [elementStride, RebuildsShape, hsizes.integer, and_self]
    exact eq_comm
  | float =>
    cases hty
    simp [RebuildsShape]
  | double =>
    cases hty
    simp [RebuildsShape]
  | array numElements elementType =>
    have hlength : numElements % 2 ^ 32 = numElements ↔ numElements < 2 ^ 32 := by omega
    cases elementType with
    | integer bits =>
      cases hty
      simp only [elementStride, RebuildsShape, hsizes.array, hsizes.integer]
      constructor
      · rintro ⟨hsize, hstride⟩
        rw [← hstride] at hsize
        exact ⟨hstride.symm, by omega⟩
      · rintro ⟨hstride, hlt⟩
        exact ⟨by rw [hstride, hlength.mpr hlt], hstride.symm⟩
    | float =>
      cases hty
      simp only [elementStride, RebuildsShape, hsizes.array, hsizes.float, and_true]
      omega
    | double =>
      cases hty
      simp only [elementStride, RebuildsShape, hsizes.array, hsizes.double, and_true]
      omega
    | _ => cases hty
  | _ => cases hty

theorem rebuildsValue_iff {otherWord : Ty → List Value → Word} {ty ty' : Ty}
    (hty : rebuiltType ty = some ty') (hshape : RebuildsShape m ty) {value : Initializer}
    (hwell : WellTyped ty value) :
    initialWord otherWord m ty' (copyInitializer ty' value) = initialWord otherWord m ty value ↔
      RebuildsValue otherWord m ty value := by
  obtain ⟨hsize, hstride⟩ := (rebuildsShape_iff hsizes hty).mpr hshape
  cases value with
  | constantInt value =>
    cases ty with
    | integer bits =>
      cases hty
      have hfour : m.getTypeAllocSize (.integer bits) = 4 := hshape
      simp only [copyInitializer, initialWord, hsizes.integer, hfour, RebuildsValue,
        Ty.integer.injEq, forall_eq']
      exact wordOf_copy_iff value bits
    | _ => cases hwell
  | constantFP bits =>
    cases ty with
    | float =>
      cases hty
      simp [copyInitializer, RebuildsValue]
    | double =>
      cases hty
      simp [copyInitializer, RebuildsValue]
    | _ => cases hwell
  | constantDataArray elements =>
    cases ty with
    | array numElements elementType =>
      cases elementType with
      | integer bits =>
        cases hty
        have hfour : m.getTypeAllocSize (.integer bits) = 4 := hshape.1
        have helement : ∀ e : ℕ, wordOf 4 ((e % 2 ^ 32 : ℕ) : ℤ) = wordOf 4 e := fun e =>
          wordOf_emod (k := 4) e
        simp only [copyInitializer, initialWord, elementStride, hsizes.integer, hfour,
          RebuildsValue, List.flatMap_map, helement]
      | float =>
        cases hty
        simp only [copyInitializer, initialWord, elementStride, RebuildsValue]
      | double =>
        cases hty
        simp only [copyInitializer, initialWord, elementStride, RebuildsValue]
      | _ => cases hwell
    | _ => cases hwell
  | constantAggregateZero =>
    have hcopy : copyInitializer ty' .constantAggregateZero = zeroInitializer ty' :=
      copyInitializer_of_not_data hty (by simp) (by simp) (by simp)
    rw [hcopy, initialWord_zeroInitializer hty, hsize]
    simp only [initialWord, RebuildsValue]
  | other references =>
    have hcopy : copyInitializer ty' (.other references) = zeroInitializer ty' :=
      copyInitializer_of_not_data hty (by simp) (by simp) (by simp)
    rw [hcopy, initialWord_zeroInitializer hty, hsize]
    exact eq_comm

end Shape

/-! Variables of a run. -/

section Run

variable {m : SourceModule} {out : Output}

theorem exists_unique_made {owner : Owner} {entries : List (String × Variable)}
    {start next : Module} {globVar globVar' : Table String String}
    (hrel : Relocation out owner entries start globVar next globVar') {v : String} {ty : Ty}
    (hvar : (v, variableOf m.toModule ty) ∈ entries) (hplain : IsPlain ty) :
    ∃ ty', rebuiltType ty = some ty' ∧
      (∃ G ∈ out.state.M.globals, G.id = .relocated owner v) ∧
      ∀ G ∈ out.state.M.globals, G.id = .relocated owner v → G.valueType = ty' ∧
        Made start owner v (variableOf m.toModule ty) G := by
  have hsome : (createdType (variableOf m.toModule ty)).isSome := by
    rw [createdType_isSome]
    exact hplain
  rw [createdType_variableOf, Option.isSome_map] at hsome
  obtain ⟨ty', hty'⟩ := Option.isSome_iff_exists.mp hsome
  obtain ⟨G₀, hG₀, hmade₀⟩ := hrel.exists_made hvar (by rw [createdType_isSome]; exact hplain)
  refine ⟨ty', hty', ⟨G₀, hG₀, hmade₀.id⟩, fun G hG hid => ?_⟩
  obtain ⟨var, hvar', hmade⟩ := hrel.made_of_id hG hid
  obtain rfl : var = variableOf m.toModule ty :=
    congrArg Prod.snd (List.inj_on_of_nodup_map hrel.keys_nodup hvar' hvar rfl)
  have hshape := hmade.shape
  rw [createdType_variableOf, hty', Option.map_some, Option.some.injEq, Prod.mk.injEq] at hshape
  exact ⟨hshape.1.symm, hmade⟩

theorem initializer_of_made {GV G : GlobalVariable} {var : Variable}
    (hGV : GV ∈ (withSeraj m.toModule).globals) (hnamed : GV.name ≠ "")
    (hmade : Made (withSeraj m.toModule) .M GV.name var G) : ∃ value,
      GV.initializer = some value ∧
        G.initializer = some (copyInitializer G.valueType value) := by
  obtain ⟨m', hm', data, hdata, hG⟩ := hmade.initializer
  have hfound : (withSeraj m.toModule).getNamedGlobal GV.name = some GV := by
    cases hlookup : (withSeraj m.toModule).getNamedGlobal GV.name with
    | none =>
      have hnone := List.find?_eq_none.mp hlookup GV hGV
      simp at hnone
    | some GV' =>
      obtain ⟨hmem, hname⟩ := getNamedGlobal_eq_some hlookup
      rw [eq_of_global_name hGV hmem hname.symm hnamed]
  have howner : Owner.M.name = "M" := rfl
  rw [initialValue, if_pos howner, hm'.named _ (name_mem_symbols hGV), hfound, Option.bind_some,
    Option.map_eq_some_iff] at hdata
  obtain ⟨value, hvalue, rfl⟩ := hdata
  exact ⟨value, hvalue, hG⟩

variable (h : runOnModule m.toModule = some out)

include h

theorem exists_relocation {owner : Owner} {v : String} {ty : Ty} {data : Option Initializer}
    (hvariable : IsRelocatedVariable m.toModule owner v ty data) :
    ∃ entries start globVar next globVar',
      Relocation out owner entries start globVar next globVar' ∧
        (v, variableOf m.toModule ty) ∈ entries ∧ IsPlain ty ∧
        ∀ G, Made start owner v (variableOf m.toModule ty) G → ∀ value ∈ data,
          G.initializer = some (copyInitializer G.valueType value) := by
  cases hvariable with
  | @local_ pre post F A _ hfunctions hkept hA hty hplain =>
    have hwf := m.functions_wellFormed F (by simp [hfunctions])
    obtain ⟨s, start, globVar, t, owners, -, hrel, -, -⟩ :=
      exists_relocation_function h hfunctions hkept
    exact ⟨_, _, _, _, _, hrel, Table.mem_entries_iff.mpr (find?_of_localType hwf hA hty), hplain,
      by simp⟩
  | @global GV _ hkept hGV hty hplain =>
    obtain ⟨s, -, hrel⟩ := exists_relocation_M h hkept
    have hvar := find?_globalBlock_iff.mpr ⟨GV, hGV, rfl, ty, hty, rfl⟩
    refine ⟨_, _, _, _, _, hrel, Table.mem_entries_iff.mpr hvar, hplain, fun G hG value hvalue => ?_⟩
    obtain ⟨value', hvalue', hcopy⟩ :=
      initializer_of_made hGV (globalType_eq_some.mp hty).1 hG
    obtain rfl : value' = value := Option.some.inj (hvalue'.symm.trans hvalue)
    exact hcopy

end Run

/-- A variable of a plain type is rebuilt as it was exactly when its integers take four bytes, its
length fits in 32 bits and its initial value survives the copy. -/
theorem keepsVariable_iff {m : SourceModule} {out : Output}
    (h : runOnModule m.toModule = some out) (hsizes : StandardSizes m.toModule)
    (otherWord : Ty → List Value → Word) {owner : Owner} {v : String} {ty : Ty}
    {data : Option Initializer} (hvariable : IsRelocatedVariable m.toModule owner v ty data) :
    KeepsVariable otherWord m.toModule out owner v ty data ↔
      RebuildsShape m.toModule ty ∧ ∀ value ∈ data, WellTyped ty value →
        RebuildsValue otherWord m.toModule ty value := by
  obtain ⟨entries, start, globVar, next, globVar', hrel, hvar, hplain, hcopy⟩ :=
    exists_relocation h hvariable
  obtain ⟨ty', hty, ⟨G₀, hG₀, hid₀⟩, hunique⟩ := exists_unique_made hrel hvar hplain
  unfold KeepsVariable
  rw [globals_eq h]
  constructor
  · rintro ⟨G, hG, hid, hsize, hstride, hvalues⟩
    obtain ⟨rfl, hmade⟩ := hunique G hG hid
    have hshape := (rebuildsShape_iff hsizes hty).mp ⟨hsize, hstride⟩
    refine ⟨hshape, fun value hvalue hwell => ?_⟩
    obtain ⟨value', hvalue', hword⟩ := hvalues value hvalue hwell
    rw [hcopy G hmade value hvalue, Option.mem_def, Option.some.injEq] at hvalue'
    subst hvalue'
    exact (rebuildsValue_iff hsizes hty hshape hwell).mp hword
  · rintro ⟨hshape, hvalues⟩
    obtain ⟨rfl, hmade⟩ := hunique G₀ hG₀ hid₀
    obtain ⟨hsize, hstride⟩ := (rebuildsShape_iff hsizes hty).mpr hshape
    refine ⟨G₀, hG₀, hid₀, hsize, hstride, fun value hvalue hwell => ?_⟩
    exact ⟨_, hcopy G₀ hmade value hvalue,
      (rebuildsValue_iff hsizes hty hshape hwell).mpr (hvalues value hvalue hwell)⟩

theorem isRelocatedVariable_plainVariables : IsRelocatedVariable plainVariables.toModule .M "g"
    (.integer 32) (some (.constantInt 7)) := by
  have hGV : (⟨.source 0, "g", .integer 32, some (.constantInt 7), false, "", 4⟩ :
      GlobalVariable) ∈ (withSeraj plainVariables.toModule).globals := by decide +kernel
  exact .global (by decide +kernel) hGV (by decide +kernel) rfl

theorem keepsVariable_plainVariables : KeepsVariable (fun _ _ => []) plainVariables.toModule
    plainVariablesOutput .M "g" (.integer 32) (some (.constantInt 7)) := by
  have hsizes : StandardSizes plainVariables.toModule := ⟨rfl, rfl, rfl, fun _ _ => rfl⟩
  refine (keepsVariable_iff plainVariables_run hsizes _
    isRelocatedVariable_plainVariables).mpr ⟨rfl, fun value hvalue _ => ?_⟩
  obtain rfl := Option.some.inj hvalue
  intro bits hbits hlt
  obtain rfl := Ty.integer.inj hbits
  exact absurd hlt (lt_irrefl 32)

/-- `main` with a 64-bit integer. -/
def wideLocal : SourceModule where
  globals := []
  functions := [⟨"main", [], [[⟨.source 0, "x", .alloca (.integer 64), []⟩,
    ⟨.source 1, "", .ret, []⟩]]⟩]
  aliases := []
  getTypeAllocSize := packedSize
  LastUnique := 0
  symbols_nodup := by decide
  globals_source := globals_source_nil
  functions_wellFormed := by decide

theorem standardSizes_wideLocal : StandardSizes wideLocal.toModule :=
  ⟨rfl, rfl, rfl, fun _ _ => rfl⟩

def wideLocalOutput : Output := (runOnModule wideLocal.toModule).get (by decide +kernel)

theorem wideLocal_run : runOnModule wideLocal.toModule = some wideLocalOutput :=
  (Option.some_get _).symm

theorem isRelocatedVariable_wideLocal :
    IsRelocatedVariable wideLocal.toModule (.function "main") "x" (.integer 64) none := by
  have hfunctions : wideLocal.functions = [] ++ wideLocal.functions.head (by decide) :: [] := rfl
  have hA : (⟨.source 0, "x", .alloca (.integer 64), []⟩ : Instruction) ∈
      (wideLocal.functions.head (by decide)).instructions := by decide
  exact .local_ hfunctions (by decide +kernel) hA (by decide) rfl

/-- Its global is a 32-bit integer. -/
theorem keepsVariable_fails :
    ¬ ∀ (m : SourceModule) (out : Output), runOnModule m.toModule = some out →
      StandardSizes m.toModule → ∀ (otherWord : Ty → List Value → Word) owner v ty data,
        IsRelocatedVariable m.toModule owner v ty data →
        KeepsVariable otherWord m.toModule out owner v ty data := by
  intro h
  obtain ⟨G, hG, hid, hsize, -⟩ := h wideLocal wideLocalOutput wideLocal_run
    standardSizes_wideLocal (fun _ _ => []) _ _ _ _ isRelocatedVariable_wideLocal
  have hfour : ∀ G ∈ wideLocalOutput.M.globals, G.id = .relocated (.function "main") "x" →
      packedSize G.valueType = 4 := by decide +kernel
  have height := (hfour G hG hid).symm.trans hsize
  revert height
  decide

end MMLMStore.RebuiltVariables
