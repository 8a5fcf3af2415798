import MMLMStore.RecordedNames

/-!
# Budget of the storage

What `lmstorage_size` says after `GlobVarGen` and after each `codeGen`, against the sizes that the
data layout gives. Block sizes are 32-bit sums: the budget is kept exactly when no block that the
pass keeps has 4 GiB or more.
-/
namespace MMLMStore.StorageBudget
open KeptFunctions KeyedTable LMRefMapping LMStorePass LMStoreTables ModuleIR PassSteps
  RecordedNames

/-! Sizes in bytes. -/

def localType (I : Instruction) : Option Ty :=
  match I.opcode with
  | .alloca ty => if I.name ≠ "" ∧ typeCheck ty ≠ .isInvalid then some ty else none
  | _ => none

def localBytes (m : Module) (F : Function) : ℕ :=
  ((F.instructions.filterMap localType).map m.getTypeAllocSize).sum

def globalType (m : Module) (GV : GlobalVariable) : Option Ty :=
  if GV.name ≠ "" ∧ excluded m GV.valueType = false then some GV.valueType else none

def globalBytes (m : Module) : ℕ :=
  (((withSeraj m).globals.filterMap (globalType m)).map m.getTypeAllocSize).sum

theorem recordAlloca_of_localType (m : Module) (block : LMStoreBlock) (I : Instruction) :
    recordAlloca m block I =
      match localType I with
      | some ty =>
        if block.variables_.find? I.name = none then block.record m I.name ty else block
      | none => block := by
  unfold recordAlloca localType
  cases I.opcode with
  | alloca ty =>
    by_cases hname : I.name = "" <;> by_cases hnew : block.variables_.find? I.name = none <;>
      by_cases htype : typeCheck ty = .isInvalid <;> simp [hname, hnew, htype]
  | _ => rfl

/-- Over instructions whose names are new to the block, sizes add up in 32 bits. -/
theorem block_size_foldl (m : Module) (l : List Instruction) (block : LMStoreBlock)
    (hnames : ((l.map Instruction.name).filter (· ≠ "")).Nodup)
    (hnew : ∀ I ∈ l, I.name ≠ "" → block.variables_.find? I.name = none)
    (hlt : block.block_size < 2 ^ 32) :
    (l.foldl (recordAlloca m) block).block_size =
      (block.block_size + ((l.filterMap localType).map m.getTypeAllocSize).sum) % 2 ^ 32 := by
  induction l generalizing block with
  | nil => simpa using (Nat.mod_eq_of_lt hlt).symm
  | cons I l ih =>
    have hrest : ((l.map Instruction.name).filter (· ≠ "")).Nodup :=
      hnames.sublist ((List.sublist_cons_self _ _).filter _)
    rw [List.foldl_cons, recordAlloca_of_localType]
    cases hty : localType I with
    | none =>
      rw [List.filterMap_cons_none hty]
      exact ih block hrest (fun J hJ => hnew J (List.mem_cons_of_mem I hJ)) hlt
    | some ty =>
      have hnamed : I.name ≠ "" := by
        unfold localType at hty
        split at hty
        · split_ifs at hty with hcond
          exact hcond.1
        · cases hty
      have hfresh : ∀ J ∈ l, J.name ≠ I.name := by
        intro J hJ heq
        rw [List.map_cons, List.filter_cons_of_pos (by simpa using hnamed)] at hnames
        refine (List.nodup_cons.mp hnames).1 (List.mem_filter.mpr ⟨?_, by simpa using hnamed⟩)
        exact List.mem_map.mpr ⟨J, hJ, heq⟩
      simp only [hnew I List.mem_cons_self hnamed, if_true]
      rw [ih _ hrest ?fresh (Nat.mod_lt _ (by norm_num)), List.filterMap_cons_some hty,
        List.map_cons, List.sum_cons]
      · simp only [LMStoreBlock.record, addU32]
        omega
      case fresh =>
        intro J hJ hJnamed
        change (block.variables_.insert I.name (variableOf m ty)).find? J.name = none
        rw [Table.find?_insert, hnew J (List.mem_cons_of_mem I hJ) hJnamed]
        simp [hfresh J hJ]

theorem blockSize_eq (m : Module) {F : Function} (hwf : F.WellFormed m) :
    blockSize m F = localBytes m F % 2 ^ 32 := by
  have hnames : ((F.instructions.map Instruction.name).filter (· ≠ "")).Nodup := by
    have h := hwf.names_nodup
    rw [List.filter_append] at h
    exact (List.nodup_append.mp h).2.1
  rw [blockSize, DefUse, block_size_foldl m _ _ hnames (fun I _ _ => rfl) (by norm_num),
    Nat.zero_add, localBytes]

theorem globalBlock_size (m : Module) : (globalBlock m).block_size = globalBytes m % 2 ^ 32 := by
  have hgeneral : ∀ (l : List GlobalVariable) (block : LMStoreBlock), block.block_size < 2 ^ 32 →
      (l.foldl (recordGlobal (withSeraj m)) block).block_size = (block.block_size +
        ((l.filterMap (globalType m)).map m.getTypeAllocSize).sum) % 2 ^ 32 := by
    intro l
    induction l with
    | nil =>
      intro block hlt
      simpa using (Nat.mod_eq_of_lt hlt).symm
    | cons GV l ih =>
      intro block hlt
      have hexcluded : excluded (withSeraj m) GV.valueType = excluded m GV.valueType := rfl
      rw [List.foldl_cons, recordGlobal, hexcluded]
      by_cases htaken : GV.name ≠ "" ∧ excluded m GV.valueType = false
      · have hty : globalType m GV = some GV.valueType := if_pos htaken
        rw [if_pos htaken, ih _ (Nat.mod_lt _ (by norm_num)), List.filterMap_cons_some hty,
          List.map_cons, List.sum_cons]
        have hlayout : (withSeraj m).getTypeAllocSize = m.getTypeAllocSize := rfl
        simp only [LMStoreBlock.record, addU32, hlayout]
        omega
      · have hty : globalType m GV = none := if_neg htaken
        rw [if_neg htaken, ih block hlt, List.filterMap_cons_none hty]
  rw [globalBlock, collectGlobals, hgeneral _ _ (by norm_num), Nat.zero_add, globalBytes]

/-! Bypassed blocks. -/

def bypassed (s : PassState) (name : String) : Bool :=
  (s.lmstore_blocks.find? name).any LMStoreBlock.bypass

theorem bypass_DefUse (m : Module) (F : Function) : (DefUse m F).bypass = false :=
  List.foldlRecOn _ _ (motive := fun block : LMStoreBlock => block.bypass = false) rfl
    fun _ h I _ => by
      rw [recordAlloca_of_localType]
      split
      · split_ifs <;> exact h
      · exact h

/-- A function's own block is bypassed when it does not fit or is empty; the others stay. -/
theorem bypassed_processFunction {s t : PassState} {F F' : Function}
    (h : processFunction s F = some (t, F')) (name : String) :
    bypassed t name = if name = F.name then decide (s.lmstorage_size < (DefUse s.M F).block_size ∨
      (DefUse s.M F).block_size = 0) else bypassed s name := by
  have hblock : ({ s with lmstore_blocks :=
      s.lmstore_blocks.set F.name (DefUse s.M F) } : PassState).lmstore_blocks.find? F.name =
        some (DefUse s.M F) := by
    rw [Table.find?_set, if_pos rfl]
  have hset : ∀ block : LMStoreBlock, (((s.lmstore_blocks.set F.name (DefUse s.M F)).set
      F.name block).find? name).any LMStoreBlock.bypass =
        if name = F.name then block.bypass else bypassed s name := by
    intro block
    rw [Table.find?_set, Table.find?_set]
    split_ifs <;> rfl
  unfold processFunction codeGen at h
  rw [hblock] at h
  dsimp only at h
  split_ifs at h with hsize
  · cases h
    rw [bypassed, hset]
    simp [hsize]
  · rw [keepFunction, Option.bind_eq_bind, Option.bind_eq_some_iff] at h
    obtain ⟨⟨m, globVar⟩, -, hrest⟩ := h
    cases hrest
    change (((s.lmstore_blocks.set F.name (DefUse s.M F)).set F.name
      ((DefUse s.M F).settle F)).find? name).any LMStoreBlock.bypass = _
    rw [hset, LMStoreBlock.settle, bypass_DefUse]
    simp [hsize]

/-! The budget. -/

/-- State after the globals, before the call graph is read. -/
def afterGlobVarGen (m : Module) : Option PassState :=
  GlobVarGen
    { M := withSeraj m
      BIG := Table.empty.set "M" default
      globVar := Table.empty
      lmstore_blocks := Table.empty
      GBlock := ⟨"", 0, false, Table.empty⟩
      blockDescriptor := []
      blockSID := 0
      lmstorage_size := 16384 }

def keptBytes (m : Module) (functions : List Function) (s : PassState) : ℕ :=
  ((functions.filter fun F => !bypassed s F.name).map (localBytes m)).sum

/-- What is left and what the blocks in use take are the whole storage, the functions of a list
processed. -/
def Accounted (m : Module) (pre : List Function) (s : PassState) : Prop :=
  s.lmstorage_size + (if s.GBlock.bypass then 0 else globalBytes m) + keptBytes m pre s = 16384

/-- One call of `codeGen` in a pass over the module, the calls before it included. -/
structure IsStep (m : Module) (pre : List Function) (F : Function) (s t : PassState) : Prop where
  functions : pre ++ [F] <+: m.functions
  before : stateBefore m pre = some s
  after : stateBefore m (pre ++ [F]) = some t

/-- The budget is right after the globals and after each function, and who is bypassed is decided
by the size in bytes. -/
structure AccountsStorage (m : Module) : Prop where
  globals : ∀ s, afterGlobVarGen m = some s → Accounted m [] s
  global_bypass : ∀ s, afterGlobVarGen m = some s → 0 < globalBytes m →
    (s.GBlock.bypass = true ↔ 16384 < globalBytes m)
  functions : ∀ pre F s t, IsStep m pre F s t → Accounted m (pre ++ [F]) t
  function_bypass : ∀ pre F s t, IsStep m pre F s t → 0 < localBytes m F →
    (bypassed t F.name = true ↔ s.lmstorage_size < localBytes m F)

/-- No block of 4 GiB or more is taken for a small one: its size in 32 bits exceeds what is left,
or is zero in the case of a function. -/
structure SizesFit (m : Module) : Prop where
  globals : ∀ s, afterGlobVarGen m = some s →
    globalBytes m < 2 ^ 32 ∨ 16384 < globalBytes m % 2 ^ 32
  functions : ∀ pre F s t, IsStep m pre F s t →
    localBytes m F < 2 ^ 32 ∨ localBytes m F % 2 ^ 32 = 0 ∨
      s.lmstorage_size < localBytes m F % 2 ^ 32

section Fields

variable {m : Module} {s t : PassState}

theorem afterGlobVarGen_fields (h : afterGlobVarGen m = some s) :
    s.lmstorage_size = storageLeft m ∧ s.GBlock.bypass = !decide (GlobalKept m) := by
  unfold afterGlobVarGen GlobVarGen at h
  dsimp only at h
  by_cases hkept : GlobalKept m
  · have hle : ¬ 16384 < (collectGlobals (withSeraj m)).block_size := not_lt.mpr hkept
    rw [if_neg hle, Option.bind_eq_bind, Option.bind_eq_some_iff] at h
    obtain ⟨⟨m₁, globVar⟩, -, hs⟩ := h
    cases hs
    have hbypass : (collectGlobals (withSeraj m)).bypass = false :=
      List.foldlRecOn _ _ (motive := fun block : LMStoreBlock => block.bypass = false) rfl
        fun _ h GV _ => by unfold recordGlobal; split_ifs <;> exact h
    exact ⟨by simp [storageLeft, hkept, globalBlock], by simp [hkept, hbypass]⟩
  · have hgt : 16384 < (collectGlobals (withSeraj m)).block_size := not_le.mp hkept
    rw [if_pos hgt] at h
    cases h
    exact ⟨by simp [storageLeft, hkept], by simp [hkept]⟩

theorem globalKept_iff : GlobalKept m ↔ globalBytes m % 2 ^ 32 ≤ 16384 := by
  rw [GlobalKept, globalBlock_size]

theorem exists_afterGlobVarGen (h : prepare m = some s) : ∃ s₀, afterGlobVarGen m = some s₀ := by
  rw [prepare, Option.bind_eq_bind, Option.bind_eq_some_iff] at h
  obtain ⟨s₀, hs₀, -⟩ := h
  exact ⟨s₀, hs₀⟩

theorem accounted_globals (hfit : globalBytes m < 2 ^ 32 ∨ 16384 < globalBytes m % 2 ^ 32)
    (hleft : s.lmstorage_size = storageLeft m) (hbypass : s.GBlock.bypass = !decide (GlobalKept m)) :
    Accounted m [] s := by
  have hnone : keptBytes m [] s = 0 := rfl
  unfold Accounted
  rw [hleft, hbypass, hnone, storageLeft]
  by_cases hkept : GlobalKept m
  · have hle := globalKept_iff.mp hkept
    rw [if_pos hkept, globalBlock_size]
    simp only [hkept, decide_true, Bool.not_true, Bool.false_eq_true, if_false]
    omega
  · simp only [hkept, if_false, decide_false, Bool.not_false, if_true]

theorem keptBytes_concat {pre : List Function} {F F' : Function}
    (hstep : processFunction s F = some (t, F')) (hnew : F.name ∉ pre.map Function.name) :
    keptBytes m (pre ++ [F]) t =
      keptBytes m pre s + if bypassed t F.name then 0 else localBytes m F := by
  have hsame : pre.filter (fun G => !bypassed t G.name) =
      pre.filter fun G => !bypassed s G.name := by
    refine List.filter_congr fun G hG => ?_
    have hne : G.name ≠ F.name := fun heq => hnew (List.mem_map.mpr ⟨G, hG, heq⟩)
    rw [bypassed_processFunction hstep, if_neg hne]
  rw [keptBytes, keptBytes, List.filter_append, hsame, List.map_append, List.sum_append]
  cases hflag : bypassed t F.name <;> simp [hflag]

theorem IsStep.processFunction {pre : List Function} {F : Function} (h : IsStep m pre F s t) :
    ∃ F', processFunction s F = some (t, F') := by
  obtain ⟨s₀, pre', hs₀, hpre⟩ := stateBefore_eq_some.mp h.before
  obtain ⟨s₁, done, hs₁, hdone⟩ := stateBefore_eq_some.mp h.after
  obtain rfl : s₀ = s₁ := Option.some.inj (hs₀.symm.trans hs₁)
  obtain ⟨s₂, pre'', post', hfirst, hrest, -, -⟩ := processFunctions_append hdone
  rw [hpre] at hfirst
  cases hfirst
  obtain ⟨t', F', done', hF, hnil, -⟩ := processFunctions_cons hrest
  cases hnil
  exact ⟨F', hF⟩

theorem IsStep.mem {pre : List Function} {F : Function} (h : IsStep m pre F s t) :
    F ∈ m.functions := h.functions.subset (by simp)

end Fields

section Run

variable {m : SourceModule} {s t : PassState} {pre : List Function} {F : Function}

theorem IsStep.not_mem (h : IsStep m.toModule pre F s t) : F.name ∉ pre.map Function.name := by
  obtain ⟨post, hpost⟩ := h.functions
  rw [List.append_assoc, List.singleton_append] at hpost
  exact (m.function_names hpost.symm).1

/-- What a step does to the budget, in bytes cut to 32 bits. -/
theorem IsStep.cases (h : IsStep m.toModule pre F s t) :
    (t.lmstorage_size = s.lmstorage_size ∧ bypassed t F.name = true ∧
      (s.lmstorage_size < localBytes m.toModule F % 2 ^ 32 ∨
        localBytes m.toModule F % 2 ^ 32 = 0)) ∨
    (t.lmstorage_size + localBytes m.toModule F % 2 ^ 32 = s.lmstorage_size ∧
      bypassed t F.name = false ∧ localBytes m.toModule F % 2 ^ 32 ≤ s.lmstorage_size ∧
      localBytes m.toModule F % 2 ^ 32 ≠ 0) := by
  obtain ⟨F', hF⟩ := h.processFunction
  have hlayout := (reached_stateBefore h.before).getTypeAllocSize
  have hsize : (DefUse s.M F).block_size = localBytes m.toModule F % 2 ^ 32 := by
    rw [DefUse_congr hlayout]
    exact blockSize_eq m.toModule (m.functions_wellFormed F h.mem)
  have hflag := bypassed_processFunction hF F.name
  rw [if_pos rfl, hsize] at hflag
  rcases processFunction_cases hF with hskip | hkept
  · have hexceeds := hskip.exceeds
    rw [hsize] at hexceeds
    exact Or.inl ⟨hskip.lmstorage_size, hflag.trans (decide_eq_true (Or.inl hexceeds)),
      Or.inl hexceeds⟩
  · have hfits := hkept.fits
    have hleft := hkept.lmstorage_size
    rw [hsize] at hfits hleft
    by_cases hzero : localBytes m.toModule F % 2 ^ 32 = 0
    · exact Or.inl ⟨by omega, hflag.trans (decide_eq_true (Or.inr hzero)), Or.inr hzero⟩
    · have hneither : ¬ (s.lmstorage_size < localBytes m.toModule F % 2 ^ 32 ∨
          localBytes m.toModule F % 2 ^ 32 = 0) := by omega
      exact Or.inr ⟨by omega, hflag.trans (decide_eq_false hneither), hfits, hzero⟩

theorem GBlock_of_step (h : IsStep m.toModule pre F s t) : t.GBlock = s.GBlock := by
  rw [(reached_stateBefore h.before).GBlock, (reached_stateBefore h.after).GBlock]

theorem Accounted.step (hacc : Accounted m.toModule pre s) (h : IsStep m.toModule pre F s t)
    (hfit : localBytes m.toModule F < 2 ^ 32 ∨ localBytes m.toModule F % 2 ^ 32 = 0 ∨
      s.lmstorage_size < localBytes m.toModule F % 2 ^ 32) :
    Accounted m.toModule (pre ++ [F]) t := by
  obtain ⟨F', hF⟩ := h.processFunction
  unfold Accounted at hacc ⊢
  rw [keptBytes_concat hF h.not_mem, GBlock_of_step h]
  rcases h.cases with ⟨hleft, hflag, -⟩ | ⟨hleft, hflag, hfits, hne⟩
  · rw [hleft, hflag, if_pos rfl]
    omega
  · have hmod : localBytes m.toModule F % 2 ^ 32 = localBytes m.toModule F := by omega
    simp only [hflag, Bool.false_eq_true, if_false]
    omega

theorem accounted_before (hfit : SizesFit m.toModule) (hpre : pre <+: m.functions)
    (hs : stateBefore m.toModule pre = some s) : Accounted m.toModule pre s := by
  induction pre using List.reverseRecOn generalizing s with
  | nil =>
    obtain ⟨s₀, pre', hs₀, hnil⟩ := stateBefore_eq_some.mp hs
    cases hnil
    obtain ⟨s₁, hs₁⟩ := exists_afterGlobVarGen hs₀
    have hreached := reached_stateBefore hs
    exact accounted_globals (hfit.globals s₁ hs₁) hreached.lmstorage_size (by rw [hreached.GBlock])
  | append_singleton pre F ih =>
    obtain ⟨s₀, done, hs₀, hrun⟩ := stateBefore_eq_some.mp hs
    obtain ⟨s₁, pre', post', hfirst, -, -, -⟩ := processFunctions_append hrun
    have hbefore := stateBefore_eq_some.mpr ⟨s₀, pre', hs₀, hfirst⟩
    have hstep : IsStep m.toModule pre F s₁ s := ⟨hpre, hbefore, hs⟩
    exact (ih ((List.prefix_append pre [F]).trans hpre) hbefore).step hstep
      (hfit.functions pre F s₁ s hstep)

end Run

/-- The budget is kept in bytes exactly when no size that 32 bits cut is small enough to be
kept. -/
theorem accountsStorage_iff (m : SourceModule) :
    AccountsStorage m.toModule ↔ SizesFit m.toModule := by
  constructor
  · intro h
    constructor
    case globals =>
      intro s hs
      obtain ⟨-, hbypass⟩ := afterGlobVarGen_fields hs
      have hacc := h.globals s hs
      rw [Accounted, hbypass] at hacc
      by_cases hkept : GlobalKept m.toModule
      · simp only [hkept, decide_true, Bool.not_true, Bool.false_eq_true, if_false] at hacc
        omega
      · rw [globalKept_iff] at hkept
        omega
    case functions =>
      intro pre F s t hstep
      have hacc := h.functions pre F s t hstep
      obtain ⟨F', hF⟩ := hstep.processFunction
      rcases hstep.cases with ⟨-, -, hlarge | hzero⟩ | ⟨-, hflag, -, -⟩
      · exact Or.inr (Or.inr hlarge)
      · exact Or.inr (Or.inl hzero)
      · rw [Accounted, keptBytes_concat hF hstep.not_mem, hflag] at hacc
        simp only [Bool.false_eq_true, if_false] at hacc
        omega
  · intro hfit
    constructor
    case globals =>
      intro s hs
      obtain ⟨hleft, hbypass⟩ := afterGlobVarGen_fields hs
      exact accounted_globals (hfit.globals s hs) hleft hbypass
    case global_bypass =>
      intro s hs _
      obtain ⟨-, hbypass⟩ := afterGlobVarGen_fields hs
      have hsize := hfit.globals s hs
      rw [hbypass, Bool.not_eq_true', decide_eq_false_iff_not, globalKept_iff]
      omega
    case functions =>
      intro pre F s t hstep
      have hpre := (List.prefix_append pre [F]).trans hstep.functions
      exact (accounted_before hfit hpre hstep.before).step hstep (hfit.functions pre F s t hstep)
    case function_bypass =>
      intro pre F s t hstep hpos
      have hsize := hfit.functions pre F s t hstep
      have hleft : s.lmstorage_size ≤ 16384 := by
        have hacc := accounted_before hfit
          ((List.prefix_append pre [F]).trans hstep.functions) hstep.before
        unfold Accounted at hacc
        omega
      rcases hstep.cases with ⟨-, hflag, hlarge⟩ | ⟨-, hflag, hfits, hne⟩
      · rw [hflag]
        simp only [true_iff]
        omega
      · rw [hflag]
        simp only [Bool.false_eq_true, false_iff]
        omega

/-- `main` with an array that takes four bytes more than 4 GiB. -/
def hugeArray : SourceModule where
  globals := []
  functions := [⟨"main", [], [[⟨.source 0, "a", .alloca (.array (2 ^ 30 + 1) (.integer 32)), []⟩,
    ⟨.source 1, "", .ret, []⟩]]⟩]
  aliases := []
  getTypeAllocSize := packedSize
  LastUnique := 0
  symbols_nodup := by decide
  globals_source := globals_source_nil
  functions_wellFormed := by decide

theorem hugeArray_runs : (stateBefore hugeArray.toModule hugeArray.functions).isSome := by
  decide +kernel

theorem hugeArray_starts : (stateBefore hugeArray.toModule []).isSome := by decide +kernel

/-- Four of its bytes are charged, so what is left is not what the rest of the storage is. -/
theorem accountsStorage_fails : ¬ ∀ m : SourceModule, AccountsStorage m.toModule := by
  intro h
  have hacc := (h hugeArray).functions [] (hugeArray.functions.head (by decide))
    ((stateBefore hugeArray.toModule []).get hugeArray_starts)
    ((stateBefore hugeArray.toModule hugeArray.functions).get hugeArray_runs)
    ⟨by decide, (Option.some_get _).symm, (Option.some_get _).symm⟩
  revert hacc
  unfold Accounted
  decide +kernel

end MMLMStore.StorageBudget
