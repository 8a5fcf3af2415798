import MMLMStore.PassSteps

/-!
# Functions that receive a block

The pass keeps a function when its block fits in the storage that the global block and the
functions kept before it have left. The descriptors are those of the kept functions, with section
ids counted from one.
-/
namespace MMLMStore.KeptFunctions
open KeyedTable LMRefMapping LMStorePass LMStoreTables ModuleIR PassSteps

def blockSize (m : Module) (F : Function) : ℕ := (DefUse m F).block_size

/-- Functions of a list that fit, one after the other, in what is left of the storage. -/
def keep (m : Module) : ℕ → List Function → List Function
  | _, [] => []
  | left, F :: rest =>
    if blockSize m F ≤ left then F :: keep m (left - blockSize m F) rest else keep m left rest

/-- The global block as recorded, with the global that the pass adds first. -/
def globalBlock (m : Module) : LMStoreBlock := collectGlobals (withSeraj m)

def GlobalKept (m : Module) : Prop := (globalBlock m).block_size ≤ 16384

instance (m : Module) : Decidable (GlobalKept m) := inferInstanceAs (Decidable (_ ≤ _))

def storageLeft (m : Module) : ℕ :=
  if GlobalKept m then 16384 - (globalBlock m).block_size else 16384

def keptFunctions (m : Module) : List Function := keep m (storageLeft m) m.functions

theorem DefUse_congr {m m' : Module} (h : m'.getTypeAllocSize = m.getTypeAllocSize)
    (F : Function) : DefUse m' F = DefUse m F := by
  have hrecord : recordAlloca m' = recordAlloca m := by
    funext block I
    simp only [recordAlloca, LMStoreBlock.record, variableOf, h]
  rw [DefUse, DefUse, hrecord]

theorem keep_congr {m m' : Module} (h : m'.getTypeAllocSize = m.getTypeAllocSize) (left : ℕ)
    (functions : List Function) : keep m' left functions = keep m left functions := by
  induction functions generalizing left with
  | nil => rfl
  | cons F rest ih =>
    have hsize : blockSize m' F = blockSize m F := congrArg _ (DefUse_congr h F)
    rw [keep, keep, hsize, ih, ih]

/-! Sizes. -/

def sumSize (block : LMStoreBlock) : ℕ := (block.variables_.entries.map fun x => x.2.size).sum

theorem summedSize_eq (block : LMStoreBlock) : summedSize block = sumSize block % 2 ^ 32 := by
  have hgeneral : ∀ (entries : List (String × Variable)) (start : ℕ), start < 2 ^ 32 →
      entries.foldl (fun size x => addU32 size x.2.size) start =
        (start + (entries.map fun x => x.2.size).sum) % 2 ^ 32 := by
    intro entries
    induction entries with
    | nil =>
      intro start hstart
      simpa using (Nat.mod_eq_of_lt hstart).symm
    | cons x entries ih =>
      intro start _
      have hlt : addU32 start x.2.size < 2 ^ 32 := Nat.mod_lt _ (by norm_num)
      rw [List.foldl_cons, ih _ hlt, List.map_cons, List.sum_cons, addU32, Nat.mod_add_mod,
        Nat.add_assoc]
  rw [summedSize, hgeneral _ 0 (by norm_num), Nat.zero_add, sumSize]

/-- The size a block is recorded with is the sum over its variables, in 32 bits. -/
def Consistent (block : LMStoreBlock) : Prop := block.block_size = sumSize block % 2 ^ 32

theorem consistent_record {block : LMStoreBlock} (h : Consistent block) (m : Module)
    {varName : String} (hnew : block.variables_.find? varName = none) (ty : Ty) :
    Consistent (block.record m varName ty) := by
  have hperm : (block.variables_.insert varName (variableOf m ty)).entries.Perm
      ((varName, variableOf m ty) :: block.variables_.entries) := Table.perm_insert hnew
  have hsum : sumSize (block.record m varName ty) =
      m.getTypeAllocSize ty % 2 ^ 32 + sumSize block :=
    (hperm.map fun x : String × Variable => x.2.size).sum_eq
  unfold Consistent at h ⊢
  rw [hsum]
  simp only [LMStoreBlock.record, addU32, h]
  omega

theorem consistent_recordAlloca {block : LMStoreBlock} (h : Consistent block) (m : Module)
    (I : Instruction) : Consistent (recordAlloca m block I) := by
  unfold recordAlloca
  split
  · split_ifs with hrecord
    · exact consistent_record h m hrecord.2.1 _
    · exact h
  · exact h

theorem consistent_DefUse (m : Module) (F : Function) : Consistent (DefUse m F) :=
  List.foldlRecOn _ _ (motive := Consistent) rfl fun _ h I _ => consistent_recordAlloca h m I

/-- The descriptor's size is the one the budget was charged with. -/
theorem summedSize_DefUse (m : Module) (F : Function) :
    summedSize (DefUse m F) = blockSize m F := by
  rw [summedSize_eq, blockSize, consistent_DefUse m F]

/-! Runs of the pass. -/

/-- Globals the pass makes for the functions. -/
def IsCreated (G : GlobalVariable) : Prop :=
  (∃ f, IsRelocated (.function f) G) ∨ ∃ owners, IsMarker owners G

theorem extends_processFunction {s t : PassState} {F F' : Function}
    (h : processFunction s F = some (t, F')) : Extends IsCreated s.M t.M := by
  rcases processFunction_cases h with hskip | hkept
  · rw [hskip.M]
    exact Extends.refl _
  · obtain ⟨m, hgen, hM, -⟩ := hkept.code
    rw [hM]
    exact ((extends_GlbVarGen hgen).mono fun G hG => Or.inl ⟨_, hG⟩).trans
      ((extends_genBlocks _ _ ⟨m, false, 0⟩).mono fun G hG => Or.inr ⟨_, hG⟩)

theorem processFunctions_cons {s t : PassState} {F : Function} {rest done : List Function}
    (h : processFunctions (F :: rest) s = some (t, done)) :
    ∃ s₁ F' done', processFunction s F = some (s₁, F') ∧
      processFunctions rest s₁ = some (t, done') ∧ done = F' :: done' := by
  simp only [processFunctions, Option.bind_eq_bind, Option.bind_eq_some_iff, Option.some.injEq,
    Prod.mk.injEq, Prod.exists] at h
  obtain ⟨s₁, F', hfirst, t', done', hrest, rfl, rfl⟩ := h
  exact ⟨s₁, F', done', hfirst, hrest, rfl⟩

theorem extends_processFunctions {functions done : List Function} {s t : PassState}
    (h : processFunctions functions s = some (t, done)) : Extends IsCreated s.M t.M := by
  induction functions generalizing s done with
  | nil =>
    cases h
    exact Extends.refl _
  | cons F rest ih =>
    obtain ⟨s₁, F', done', hfirst, hrest, -⟩ := processFunctions_cons h
    exact (extends_processFunction hfirst).trans (ih hrest)

/-- Descriptor of a kept function at a position of the list of kept functions. -/
def descriptorAt (m : Module) (BIG : BlockGraph) (position : ℕ) (F : Function) : BlockDescriptor :=
  descriptorOf (lmrefOf BIG F.name) (position + 1) ((DefUse m F).settle F)

theorem processFunctions_descriptors {functions done : List Function} {s t : PassState}
    (h : processFunctions functions s = some (t, done)) :
    t.BIG = s.BIG ∧ t.GBlock = s.GBlock ∧
      t.blockDescriptor = s.blockDescriptor ++ (keep s.M s.lmstorage_size functions).mapIdx
        fun i F => descriptorAt s.M s.BIG (s.blockSID + i) F := by
  induction functions generalizing s done with
  | nil =>
    cases h
    simp [keep]
  | cons F rest ih =>
    obtain ⟨s₁, F', done', hfirst, hrest, -⟩ := processFunctions_cons h
    obtain ⟨hBIG, hGBlock, hdesc⟩ := ih hrest
    have hlayout := (extends_processFunction hfirst).getTypeAllocSize
    have hdescriptor : descriptorAt s₁.M = descriptorAt s.M := by
      funext BIG i G
      rw [descriptorAt, descriptorAt, DefUse_congr hlayout]
    rw [keep_congr hlayout, hdescriptor] at hdesc
    rcases processFunction_cases hfirst with hskip | hkept
    · rw [hskip.blockDescriptor, hskip.lmstorage_size, hskip.BIG, hskip.blockSID] at hdesc
      refine ⟨hBIG.trans hskip.BIG, hGBlock.trans hskip.GBlock, ?_⟩
      have hexceeds : ¬ blockSize s.M F ≤ s.lmstorage_size := not_le.mpr hskip.exceeds
      rw [hdesc, keep, if_neg hexceeds]
    · rw [hkept.blockDescriptor, hkept.lmstorage_size, hkept.BIG, hkept.blockSID] at hdesc
      refine ⟨hBIG.trans hkept.BIG, hGBlock.trans hkept.GBlock, ?_⟩
      have hfits : blockSize s.M F ≤ s.lmstorage_size := hkept.fits
      rw [hdesc, keep, if_pos hfits, List.mapIdx_cons, List.append_assoc]
      simp only [blockSize, List.singleton_append, Nat.add_zero]
      congr 2
      simp only [Nat.add_assoc, Nat.add_comm 1]

/-- State before the functions: the global block is measured and relocated if it fits, and the
call graph is coloured. -/
structure Prepared (m : Module) (s : PassState) : Prop where
  GBlock : s.GBlock = { globalBlock m with bypass := !decide (GlobalKept m) }
  lmstorage_size : s.lmstorage_size = storageLeft m
  blockDescriptor : s.blockDescriptor = []
  blockSID : s.blockSID = 0
  BIG : ∃ BIG, buildGraph m.functions (Table.empty.set "M" default) = some BIG ∧
    s.BIG = LMRefMappingEntry BIG
  relocation : if GlobalKept m then
      GlbVarGen .M (globalBlock m).variables_.entries (withSeraj m) Table.empty =
        some (s.M, s.globVar)
    else s.M = withSeraj m ∧ s.globVar = Table.empty

theorem prepared {m : Module} {s : PassState} (h : prepare m = some s) : Prepared m s := by
  simp only [prepare, Option.bind_eq_bind, Option.bind_eq_some_iff, Option.some.injEq] at h
  obtain ⟨s₀, hglobals, BIG, hbuild, rfl⟩ := h
  unfold GlobVarGen at hglobals
  dsimp only at hglobals
  by_cases hkept : GlobalKept m
  · have hle : ¬ 16384 < (collectGlobals (withSeraj m)).block_size := not_lt.mpr hkept
    rw [if_neg hle, Option.bind_eq_bind, Option.bind_eq_some_iff] at hglobals
    obtain ⟨⟨m₁, globVar⟩, hgen, hs⟩ := hglobals
    cases hs
    have hbypass : (collectGlobals (withSeraj m)).bypass = false :=
      List.foldlRecOn _ _ (motive := fun block : LMStoreBlock => block.bypass = false) rfl
        fun _ h GV _ => by unfold recordGlobal; split_ifs <;> exact h
    exact ⟨by simp [hkept, globalBlock, ← hbypass], by simp [storageLeft, hkept, globalBlock], rfl,
      rfl, ⟨BIG, hbuild, rfl⟩, by rw [if_pos hkept]; exact hgen⟩
  · have hgt : 16384 < (collectGlobals (withSeraj m)).block_size := not_le.mp hkept
    rw [if_pos hgt] at hglobals
    cases hglobals
    exact ⟨by simp [hkept, globalBlock], by simp [storageLeft, hkept], rfl, rfl,
      ⟨BIG, hbuild, rfl⟩, by rw [if_neg hkept]; exact ⟨rfl, rfl⟩⟩

theorem Prepared.getTypeAllocSize {m : Module} {s : PassState} (h : Prepared m s) :
    s.M.getTypeAllocSize = m.getTypeAllocSize := by
  have hrel := h.relocation
  split_ifs at hrel with hkept
  · exact (extends_GlbVarGen hrel).getTypeAllocSize
  · rw [hrel.1]
    rfl

theorem runOnModule_cases {m : Module} {out : Output} (h : runOnModule m = some out) :
    ∃ s functions, Prepared m s ∧ processFunctions m.functions s = some (out.state, functions) ∧
      out.M = { out.state.M with functions := functions } ∧ out.linkld = Fini out.state := by
  simp only [runOnModule, Option.bind_eq_bind, Option.bind_eq_some_iff, Prod.exists,
    Option.some.injEq] at h
  obtain ⟨s, hs, t, functions, hrun, rfl⟩ := h
  exact ⟨s, functions, prepared hs, hrun, rfl, rfl⟩

def written (out : Output) : List BlockDescriptor :=
  out.state.blockDescriptor.filter fun d => d.block_size > 0 ∧ d.bypass = false

def lmrefIndex (out : Output) (name : String) : ℕ := lmrefOf out.state.BIG name

section Run

variable {m : Module} {out : Output} (h : runOnModule m = some out)

include h

theorem exists_graph : ∃ BIG, buildGraph m.functions (Table.empty.set "M" default) = some BIG ∧
    out.state.BIG = LMRefMappingEntry BIG := by
  obtain ⟨s, functions, hs, hrun, -, -⟩ := runOnModule_cases h
  obtain ⟨BIG, hbuild, hBIG⟩ := hs.BIG
  exact ⟨BIG, hbuild, (processFunctions_descriptors hrun).1.trans hBIG⟩

theorem GBlock_eq : out.state.GBlock = { globalBlock m with bypass := !decide (GlobalKept m) } := by
  obtain ⟨s, functions, hs, hrun, -, -⟩ := runOnModule_cases h
  exact (processFunctions_descriptors hrun).2.1.trans hs.GBlock

theorem blockDescriptor_eq : out.state.blockDescriptor =
    (keptFunctions m).mapIdx (descriptorAt m out.state.BIG) := by
  obtain ⟨s, functions, hs, hrun, -, -⟩ := runOnModule_cases h
  obtain ⟨hBIG, -, hdesc⟩ := processFunctions_descriptors hrun
  have hlayout := hs.getTypeAllocSize
  have hdescriptor : descriptorAt s.M = descriptorAt m := by
    funext BIG i F
    rw [descriptorAt, descriptorAt, DefUse_congr hlayout]
  rw [hdesc, hs.blockDescriptor, hs.lmstorage_size, keep_congr hlayout, hs.blockSID, hdescriptor,
    hBIG, List.nil_append, keptFunctions]
  simp only [Nat.zero_add]

/-- The blocks written are those of the kept functions that have variables. -/
theorem mem_written_iff {d : BlockDescriptor} : d ∈ written out ↔ ∃ i F,
    (keptFunctions m)[i]? = some F ∧ 0 < blockSize m F ∧
      d = descriptorAt m out.state.BIG i F := by
  have hsize : ∀ i F, (descriptorAt m out.state.BIG i F).block_size = blockSize m F :=
    fun _ F => summedSize_DefUse m F
  rw [written, List.mem_filter, blockDescriptor_eq h, List.mem_iff_getElem?]
  simp only [List.getElem?_mapIdx, Option.map_eq_some_iff, decide_eq_true_eq]
  constructor
  · rintro ⟨⟨i, F, hF, rfl⟩, hpos, -⟩
    exact ⟨i, F, hF, by rwa [hsize] at hpos, rfl⟩
  · rintro ⟨i, F, hF, hpos, rfl⟩
    exact ⟨⟨i, F, hF, rfl⟩, by rwa [hsize], rfl⟩

end Run

end MMLMStore.KeptFunctions
