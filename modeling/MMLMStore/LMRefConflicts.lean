import MMLMStore.LinkScript

/-!
# LMRef entries along call chains

Functions that are active at the same time form a chain of calls from `main`. Their blocks get
different LMRef indices, and with them different access sections and allocation targets, exactly
when no two of them have one colour in the call graph.
-/
namespace MMLMStore.LMRefConflicts
open DescriptorFormat FirstFit KeptFunctions LMRefMapping LMStoreDecode LinkScript LMStorePass
  ModuleIR

/-- A chain of calls from `main` through distinct functions. -/
structure IsCallChain (functions : List Function) (chain : List String) : Prop where
  head : chain.head? = some "main"
  calls : chain.IsChain (Calls functions)
  distinct : chain.Nodup

/-- LMRef entry that the allocation load of a block targets, if its address fits in 32 bits. -/
def allocTarget (d : BlockDescriptor) : Option ℕ :=
  if linkValue d.no_read_alloca_starting_addr < 2 ^ 32 then
    some (decodeLinked d.no_read_alloca_starting_addr).LMRefIndex
  else none

/-- What two blocks that are held at the same time must not share. -/
structure Apart (out : Output) (d e : BlockDescriptor) : Prop where
  index : lmrefIndex out d.funcName ≠ lmrefIndex out e.funcName
  access : d.access_starting_addr ≠ e.access_starting_addr
  alloc : ∀ a ∈ allocTarget d, ∀ b ∈ allocTarget e, a ≠ b

def SeparatesChains (m : Module) (out : Output) : Prop :=
  ∀ chain, IsCallChain m.functions chain → ∀ d ∈ written out, ∀ e ∈ written out,
    d.funcName ∈ chain → e.funcName ∈ chain → d.funcName ≠ e.funcName → Apart out d e

def ColoursChains (m : Module) : Prop :=
  ∀ chain, IsCallChain m.functions chain → ∀ F ∈ keptFunctions m, ∀ G ∈ keptFunctions m,
    0 < blockSize m F → 0 < blockSize m G → F.name ∈ chain → G.name ∈ chain → F.name ≠ G.name →
    ¬ SameColour num_lmref_entries (graphBlocks m.functions) (neighbours m.functions) F.name G.name

theorem IsCallChain.mem_graphBlocks {functions : List Function} {chain : List String}
    (h : IsCallChain functions chain) {u v : String} (hu : u ∈ chain) (hv : v ∈ chain)
    (hne : u ≠ v) : u ∈ graphBlocks functions := by
  rw [LMRefMapping.mem_graphBlocks]
  right
  obtain ⟨i, hi, rfl⟩ := List.getElem_of_mem hu
  obtain ⟨j, hj, rfl⟩ := List.getElem_of_mem hv
  have hcall := List.isChain_iff_getElem.mp h.calls
  have hij : i ≠ j := by
    rintro rfl
    exact hne rfl
  rcases Nat.lt_or_gt_of_ne hij with hlt | hlt
  · exact ⟨_, Or.inl (hcall i (by omega))⟩
  · obtain ⟨k, rfl⟩ : ∃ k, i = k + 1 := ⟨i - 1, by omega⟩
    exact ⟨_, Or.inr (hcall k hi)⟩

section Run

variable {m : Module} {out : Output} (h : runOnModule m = some out)

include h

theorem lmrefIndex_lt (name : String) : lmrefIndex out name < 64 := by
  obtain ⟨BIG, hbuild, hBIG⟩ := exists_graph h
  rw [lmrefIndex, hBIG]
  exact lmrefOf_lt hbuild name

theorem allocTarget_eq {d : BlockDescriptor} (hd : d ∈ written out) {a : ℕ}
    (ha : a ∈ allocTarget d) : a = lmrefIndex out d.funcName := by
  obtain ⟨i, F, -, -, rfl⟩ := (mem_written_iff h).mp hd
  have hlt : lmrefIndex out F.name < 256 := (lmrefIndex_lt h F.name).trans (by norm_num)
  unfold allocTarget at ha
  split_ifs at ha with hfits
  · obtain ⟨hsid, hsize⟩ := (linkValue_lt_iff (by decide) hlt _ _).mp hfits
    cases ha
    exact congrArg Decoded.LMRefIndex (decodeLinked_no_read_alloca hlt hsid hsize)
  · cases ha

theorem apart_iff {d e : BlockDescriptor} (hd : d ∈ written out) (he : e ∈ written out) :
    Apart out d e ↔ lmrefIndex out d.funcName ≠ lmrefIndex out e.funcName := by
  refine ⟨Apart.index, fun hne => ⟨hne, fun haccess => ?_, fun a ha b hb hab => ?_⟩⟩
  · obtain ⟨i, F, -, -, rfl⟩ := (mem_written_iff h).mp hd
    obtain ⟨j, G, -, -, rfl⟩ := (mem_written_iff h).mp he
    exact hne (access_starting_addr_inj ((lmrefIndex_lt h _).trans (by norm_num))
      ((lmrefIndex_lt h _).trans (by norm_num)) haccess)
  · rw [allocTarget_eq h hd ha, allocTarget_eq h he hb] at hab
    exact hne hab

theorem lmrefIndex_eq_iff {u v : String} (hu : u ∈ graphBlocks m.functions)
    (hv : v ∈ graphBlocks m.functions) : lmrefIndex out u = lmrefIndex out v ↔
      SameColour num_lmref_entries (graphBlocks m.functions) (neighbours m.functions) u v := by
  obtain ⟨BIG, hbuild, hBIG⟩ := exists_graph h
  rw [lmrefIndex, lmrefIndex, hBIG]
  exact (isFirstFit_lmrefOf hbuild).eq_iff_sameColour hu hv

end Run

/-- The index compares callers with callees only: blocks on call chains are apart exactly when
no two of a chain happen to have one colour. -/
theorem separatesChains_iff {m : Module} {out : Output} (h : runOnModule m = some out) :
    SeparatesChains m out ↔ ColoursChains m := by
  constructor
  · intro hapart chain hchain F hF G hG hFsize hGsize hFmem hGmem hne
    obtain ⟨i, hi⟩ := List.getElem?_of_mem hF
    obtain ⟨j, hj⟩ := List.getElem?_of_mem hG
    have hd := (mem_written_iff h).mpr ⟨i, F, hi, hFsize, rfl⟩
    have he := (mem_written_iff h).mpr ⟨j, G, hj, hGsize, rfl⟩
    rw [← lmrefIndex_eq_iff h (hchain.mem_graphBlocks hFmem hGmem hne)
      (hchain.mem_graphBlocks hGmem hFmem hne.symm)]
    exact (hapart chain hchain _ hd _ he hFmem hGmem hne).index
  · intro hcolour chain hchain d hd e he hdmem hemem hne
    rw [apart_iff h hd he]
    obtain ⟨i, F, hi, hFsize, rfl⟩ := (mem_written_iff h).mp hd
    obtain ⟨j, G, hj, hGsize, rfl⟩ := (mem_written_iff h).mp he
    change F.name ∈ chain at hdmem
    change G.name ∈ chain at hemem
    change F.name ≠ G.name at hne
    change lmrefIndex out F.name ≠ lmrefIndex out G.name
    rw [ne_eq, lmrefIndex_eq_iff h (hchain.mem_graphBlocks hdmem hemem hne)
      (hchain.mem_graphBlocks hemem hdmem hne.symm)]
    exact hcolour chain hchain F (List.mem_of_getElem? hi) G (List.mem_of_getElem? hj) hFsize
      hGsize hdmem hemem hne

theorem callsOne_colours : ColoursChains callsOne.toModule := by
  rw [ColoursChains, keptFunctions_callsOne]
  intro chain _ F hF G hG _ _ _ _ hne
  have hsat := (callsOne_indices F (keptFunctions_callsOne ▸ hF) (by assumption)).2
  have hadj : ∀ F ∈ callsOne.functions, ∀ G ∈ callsOne.functions, F.name ≠ G.name →
      F.name ∈ graphBlocks callsOne.functions ∧ G.name ∈ graphBlocks callsOne.functions ∧
        G.name ∈ neighbours callsOne.functions F.name ∧
        F.name ∈ neighbours callsOne.functions G.name := by decide +kernel
  obtain ⟨hu, hv, huv, hvu⟩ := hadj F hF G hG hne
  exact not_sameColour_of_adj hu hv hne huv hvu hsat

theorem separatesChains_callsOne : SeparatesChains callsOne.toModule callsOneOutput :=
  (separatesChains_iff callsOne_run).mpr callsOne_colours

def caller (name : String) (callees : List String) : Function where
  name := name
  args := []
  blocks := [⟨.source 0, "x", .alloca (.integer 32), []⟩ ::
    callees.mapIdx (fun i f => ⟨.source (i + 1), "", .call (some f), []⟩) ++
    [⟨.source (callees.length + 1), "", .ret, []⟩]]

/-- `main` calls `f1`, which calls `f2`. -/
def threeLevels : SourceModule where
  globals := []
  functions := [caller "main" ["f1"], caller "f1" ["f2"], caller "f2" []]
  aliases := []
  getTypeAllocSize := packedSize
  LastUnique := 0
  symbols_nodup := by decide
  globals_source := globals_source_nil
  functions_wellFormed := by decide

def threeLevelsOutput : Output := (runOnModule threeLevels.toModule).get (by decide +kernel)

theorem threeLevels_run : runOnModule threeLevels.toModule = some threeLevelsOutput :=
  (Option.some_get _).symm

/-- `main` and `f2` both get index 2: their blocks lie at one access address. -/
theorem separatesChains_fails :
    ¬ ∀ (m : SourceModule) (out : Output), runOnModule m.toModule = some out →
      SeparatesChains m.toModule out := by
  intro h
  have hrun : runOnModule threeLevels.toModule = some threeLevelsOutput :=
    threeLevels_run
  have hchain : IsCallChain threeLevels.functions ["main", "f1", "f2"] :=
    ⟨by decide, by decide, by decide⟩
  have hmain := (mem_written_iff hrun).mpr ⟨0, caller "main" ["f1"], by decide +kernel,
    by decide +kernel, rfl⟩
  have hf2 := (mem_written_iff hrun).mpr ⟨2, caller "f2" [], by decide +kernel,
    by decide +kernel, rfl⟩
  have hindex := (h threeLevels threeLevelsOutput hrun _ hchain _ hmain _ hf2 (by decide)
    (by decide) (by decide)).index
  revert hindex
  decide +kernel

end MMLMStore.LMRefConflicts
