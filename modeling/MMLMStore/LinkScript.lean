import MMLMStore.KeptFunctions

/-!
# Addresses in the linker script

The lines that `Fini` writes, for the blocks of functions and for the global block. All addresses
are eight digits long and all allocation addresses differ exactly when sizes and section ids are
two digits and the hundredth block does not meet the literal section id of the global block.
-/
namespace MMLMStore.LinkScript
open DescriptorFormat FirstFit HexText KeptFunctions LMRefMapping LMStoreDecode LMStorePass ModuleIR

/-- `0x7`, an operation digit and six more digits. -/
def IsBlockAddress (t : Text) : Prop :=
  ∃ op six, t = ['0', 'x', '7', op] ++ six ∧ op ∈ ['1', '2', '3', '4', '5'] ∧ six.length = 6 ∧
    IsHex six

theorem IsBlockAddress.length_eq {t : Text} (h : IsBlockAddress t) : t.length = 10 := by
  obtain ⟨op, six, rfl, -, hsix, -⟩ := h
  simp [hsix]

theorem isBlockAddress_fourFields (op : Char) (hop : op ∈ ['1', '2', '3', '4', '5']) {d : ℕ}
    (hd : ['7', op] = fixedHex 2 d) (a b c : ℕ) :
    IsBlockAddress (['0', 'x'] ++ fourFields d a b c) := by
  refine ⟨op, fixedHex 2 a ++ fixedHex 2 b ++ fixedHex 2 c, ?_, hop, by simp, ?_⟩
  · simp [fourFields, ← hd]
  · exact isHex_append (isHex_append (isHex_fixedHex _ _) (isHex_fixedHex _ _))
      (isHex_fixedHex _ _)

theorem isBlockAddress_sized_iff (op : Char) (hop : op ∈ ['1', '2', '3', '4', '5']) {d : ℕ}
    (hd : ['7', op] = fixedHex 2 d) {lmref : ℕ} (hl : lmref < 256) (sid size : ℕ) :
    IsBlockAddress (sized_starting_addr op lmref sid size) ↔ sid < 256 ∧ size < 256 := by
  constructor
  · intro h
    exact (length_sized_starting_addr_eq_ten_iff op hl sid size).mp h.length_eq
  · rintro ⟨hsid, hsize⟩
    rw [sized_starting_addr_eq hd hl hsid hsize]
    exact isBlockAddress_fourFields op hop hd lmref sid size

theorem isBlockAddress_write_dealloca {lmref sid : ℕ} (hl : lmref < 256) (hs : sid < 256) :
    IsBlockAddress (write_dealloca_starting_addr lmref sid) := by
  rw [write_dealloca_starting_addr_eq hl hs]
  exact isBlockAddress_fourFields '5' (by decide) (by decide) lmref sid 0

theorem access_starting_addr_eq {lmref : ℕ} (hl : lmref < 256) :
    access_starting_addr lmref = ['0', 'x'] ++ fourFields 0x72 lmref 0 0 := by
  have hzero : altHex 4 0 = fixedHex 2 0 ++ fixedHex 2 0 := by decide
  have hcode : fixedHex 2 0x72 = ['7', '2'] := by decide
  have hlen : (['0', 'x', '7', '2'] ++ fixedHex 2 lmref ++
      (fixedHex 2 0 ++ fixedHex 2 0)).length ≤ 12 - 1 := by simp
  rw [access_starting_addr, snprintf, twoHex_eq_fixedHex hl, hzero, List.take_of_length_le hlen,
    fourFields, hcode]
  simp

theorem linkValue_access {lmref : ℕ} (hl : lmref < 256) :
    linkValue (access_starting_addr lmref) = accessAddress lmref 0 := by
  rw [access_starting_addr_eq hl, linkValue]
  exact readHex_fourFields (by norm_num) hl (by norm_num) (by norm_num)

theorem access_starting_addr_inj {lmref lmref' : ℕ} (hl : lmref < 256) (hl' : lmref' < 256)
    (h : access_starting_addr lmref = access_starting_addr lmref') : lmref = lmref' := by
  rw [access_starting_addr_eq hl, access_starting_addr_eq hl', List.append_right_inj, fourFields,
    fourFields, List.append_left_inj, List.append_left_inj, List.append_right_inj] at h
  have hread : ∀ n, n < 256 → readHex (fixedHex 2 n) = n := fun n hn => readHex_fixedHex hn
  rw [← hread lmref hl, h, hread lmref' hl']

theorem isBlockAddress_access {lmref : ℕ} (hl : lmref < 256) :
    IsBlockAddress (access_starting_addr lmref) := by
  rw [access_starting_addr_eq hl]
  exact isBlockAddress_fourFields '2' (by decide) (by decide) lmref 0 0

/-- The five lines of a block are well formed when its section id and size are two digits. -/
theorem descriptorLines_isBlockAddress_iff {lmref : ℕ} (hl : lmref < 256) (sid : ℕ)
    (block : LMStoreBlock) :
    (∀ line ∈ descriptorLines (descriptorOf lmref sid block), IsBlockAddress line.address) ↔
      sid < 256 ∧ summedSize block < 256 := by
  have hno_read := isBlockAddress_sized_iff '1' (d := 0x71) (by decide) (by decide) hl sid
    (summedSize block)
  have hread := isBlockAddress_sized_iff '4' (d := 0x74) (by decide) (by decide) hl sid
    (summedSize block)
  have hno_write := isBlockAddress_sized_iff '3' (d := 0x73) (by decide) (by decide) hl sid
    (summedSize block)
  simp only [descriptorLines, List.forall_mem_cons, List.not_mem_nil, false_imp_iff,
    implies_true, and_true]
  constructor
  · rintro ⟨-, h, -⟩
    exact hno_read.mp h
  · intro h
    exact ⟨isBlockAddress_access hl, hno_read.mpr h, hread.mpr h, hno_write.mpr h,
      isBlockAddress_write_dealloca hl h.1⟩

def globalSID : ℕ := 0x64

def globalAllocAddress (out : Output) : Text :=
  no_read_alloca_starting_addr 0 globalSID out.state.GBlock.block_size

theorem globalLines_isBlockAddress_iff (size : ℕ) :
    (∀ line ∈ globalLines size, IsBlockAddress line.address) ↔ size < 256 := by
  have hzero : 0 < 256 := by norm_num
  have hno_read := isBlockAddress_sized_iff '1' (d := 0x71) (by decide) (by decide) hzero
    globalSID size
  have hno_write := isBlockAddress_sized_iff '3' (d := 0x73) (by decide) (by decide) hzero
    globalSID size
  simp only [globalLines, List.forall_mem_cons, List.not_mem_nil, false_imp_iff,
    implies_true, and_true]
  constructor
  · rintro ⟨-, h, -⟩
    exact (hno_read.mp h).2
  · intro h
    exact ⟨isBlockAddress_access hzero, hno_read.mpr ⟨by decide, h⟩,
      hno_write.mpr ⟨by decide, h⟩⟩

/-- Two-digit fields can be read back from an allocation address. -/
theorem no_read_alloca_inj {lmref sid size lmref' sid' size' : ℕ} (hl : lmref < 256)
    (hs : sid < 256) (hz : size < 256) (hl' : lmref' < 256) (hs' : sid' < 256) (hz' : size' < 256)
    (h : no_read_alloca_starting_addr lmref sid size =
      no_read_alloca_starting_addr lmref' sid' size') :
    lmref = lmref' ∧ sid = sid' ∧ size = size' := by
  have hdecoded := congrArg decodeLinked h
  rw [decodeLinked_no_read_alloca hl hs hz, decodeLinked_no_read_alloca hl' hs' hz',
    Decoded.mk.injEq] at hdecoded
  exact ⟨hdecoded.2.1, hdecoded.2.2.1, hdecoded.2.2.2.1⟩

theorem read_alloca_inj {lmref sid size lmref' sid' size' : ℕ} (hl : lmref < 256)
    (hs : sid < 256) (hz : size < 256) (hl' : lmref' < 256) (hs' : sid' < 256) (hz' : size' < 256)
    (h : read_alloca_starting_addr lmref sid size = read_alloca_starting_addr lmref' sid' size') :
    sid = sid' := by
  have hdecoded := congrArg decodeLinked h
  rw [decodeLinked_read_alloca hl hs hz, decodeLinked_read_alloca hl' hs' hz',
    Decoded.mk.injEq] at hdecoded
  exact hdecoded.2.2.1

def GlobalWritten (m : Module) : Prop := GlobalKept m ∧ 0 < (globalBlock m).block_size

instance (m : Module) : Decidable (GlobalWritten m) := inferInstanceAs (Decidable (_ ∧ _))

structure WellPlaced (m : Module) (out : Output) : Prop where
  eight_digits : ∀ line ∈ out.linkld, IsBlockAddress line.address
  blocks_differ : ∀ d ∈ written out, ∀ e ∈ written out, d.blockSID ≠ e.blockSID →
    d.no_read_alloca_starting_addr ≠ e.no_read_alloca_starting_addr ∧
      d.read_alloca_starting_addr ≠ e.read_alloca_starting_addr
  global_differs : GlobalWritten m → ∀ d ∈ written out,
    d.no_read_alloca_starting_addr ≠ globalAllocAddress out

/-- Sizes and positions of the blocks for which the format is wide enough. The block at position
99 has the global block's section id, so it must differ from it in size or in LMRef index. -/
structure TwoDigitFields (m : Module) : Prop where
  blocks : ∀ i F, (keptFunctions m)[i]? = some F → 0 < blockSize m F →
    i + 1 < 256 ∧ blockSize m F < 256
  global : GlobalWritten m → (globalBlock m).block_size < 256
  hundredth : GlobalWritten m → ∀ F, (keptFunctions m)[99]? = some F →
    blockSize m F = (globalBlock m).block_size →
    F.name ∈ graphBlocks m.functions ∧
      ¬ Saturated num_lmref_entries (graphBlocks m.functions) (neighbours m.functions) F.name

/-- Start of the global block's access section, LMRef entry 0 spelled out. -/
def globalAccessAddress : Text := snprintf (['0', 'x', '7', '2'] ++ ['0', '0'] ++ altHex 4 0)

/-- The entry that the script gives the global block is no function's. -/
def ReservesEntryZero (m : Module) (out : Output) : Prop :=
  GlobalWritten m → ∀ d ∈ written out,
    lmrefIndex out d.funcName ≠ 0 ∧ d.access_starting_addr ≠ globalAccessAddress

/-- Every function that fits in the storage with a block calls or is called, and its neighbours
leave it an index. -/
def FindIndices (m : Module) : Prop :=
  ∀ F ∈ keptFunctions m, 0 < blockSize m F → F.name ∈ graphBlocks m.functions ∧
    ¬ Saturated num_lmref_entries (graphBlocks m.functions) (neighbours m.functions) F.name

section Run

variable {m : Module} {out : Output} (h : runOnModule m = some out)

include h

theorem lmrefIndex_lt_two_digits (name : String) : lmrefIndex out name < 256 := by
  obtain ⟨BIG, hbuild, hBIG⟩ := exists_graph h
  have hlt := lmrefOf_lt hbuild name
  rw [lmrefIndex, hBIG]
  exact hlt.trans (by decide)

theorem lmrefIndex_ne_zero_iff (name : String) : lmrefIndex out name ≠ 0 ↔
    name ∈ graphBlocks m.functions ∧
      ¬ Saturated num_lmref_entries (graphBlocks m.functions) (neighbours m.functions) name := by
  obtain ⟨BIG, hbuild, hBIG⟩ := exists_graph h
  rw [lmrefIndex, hBIG, ne_eq, lmrefOf_eq_zero_iff hbuild, Classical.not_imp]

theorem linkld_eq : out.linkld = (written out).flatMap descriptorLines ++
    (if GlobalWritten m then globalLines (globalBlock m).block_size else []) := by
  obtain ⟨s, functions, -, -, -, hlinkld⟩ := runOnModule_cases h
  have hcond : ((globalBlock m).block_size > 0 ∧ (!decide (GlobalKept m)) = false) ↔
      GlobalWritten m := by
    simp only [GlobalWritten, Bool.not_eq_false', decide_eq_true_eq]
    exact and_comm
  rw [hlinkld, Fini, GBlock_eq h, ← if_congr hcond rfl rfl]
  rfl

theorem eight_digits_iff : (∀ line ∈ out.linkld, IsBlockAddress line.address) ↔
    (∀ i F, (keptFunctions m)[i]? = some F → 0 < blockSize m F →
      i + 1 < 256 ∧ blockSize m F < 256) ∧
    (GlobalWritten m → (globalBlock m).block_size < 256) := by
  rw [linkld_eq h, List.forall_mem_append]
  refine and_congr ⟨fun hall i F hF hsize => ?_, fun hblocks line hmem => ?_⟩ ?_
  · have hd := (mem_written_iff h).mpr ⟨i, F, hF, hsize, rfl⟩
    have hlines := (descriptorLines_isBlockAddress_iff (lmrefIndex_lt_two_digits h F.name) (i + 1)
      ((DefUse m F).settle F)).mp fun line hline =>
        hall line (List.mem_flatMap.mpr ⟨_, hd, hline⟩)
    rwa [← summedSize_DefUse m F]
  · obtain ⟨d, hd, hline⟩ := List.mem_flatMap.mp hmem
    obtain ⟨i, F, hF, hsize, rfl⟩ := (mem_written_iff h).mp hd
    have hfields := hblocks i F hF hsize
    rw [← summedSize_DefUse m F] at hfields
    exact (descriptorLines_isBlockAddress_iff (lmrefIndex_lt_two_digits h F.name) (i + 1)
      ((DefUse m F).settle F)).mpr hfields line hline
  · split_ifs with hglobal
    · rw [globalLines_isBlockAddress_iff]
      simp [hglobal]
    · simp [hglobal]

theorem written_fields {d : BlockDescriptor} (hd : d ∈ written out) : ∃ i F,
    (keptFunctions m)[i]? = some F ∧ 0 < blockSize m F ∧ d.blockSID = i + 1 ∧
      d.no_read_alloca_starting_addr =
        no_read_alloca_starting_addr (lmrefIndex out F.name) (i + 1) (blockSize m F) ∧
      d.read_alloca_starting_addr =
        read_alloca_starting_addr (lmrefIndex out F.name) (i + 1) (blockSize m F) := by
  obtain ⟨i, F, hF, hsize, rfl⟩ := (mem_written_iff h).mp hd
  refine ⟨i, F, hF, hsize, rfl, ?_, ?_⟩ <;> rw [← summedSize_DefUse m F] <;> rfl

/-- Two-digit addresses of different blocks differ by their section ids. -/
theorem blocks_differ_of_two_digits (hblocks : ∀ i F, (keptFunctions m)[i]? = some F →
      0 < blockSize m F → i + 1 < 256 ∧ blockSize m F < 256) :
    ∀ d ∈ written out, ∀ e ∈ written out, d.blockSID ≠ e.blockSID →
      d.no_read_alloca_starting_addr ≠ e.no_read_alloca_starting_addr ∧
        d.read_alloca_starting_addr ≠ e.read_alloca_starting_addr := by
  intro d hd e he hne
  obtain ⟨i, F, hF, hFsize, hdSID, hdno_read, hdread⟩ := written_fields h hd
  obtain ⟨j, G, hG, hGsize, heSID, heno_read, heread⟩ := written_fields h he
  obtain ⟨hi, hFlt⟩ := hblocks i F hF hFsize
  obtain ⟨hj, hGlt⟩ := hblocks j G hG hGsize
  have hFl := lmrefIndex_lt_two_digits h F.name
  have hGl := lmrefIndex_lt_two_digits h G.name
  rw [hdSID, heSID] at hne
  rw [hdno_read, heno_read, hdread, heread]
  exact ⟨fun heq => hne (no_read_alloca_inj hFl hi hFlt hGl hj hGlt heq).2.1,
    fun heq => hne (read_alloca_inj hFl hi hFlt hGl hj hGlt heq)⟩

theorem global_differs_iff (hblocks : ∀ i F, (keptFunctions m)[i]? = some F →
      0 < blockSize m F → i + 1 < 256 ∧ blockSize m F < 256)
    (hwritten : GlobalWritten m) (hglobal : (globalBlock m).block_size < 256) :
    (∀ d ∈ written out, d.no_read_alloca_starting_addr ≠ globalAllocAddress out) ↔
      ∀ F, (keptFunctions m)[99]? = some F → blockSize m F = (globalBlock m).block_size →
        F.name ∈ graphBlocks m.functions ∧
          ¬ Saturated num_lmref_entries (graphBlocks m.functions) (neighbours m.functions)
            F.name := by
  have haddress : globalAllocAddress out =
      no_read_alloca_starting_addr 0 globalSID (globalBlock m).block_size := by
    rw [globalAllocAddress, GBlock_eq h]
  constructor
  · intro hdiffer F hF hsize
    have hpos : 0 < blockSize m F := by
      rw [hsize]
      exact hwritten.2
    have hd := (mem_written_iff h).mpr ⟨99, F, hF, hpos, rfl⟩
    rw [← lmrefIndex_ne_zero_iff h]
    intro hzero
    apply hdiffer _ hd
    rw [haddress, ← hsize, ← hzero, ← summedSize_DefUse m F]
    rfl
  · intro hcond d hd heq
    obtain ⟨i, F, hF, hsize, -, hno_read, -⟩ := written_fields h hd
    obtain ⟨hi, hlt⟩ := hblocks i F hF hsize
    rw [hno_read, haddress] at heq
    obtain ⟨hzero, hsid, hsizes⟩ := no_read_alloca_inj (lmrefIndex_lt_two_digits h F.name) hi hlt
      (by norm_num) (by decide) hglobal heq
    have hposition : i = 99 := by
      change i + 1 = 100 at hsid
      omega
    subst hposition
    exact (lmrefIndex_ne_zero_iff h F.name).mpr (hcond F hF hsizes) hzero

/-- A block's access section starts where the global block's does at index zero. -/
theorem access_ne_globalAccess_iff {d : BlockDescriptor} (hd : d ∈ written out) :
    d.access_starting_addr ≠ globalAccessAddress ↔ lmrefIndex out d.funcName ≠ 0 := by
  obtain ⟨i, F, -, -, rfl⟩ := (mem_written_iff h).mp hd
  change access_starting_addr (lmrefIndex out F.name) ≠ access_starting_addr 0 ↔ _
  constructor
  · intro hne hzero
    exact hne (congrArg access_starting_addr hzero)
  · intro hne heq
    exact hne (access_starting_addr_inj (lmrefIndex_lt_two_digits h F.name) (by norm_num) heq)

end Run

/-- Index zero stays the global block's exactly when every function with a block has an edge and a
free index. A function outside the call graph reads a default entry of `BIG`. -/
theorem reservesEntryZero_iff {m : Module} {out : Output} (h : runOnModule m = some out) :
    ReservesEntryZero m out ↔ (GlobalWritten m → FindIndices m) := by
  unfold ReservesEntryZero FindIndices
  refine imp_congr_right fun _ => ?_
  constructor
  · intro hreserved F hF hsize
    obtain ⟨i, hi⟩ := List.getElem?_of_mem hF
    have hd := (mem_written_iff h).mpr ⟨i, F, hi, hsize, rfl⟩
    exact (lmrefIndex_ne_zero_iff h F.name).mp (hreserved _ hd).1
  · intro hfind d hd
    obtain ⟨i, F, hi, hsize, rfl⟩ := (mem_written_iff h).mp hd
    have hne : lmrefIndex out F.name ≠ 0 :=
      (lmrefIndex_ne_zero_iff h F.name).mpr (hfind F (List.mem_of_getElem? hi) hsize)
    exact ⟨hne, (access_ne_globalAccess_iff h hd).mpr hne⟩

/-- All addresses have eight digits and tell the blocks apart exactly when the fields fit. -/
theorem wellPlaced_iff {m : Module} {out : Output} (h : runOnModule m = some out) :
    WellPlaced m out ↔ TwoDigitFields m := by
  constructor
  · intro hplaced
    obtain ⟨hblocks, hglobal⟩ := (eight_digits_iff h).mp hplaced.eight_digits
    exact ⟨hblocks, hglobal, fun hwritten =>
      (global_differs_iff h hblocks hwritten (hglobal hwritten)).mp
        (hplaced.global_differs hwritten)⟩
  · intro hfields
    exact ⟨(eight_digits_iff h).mpr ⟨hfields.blocks, hfields.global⟩,
      blocks_differ_of_two_digits h hfields.blocks, fun hwritten =>
        (global_differs_iff h hfields.blocks hwritten (hfields.global hwritten)).mpr
          (hfields.hundredth hwritten)⟩

/-- A global integer, and `main` with an integer that calls `f` with one. -/
def callsOne : SourceModule where
  globals := [⟨.source 0, "g", .integer 32, some (.constantInt 7), false, "", 4⟩]
  functions := [⟨"main", [], [[⟨.source 0, "x", .alloca (.integer 32), []⟩,
    ⟨.source 1, "", .call (some "f"), []⟩, ⟨.source 2, "", .ret, []⟩]]⟩,
    ⟨"f", [], [[⟨.source 0, "y", .alloca (.integer 32), []⟩, ⟨.source 1, "", .ret, []⟩]]⟩]
  aliases := []
  getTypeAllocSize := packedSize
  LastUnique := 0
  symbols_nodup := by decide
  globals_source := globals_source_integer "g"
  functions_wellFormed := by decide

def callsOneOutput : Output := (runOnModule callsOne.toModule).get (by decide +kernel)

theorem callsOne_run : runOnModule callsOne.toModule = some callsOneOutput :=
  (Option.some_get _).symm

theorem keptFunctions_callsOne : keptFunctions callsOne.toModule = callsOne.functions := by
  decide +kernel

theorem callsOne_fields : TwoDigitFields callsOne.toModule where
  blocks i F hF := by
    rw [keptFunctions_callsOne] at hF
    have hsmall : ∀ G ∈ callsOne.functions, blockSize callsOne.toModule G < 256 := by
      decide +kernel
    obtain ⟨hi, -⟩ := List.getElem?_eq_some_iff.mp hF
    have hlength : callsOne.functions.length = 2 := rfl
    exact fun _ => ⟨by omega, hsmall F (List.mem_of_getElem? hF)⟩
  global _ := by decide +kernel
  hundredth _ F hF := by
    rw [keptFunctions_callsOne] at hF
    cases hF

theorem wellPlaced_callsOne : WellPlaced callsOne.toModule callsOneOutput :=
  (wellPlaced_iff callsOne_run).mpr callsOne_fields

theorem callsOne_indices : FindIndices callsOne.toModule := by
  rw [FindIndices, keptFunctions_callsOne]
  intro F hF _
  have hgraph : ∀ G ∈ callsOne.functions, G.name ∈ graphBlocks callsOne.functions ∧
      (neighbours callsOne.functions G.name).card < num_lmref_entries - 1 := by decide +kernel
  exact ⟨(hgraph F hF).1, not_saturated_of_card_lt (hgraph F hF).2⟩

theorem reservesEntryZero_callsOne : ReservesEntryZero callsOne.toModule callsOneOutput :=
  (reservesEntryZero_iff callsOne_run).mpr fun _ => callsOne_indices

/-- `main` with an array of a hundred integers. -/
def largeArray : SourceModule where
  globals := []
  functions := [⟨"main", [], [[⟨.source 0, "a", .alloca (.array 100 (.integer 32)), []⟩,
    ⟨.source 1, "", .ret, []⟩]]⟩]
  aliases := []
  getTypeAllocSize := packedSize
  LastUnique := 0
  symbols_nodup := by decide
  globals_source := globals_source_nil
  functions_wellFormed := by decide

def largeArrayOutput : Output := (runOnModule largeArray.toModule).get (by decide +kernel)

theorem largeArray_run : runOnModule largeArray.toModule = some largeArrayOutput :=
  (Option.some_get _).symm

/-- `main` neither calls nor is called, and shares entry 0 with the global block. -/
theorem reservesEntryZero_fails :
    ¬ ∀ (m : SourceModule) (out : Output), runOnModule m.toModule = some out →
      ReservesEntryZero m.toModule out := by
  intro h
  have hrun : runOnModule largeArray.toModule = some largeArrayOutput :=
    largeArray_run
  have hmain := (mem_written_iff hrun).mpr ⟨0, largeArray.functions.head (by decide),
    by decide +kernel, by decide +kernel, rfl⟩
  have hreserved := h largeArray largeArrayOutput hrun (by decide +kernel) _ hmain
  have hindex := hreserved.1
  revert hindex
  decide +kernel

/-- The four hundred bytes take three digits: `0x710001190`. -/
theorem wellPlaced_fails :
    ¬ ∀ (m : SourceModule) (out : Output), runOnModule m.toModule = some out →
      WellPlaced m.toModule out := by
  intro h
  have hplaced := h largeArray largeArrayOutput largeArray_run
  have hline : (⟨".mainNoReadAllocaSegment",
      ['0', 'x', '7', '1', '0', '0', '0', '1', '1', '9', '0'],
      ".mainNoReadAllocaSection"⟩ : LinkLine) ∈ largeArrayOutput.linkld := by decide +kernel
  have hlength := (hplaced.eight_digits _ hline).length_eq
  revert hlength
  decide

end MMLMStore.LinkScript
