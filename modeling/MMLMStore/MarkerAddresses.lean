import MMLMStore.AlignedPlacement
import MMLMStore.LinkScript
import MMLMStore.SectionContents

/-!
# Addresses that the inserted loads read

The words of a section are placed from its start on, so an inserted load reads an address some
bytes after the start. The address still names the block when these bytes do not touch the fields
that `DecodeAddress` reads.
-/
namespace MMLMStore.MarkerAddresses
open AlignedPlacement CodeShape DescriptorFormat HexText KeptFunctions LinkScript LMRefMapping
  LMStoreDecode LMStorePass ModuleIR PassSteps RecordedNames SectionContents

/-! Addresses and their fields. -/

/-- A 32-bit address with the first digits that the LMStore serves, and what it decodes to. -/
structure Names (address : ℕ) (first : Text) (decoded : Decoded) : Prop where
  fits : address < 2 ^ 32
  serves : addrPrefix (virtText address) = first
  decodes : DecodeAddress (virtText address) = decoded

theorem addrPrefix_fourFields (a b c d : ℕ) : addrPrefix (fourFields a b c d) = fixedHex 2 a := by
  simp [addrPrefix, substr, fourFields, fixedHex]

/-- An address names a block by the four bytes that spell it. -/
theorem names_iff {op address : ℕ} {decoded : Decoded} (hop : op < 256) :
    Names address (fixedHex 2 op) decoded ↔ ∃ b < 256, ∃ c < 256, ∃ d < 256,
      address = op * 2 ^ 24 + b * 2 ^ 16 + c * 2 ^ 8 + d ∧
        DecodeAddress (fourFields op b c d) = decoded := by
  constructor
  · rintro ⟨hfits, hserves, hdecodes⟩
    rw [virtText_eq_fourFields hfits] at hserves hdecodes
    rw [addrPrefix_fourFields] at hserves
    obtain rfl := (fixedHex_inj (by norm_num; omega) (by norm_num; omega)).mp hserves
    refine ⟨_, Nat.mod_lt _ (by norm_num), _, Nat.mod_lt _ (by norm_num), _,
      Nat.mod_lt _ (by norm_num), ?_, hdecodes⟩
    omega
  · rintro ⟨b, hb, c, hc, d, hd, rfl, hdecode⟩
    have htext : virtText (op * 2 ^ 24 + b * 2 ^ 16 + c * 2 ^ 8 + d) = fourFields op b c d := by
      rw [← readHex_fourFields hop hb hc hd, virtText_fourFields hop hb hc hd]
    refine ⟨by omega, ?_, ?_⟩
    · rw [htext, addrPrefix_fourFields]
    · rw [htext, hdecode]

theorem names_alloc_iff {lmref sid size address : ℕ} (hl : lmref < 256) :
    Names address ['7', '1'] ⟨.BlockNoReadAlloc, lmref, sid, size, 0⟩ ↔
      sid < 256 ∧ size < 256 ∧
        address = 0x71 * 2 ^ 24 + lmref * 2 ^ 16 + sid * 2 ^ 8 + size := by
  have hcode : fixedHex 2 0x71 = ['7', '1'] := by decide
  have hdecode {b c d : ℕ} (hb : b < 256) (hc : c < 256) (hd : d < 256) :
      DecodeAddress (fourFields 0x71 b c d) = ⟨.BlockNoReadAlloc, b, c, d, 0⟩ :=
    DecodeAddress_alloca '1' hcode.symm rfl (Or.inr rfl) hb hc hd
  rw [← hcode, names_iff (by norm_num)]
  constructor
  · rintro ⟨b, hb, c, hc, d, hd, rfl, hdecodes⟩
    rw [hdecode hb hc hd, Decoded.mk.injEq] at hdecodes
    omega
  · rintro ⟨hs, hz, rfl⟩
    exact ⟨lmref, hl, sid, hs, size, hz, rfl, hdecode hl hs hz⟩

/-- A deallocation address names the section id by one digit; the digit after it is free. -/
theorem names_dealloc_iff {lmref sid size address : ℕ} (hl : lmref < 256) :
    Names address ['7', '3'] ⟨.BlockNoWriteDealloc, lmref, sid, size, 0⟩ ↔
      sid < 16 ∧ size < 256 ∧ ∃ low < 16,
        address = 0x73 * 2 ^ 24 + lmref * 2 ^ 16 + (sid * 16 + low) * 2 ^ 8 + size := by
  have hcode : fixedHex 2 0x73 = ['7', '3'] := by decide
  have hdecode {b c d : ℕ} (hb : b < 256) (hc : c < 256) (hd : d < 256) :
      DecodeAddress (fourFields 0x73 b c d) = ⟨.BlockNoWriteDealloc, b, c / 16, d, 0⟩ :=
    DecodeAddress_dealloca '3' hcode.symm rfl (Or.inr rfl) hb hc hd
  rw [← hcode, names_iff (by norm_num)]
  constructor
  · rintro ⟨b, hb, c, hc, d, hd, rfl, hdecodes⟩
    rw [hdecode hb hc hd, Decoded.mk.injEq] at hdecodes
    exact ⟨by omega, by omega, c % 16, by omega, by omega⟩
  · rintro ⟨hs, hz, low, hlow, rfl⟩
    have hc : sid * 16 + low < 256 := by omega
    have hdigit : (sid * 16 + low) / 16 = sid := by omega
    refine ⟨lmref, hl, sid * 16 + low, hc, size, hz, rfl, ?_⟩
    rw [hdecode hl hc hz, hdigit]

/-- Bytes between the address that a block's fields spell and one that names the block. -/
theorem names_alloc_add_iff {lmref sid size n : ℕ} (hl : lmref < 256) :
    Names (linkValue (no_read_alloca_starting_addr lmref sid size) + n) ['7', '1']
        ⟨.BlockNoReadAlloc, lmref, sid, size, 0⟩ ↔ sid < 256 ∧ size < 256 ∧ n = 0 := by
  rw [names_alloc_iff hl]
  refine and_congr_right fun hs => and_congr_right fun hz => ?_
  have hstart := linkValue_sized (by decide : ['7', '1'] = fixedHex 2 0x71) (by norm_num) hl hs hz
  rw [no_read_alloca_starting_addr, hstart]
  omega

theorem names_dealloc_add_iff {lmref sid size n : ℕ} (hl : lmref < 256) :
    Names (linkValue (no_write_dealloca_starting_addr lmref sid size) + n) ['7', '3']
        ⟨.BlockNoWriteDealloc, lmref, sid, size, 0⟩ ↔
      sid < 16 ∧ size < 256 ∧ ∃ low < 16, n = (15 * sid + low) * 2 ^ 8 := by
  rw [names_dealloc_iff hl]
  refine and_congr_right fun hs => and_congr_right fun hz => exists_congr fun low =>
    and_congr_right fun _ => ?_
  have hstart := linkValue_sized (by decide : ['7', '3'] = fixedHex 2 0x73) (by norm_num) hl
    (show sid < 256 by omega) hz
  rw [no_write_dealloca_starting_addr, hstart]
  omega

/-! Words in a section. -/

def globalLayout (m : Module) : Layout GlobalVariable where
  size G := m.getTypeAllocSize G.valueType
  alignment := GlobalVariable.alignment

theorem globalLayout_congr {M M' : Module} (h : M'.getTypeAllocSize = M.getTypeAllocSize) :
    globalLayout M' = globalLayout M := by
  rw [globalLayout, globalLayout, h]

def HasAddress (m : Module) (s : String) (start : ℕ) (id : GlobalId) (address : ℕ) : Prop :=
  ∃ G, G.id = id ∧ (globalLayout m).IsPlaced start (sectionGlobals m s) G address

/-- The word with an id, and what stands around it in its section. -/
theorem exists_word {M : Module} {s : String} {occupied : List GlobalVariable}
    {ids : List GlobalId} (hholds : Holds M s occupied ids) (hnodup : ids.Nodup) {c : ℕ}
    {id : GlobalId} (hid : ids[c]? = some id) : ∃ words G after,
      sectionGlobals M s = (occupied ++ words) ++ G :: after ∧ words.length = c ∧
      (∀ W ∈ words, W.valueType = .integer 32 ∧ W.alignment = 4) ∧ G.alignment = 4 ∧
      G.id = id ∧ ∀ W ∈ occupied ++ words ++ after, W.id ≠ id := by
  obtain ⟨words, later, heq, rfl, hwords, hothers⟩ := hholds
  rw [List.getElem?_map, Option.map_eq_some_iff] at hid
  obtain ⟨G, hG, rfl⟩ := hid
  obtain ⟨hc, rfl⟩ := List.getElem?_eq_some_iff.mp hG
  have hcut : words = words.take c ++ words[c] :: words.drop (c + 1) := by
    rw [List.getElem_cons_drop, List.take_append_drop]
  have hdistinct : ((words.take c ++ words[c] :: words.drop (c + 1)).map GlobalVariable.id).Nodup :=
    hcut ▸ hnodup
  rw [List.map_append, List.map_cons, List.nodup_append, List.nodup_cons] at hdistinct
  obtain ⟨-, ⟨hlast, -⟩, hfirst⟩ := hdistinct
  refine ⟨words.take c, words[c], words.drop (c + 1) ++ later, ?_, ?_,
    fun W hW => hwords W (List.mem_of_mem_take hW), (hwords _ (List.getElem_mem hc)).2, rfl,
    fun W hW hid => ?_⟩
  · calc sectionGlobals M s
        = occupied ++ (words.take c ++ words[c] :: words.drop (c + 1)) ++ later := by
          rw [← hcut, heq]
      _ = _ := by simp only [List.append_assoc, List.cons_append]
  · rw [List.length_take, min_eq_left hc.le]
  · have hword : words[c].id ∈ words.map GlobalVariable.id :=
      List.mem_map.mpr ⟨_, List.getElem_mem hc, rfl⟩
    simp only [List.mem_append] at hW
    rcases hW with (hW | hW) | hW | hW
    · exact hothers W (List.mem_append_left _ hW) (hid ▸ hword)
    · exact hfirst _ (List.mem_map.mpr ⟨W, hW, rfl⟩) _ List.mem_cons_self hid
    · exact hlast (List.mem_map.mpr ⟨W, hW, hid⟩)
    · exact hothers W (List.mem_append_right _ hW) (hid ▸ hword)

theorem hasAddress_word_iff {M : Module} (hsize : M.getTypeAllocSize (.integer 32) = 4)
    {s : String} {occupied : List GlobalVariable} {ids : List GlobalId}
    (hholds : Holds M s occupied ids) (hnodup : ids.Nodup) {c : ℕ} {id : GlobalId}
    (hid : ids[c]? = some id) (start address : ℕ) : HasAddress M s start id address ↔
      address = alignUp 4 ((globalLayout M).finish start occupied) + 4 * c := by
  obtain ⟨words, G, after, heq, rfl, hwords, halignment, rfl, hothers⟩ :=
    exists_word hholds hnodup hid
  -- the words before this one leave no gaps, whatever the cursor at the first of them
  have huniform := (globalLayout M).alignUp_finish_uniform (by norm_num : 0 < 4)
    (fun W hW => ⟨(congrArg M.getTypeAllocSize (hwords W hW).1).trans hsize, (hwords W hW).2⟩)
    ((globalLayout M).finish start occupied)
  have hbefore : G ∉ occupied ++ words := fun hmem => hothers G (List.mem_append_left _ hmem) rfl
  have hafter : G ∉ after := fun hmem => hothers G (List.mem_append_right _ hmem) rfl
  have hplaced := (globalLayout M).isPlaced_iff (c := start) hbefore hafter address
  rw [← heq, Layout.finish_append, show (globalLayout M).alignment G = 4 from halignment,
    huniform] at hplaced
  rw [← hplaced]
  constructor
  · rintro ⟨W, hid, hW⟩
    obtain ⟨before', after', hsplit, -⟩ := id hW
    have hmem : W ∈ (occupied ++ words) ++ G :: after := by simp [← heq, hsplit]
    rcases List.mem_append.mp hmem with hmem | hmem
    · exact absurd hid (hothers W (List.mem_append_left _ hmem))
    · rcases List.mem_cons.mp hmem with rfl | hmem
      · exact hW
      · exact absurd hid (hothers W (List.mem_append_right _ hmem))
  · intro hG
    exact ⟨G, rfl, hG⟩

/-! Loads of a function. -/

structure DescribesBlock (out : Output) (d : BlockDescriptor) (code : List Instruction) :
    Prop where
  alloc : ∀ id ∈ readIds (isAI (.function d.funcName)) code, ∃ address,
    HasAddress out.M (sectionName d.funcName .NoReadAlloca)
      (linkValue d.no_read_alloca_starting_addr) id address ∧
    Names address ['7', '1']
      ⟨.BlockNoReadAlloc, lmrefIndex out d.funcName, d.blockSID, d.block_size, 0⟩
  dealloc : ∀ id ∈ readIds (isDI (.function d.funcName)) code, ∃ address,
    HasAddress out.M (sectionName d.funcName .NoWriteDealloca)
      (linkValue d.no_write_dealloca_starting_addr) id address ∧
    Names address ['7', '3']
      ⟨.BlockNoWriteDealloc, lmrefIndex out d.funcName, d.blockSID, d.block_size, 0⟩

/-- Bytes from the start of a section to the first word added to what stands there. -/
def wordOffset (m : Module) (s : String) (start : ℕ) : ℕ :=
  alignUp 4 ((globalLayout m).finish start (sectionGlobals m s)) - start

/-- Section id of a function that is kept after others. -/
def sectionIdAfter (m : Module) (pre : List Function) : ℕ :=
  (keep m (storageLeft m) pre).length + 1

/-- When the words of a function leave the fields of their sections' addresses as they are: the
allocation word stands at the start of its section, and each deallocation word at a multiple of
256 bytes that moves the section id one digit up. -/
structure WordsFit (m : Module) (pre : List Function) (s : PassState) (F : Function) : Prop where
  alloc : sectionIdAfter m pre < 256 ∧ blockSize m F < 256 ∧
    wordOffset s.M (sectionName F.name .NoReadAlloca) (linkValue (no_read_alloca_starting_addr
      (lmrefOf s.BIG F.name) (sectionIdAfter m pre) (blockSize m F))) = 0
  dealloc : ∀ c < returnCount F.instructions,
    sectionIdAfter m pre < 16 ∧ blockSize m F < 256 ∧ ∃ low < 16,
      wordOffset s.M (sectionName F.name .NoWriteDealloca)
        (linkValue (no_write_dealloca_starting_addr (lmrefOf s.BIG F.name) (sectionIdAfter m pre)
          (blockSize m F))) + 4 * c = (15 * sectionIdAfter m pre + low) * 2 ^ 8

theorem names_word_iff {M M' : Module} (hlayout : M'.getTypeAllocSize = M.getTypeAllocSize)
    (hsize : M.getTypeAllocSize (.integer 32) = 4) {S : String} {ids : List GlobalId}
    (hholds : Holds M' S (sectionGlobals M S) ids) (hnodup : ids.Nodup) {c : ℕ} {id : GlobalId}
    (hid : ids[c]? = some id) (start : ℕ) (first : Text) (decoded : Decoded) :
    (∃ address, HasAddress M' S start id address ∧ Names address first decoded) ↔
      Names (start + (wordOffset M S start + 4 * c)) first decoded := by
  have hle : start ≤ alignUp 4 ((globalLayout M).finish start (sectionGlobals M S)) :=
    ((globalLayout M).le_finish _ _).trans (le_alignUp _ _)
  have haddress : start + (wordOffset M S start + 4 * c) =
      alignUp 4 ((globalLayout M').finish start (sectionGlobals M S)) + 4 * c := by
    rw [globalLayout_congr hlayout, wordOffset]
    omega
  simp only [hasAddress_word_iff (hlayout ▸ hsize) hholds hnodup hid, exists_eq_left, haddress]

theorem BIG_eq {m : Module} {out : Output} (h : runOnModule m = some out)
    {pre post : List Function} {F : Function} (hfunctions : m.functions = pre ++ F :: post)
    {s : PassState} (hs : stateBefore m pre = some s) : s.BIG = out.state.BIG := by
  obtain ⟨s', t, F', post', hbefore, hF, -, hrest⟩ := runOnModule_function h hfunctions
  obtain rfl : s = s' := Option.some.inj (hs.symm.trans hbefore)
  have hstep : t.BIG = s.BIG := by
    rcases processFunction_cases hF with hskip | hcode
    · exact hskip.BIG
    · exact hcode.BIG
  rw [(processFunctions_descriptors hrest).1, hstep]

section Sections

variable {out : Output} {s : PassState} {F F' : Function} (sections : Sections out s F F')
  (hlayout : out.M.getTypeAllocSize = s.M.getTypeAllocSize)
  (hsize : s.M.getTypeAllocSize (.integer 32) = 4) {lmref : ℕ} (hl : lmref < 256) (sid size : ℕ)

include sections hlayout hsize hl

theorem alloc_names_iff : (∀ id ∈ readIds (isAI (.function F.name)) F'.instructions, ∃ address,
    HasAddress out.M (sectionName F.name .NoReadAlloca)
      (linkValue (no_read_alloca_starting_addr lmref sid size)) id address ∧
    Names address ['7', '1'] ⟨.BlockNoReadAlloc, lmref, sid, size, 0⟩) ↔
      sid < 256 ∧ size < 256 ∧ wordOffset s.M (sectionName F.name .NoReadAlloca)
        (linkValue (no_read_alloca_starting_addr lmref sid size)) = 0 := by
  have hword := names_word_iff hlayout hsize sections.alloc (List.nodup_singleton _)
    (List.getElem?_cons_zero) (linkValue (no_read_alloca_starting_addr lmref sid size)) ['7', '1']
    ⟨.BlockNoReadAlloc, lmref, sid, size, 0⟩
  rw [sections.alloc_reads, List.forall_mem_singleton, hword, names_alloc_add_iff hl, Nat.mul_zero,
    Nat.add_zero]

theorem dealloc_names_iff :
    (∀ id ∈ readIds (isDI (.function F.name)) F'.instructions, ∃ address,
      HasAddress out.M (sectionName F.name .NoWriteDealloca)
        (linkValue (no_write_dealloca_starting_addr lmref sid size)) id address ∧
      Names address ['7', '3'] ⟨.BlockNoWriteDealloc, lmref, sid, size, 0⟩) ↔
    ∀ c < returnCount F.instructions, sid < 16 ∧ size < 256 ∧ ∃ low < 16,
      wordOffset s.M (sectionName F.name .NoWriteDealloca)
        (linkValue (no_write_dealloca_starting_addr lmref sid size)) + 4 * c =
          (15 * sid + low) * 2 ^ 8 := by
  have hnodup : ((List.range (returnCount F.instructions)).map
      (GlobalId.deallocaIns (.function F.name))).Nodup :=
    List.nodup_range.map fun a b hab => (GlobalId.deallocaIns.inj hab).2
  rw [sections.dealloc_reads, List.forall_mem_map]
  simp only [List.mem_range]
  refine forall₂_congr fun c hc => ?_
  have hid : ((List.range (returnCount F.instructions)).map
      (GlobalId.deallocaIns (.function F.name)))[c]? = some (.deallocaIns (.function F.name) c) := by
    rw [List.getElem?_map, List.getElem?_range hc, Option.map_some]
  rw [names_word_iff hlayout hsize sections.dealloc hnodup hid, names_dealloc_add_iff hl]

end Sections

/-- The inserted loads of a function read addresses of its block exactly when the words made for
them leave the fields alone. -/
theorem describesBlock_iff {m : SourceModule} {out : Output}
    (h : runOnModule m.toModule = some out) (hsize : m.getTypeAllocSize (.integer 32) = 4)
    {pre post : List Function} {F F' : Function} (hfunctions : m.functions = pre ++ F :: post)
    {s : PassState} (hs : stateBefore m.toModule pre = some s)
    (hF' : out.M.functions[pre.length]? = some F') {d : BlockDescriptor} (hd : d ∈ written out)
    (hname : d.funcName = F.name) :
    DescribesBlock out d F'.instructions ↔ WordsFit m.toModule pre s F := by
  obtain ⟨hkept, hpos, rfl⟩ := eq_descriptorAt hfunctions h hd hname
  obtain ⟨s', F'', hs', hposition, sections⟩ := sections_of_kept h hfunctions hkept hpos
  obtain rfl : s = s' := Option.some.inj (hs.symm.trans hs')
  obtain rfl : F' = F'' := Option.some.inj (hF'.symm.trans hposition)
  have hl := lmrefIndex_lt_two_digits h F.name
  have hs_layout := (reached_stateBefore hs).getTypeAllocSize
  have hlayout := (runOnModule_layout h).trans hs_layout.symm
  have hword : s.M.getTypeAllocSize (.integer 32) = 4 := hs_layout ▸ hsize
  have hsummed : summedSize ((DefUse m.toModule F).settle F) = blockSize m.toModule F :=
    summedSize_DefUse m.toModule F
  have halloc := alloc_names_iff sections hlayout hword hl (sectionIdAfter m.toModule pre)
    (blockSize m.toModule F)
  have hdealloc := dealloc_names_iff sections hlayout hword hl (sectionIdAfter m.toModule pre)
    (blockSize m.toModule F)
  rw [← hsummed] at halloc hdealloc
  constructor
  · intro hdescribes
    have hA := halloc.mp hdescribes.alloc
    have hD := hdealloc.mp hdescribes.dealloc
    rw [hsummed, lmrefIndex, ← BIG_eq h hfunctions hs] at hA hD
    exact ⟨hA, hD⟩
  · rintro ⟨hA, hD⟩
    rw [BIG_eq h hfunctions hs, ← hsummed] at hA hD
    exact ⟨halloc.mpr hA, hdealloc.mpr hD⟩

/-- In sections that nothing else was put in, the words fit only if the function never returns: the
first deallocation word stands less than four bytes after the start. -/
theorem wordsFit_of_empty {m : Module} {pre : List Function} {s : PassState} {F : Function}
    (hl : lmrefOf s.BIG F.name < 256)
    (halloc : sectionGlobals s.M (sectionName F.name .NoReadAlloca) = [])
    (hdealloc : sectionGlobals s.M (sectionName F.name .NoWriteDealloca) = []) :
    WordsFit m pre s F ↔ sectionIdAfter m pre < 256 ∧ blockSize m F < 256 ∧ 4 ∣ blockSize m F ∧
      returnCount F.instructions = 0 := by
  have hoffset : ∀ start, alignUp 4 start - start = (4 - start % 4) % 4 := fun start =>
    Nat.add_sub_cancel_left start _
  have hid : 0 < sectionIdAfter m pre := Nat.succ_pos _
  constructor
  · rintro ⟨⟨hs, hz, hfirst⟩, hreturns⟩
    have hstart := linkValue_sized (by decide : ['7', '1'] = fixedHex 2 0x71) (by norm_num) hl hs hz
    rw [wordOffset, halloc, Layout.finish, hoffset, no_read_alloca_starting_addr, hstart] at hfirst
    refine ⟨hs, hz, by omega, ?_⟩
    by_contra hne
    obtain ⟨-, -, low, -, heq⟩ := hreturns 0 (Nat.pos_of_ne_zero hne)
    rw [wordOffset, hdealloc, Layout.finish, hoffset] at heq
    omega
  · rintro ⟨hs, hz, hdvd, hreturns⟩
    have hstart := linkValue_sized (by decide : ['7', '1'] = fixedHex 2 0x71) (by norm_num) hl hs hz
    refine ⟨⟨hs, hz, ?_⟩, fun c hc => ?_⟩
    · rw [wordOffset, halloc, Layout.finish, hoffset, no_read_alloca_starting_addr, hstart]
      omega
    · rw [hreturns] at hc
      exact absurd hc (Nat.not_lt_zero c)

/-- `main` with an integer, which does not return. -/
def looper : Function := ⟨"main", [], [[⟨.source 0, "x", .alloca (.integer 32), []⟩,
  ⟨.source 1, "", .br [1], []⟩], [⟨.source 2, "", .br [1], []⟩]]⟩

def noReturn : SourceModule where
  globals := []
  functions := [looper]
  aliases := []
  getTypeAllocSize := packedSize
  LastUnique := 0
  symbols_nodup := by decide
  globals_source := globals_source_nil
  functions_wellFormed := by decide

def noReturnOutput : Output := (runOnModule noReturn.toModule).get (by decide +kernel)

theorem noReturn_run : runOnModule noReturn.toModule = some noReturnOutput :=
  (Option.some_get _).symm

theorem noReturn_prepares : (stateBefore noReturn.toModule []).isSome := by decide +kernel

theorem noReturn_code : (noReturnOutput.M.functions[0]?).isSome := by decide +kernel

def looperBlock : BlockDescriptor :=
  descriptorOf 0 1 ((DefUse noReturn.toModule looper).settle looper)

theorem looper_fits : WordsFit noReturn.toModule []
    ((stateBefore noReturn.toModule []).get noReturn_prepares) looper where
  alloc := by decide +kernel
  dealloc c hc := absurd hc (Nat.not_lt_zero c)

theorem describesBlock_noReturn : DescribesBlock noReturnOutput looperBlock
    ((noReturnOutput.M.functions[0]?).get noReturn_code).instructions := by
  have hfunctions : noReturn.functions = [] ++ looper :: [] := rfl
  have hwritten : looperBlock ∈ written noReturnOutput := by decide +kernel
  exact (describesBlock_iff noReturn_run rfl hfunctions
    (Option.some_get noReturn_prepares).symm (Option.some_get noReturn_code).symm hwritten
    rfl).mpr looper_fits

/-- `main` with an integer and two returns. -/
def returner : Function := ⟨"main", [], [[⟨.source 0, "x", .alloca (.integer 32), []⟩,
  ⟨.source 1, "", .br [1, 2], [.constantData 1 1]⟩], [⟨.source 2, "", .ret, []⟩],
  [⟨.source 3, "", .ret, []⟩]]⟩

def twoReturns : SourceModule where
  globals := []
  functions := [returner]
  aliases := []
  getTypeAllocSize := packedSize
  LastUnique := 0
  symbols_nodup := by decide
  globals_source := globals_source_nil
  functions_wellFormed := by decide

def twoReturnsOutput : Output := (runOnModule twoReturns.toModule).get (by decide +kernel)

theorem twoReturns_run : runOnModule twoReturns.toModule = some twoReturnsOutput :=
  (Option.some_get _).symm

theorem twoReturns_code : (twoReturnsOutput.M.functions[0]?).isSome := by decide +kernel

def returnerBlock : BlockDescriptor :=
  descriptorOf 0 1 ((DefUse twoReturns.toModule returner).settle returner)

theorem returnerBlock_written : returnerBlock ∈ written twoReturnsOutput := by decide +kernel

/-- The load before a return of `main` reads `0x73000104`, which names block 0. -/
theorem describesBlock_fails :
    ¬ ∀ (m : SourceModule) (out : Output), runOnModule m.toModule = some out →
      m.getTypeAllocSize (.integer 32) = 4 → ∀ d ∈ written out, ∀ F ∈ out.M.functions,
        F.name = d.funcName → DescribesBlock out d F.instructions := by
  intro h
  have hcode := List.mem_of_getElem? (Option.some_get twoReturns_code).symm
  have hdescribes := h twoReturns twoReturnsOutput twoReturns_run rfl returnerBlock
    returnerBlock_written _ hcode (by decide +kernel)
  obtain ⟨address, haddress, hnames⟩ := hdescribes.dealloc (.deallocaIns (.function "main") 0)
    (by decide +kernel)
  have hholds : Holds twoReturnsOutput.M (sectionName "main" .NoWriteDealloca) []
      [.deallocaIns (.function "main") 0, .deallocaIns (.function "main") 1] :=
    ⟨sectionGlobals twoReturnsOutput.M (sectionName "main" .NoWriteDealloca), [], by simp,
      by decide +kernel, by decide +kernel, by simp⟩
  have hsize : twoReturnsOutput.M.getTypeAllocSize (.integer 32) = 4 := by decide +kernel
  obtain rfl := (hasAddress_word_iff hsize hholds (by decide) (c := 0) rfl _ _).mp haddress
  have hid := congrArg Decoded.BlockID hnames.decodes
  revert hid
  decide +kernel

end MMLMStore.MarkerAddresses
