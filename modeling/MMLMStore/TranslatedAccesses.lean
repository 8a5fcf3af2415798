import MMLMStore.LMStoreEvents
import MMLMStore.LinkedAddresses
import MMLMStore.MmuDiversion

/-!
# Accesses through an MMU

Accesses of a program to the LMStore, each done before the next: an MMU translates the virtual
address and leaves its text in the map, and the LMStore reads the text back to find the entry. The
handlers' assertions about hits and about entries that are free are left out here.
-/
namespace MMLMStore.TranslatedAccesses
open HexText LMStoreDecode LMStoreEvents LMStorePass LMStoreTables LinkedAddresses MmuDiversion
  MmuTranslation

structure Machine where
  mem_map : MemMap
  mmu : Mmu
  lmstore : LMStore

/-- An MMU with one space, and the LMStore as it is constructed. -/
def Machine.new (BlockSize LMRefSize LMDirSize NumberOfBlocks lmsStoreSize : ℕ) : Machine :=
  ⟨fun _ => none, Mmu.new.newSpace,
    LMStore.new BlockSize LMRefSize LMDirSize NumberOfBlocks lmsStoreSize⟩

/-- Operations on the directory that the events of an access make. -/
def serve (mem_map : MemMap) (s : LMStore) (address : ℕ) : AccessType → Option LMStore
  | .Load => do
    let _ ← FindBlock mem_map s address
    some s
  | .Store => do
    let _ ← FindBlock mem_map s address
    setBlockState mem_map s address .BlockModified
  | .ReadAlloc | .NoReadAlloc => do
    let (_, s) ← allocateBlock mem_map s address
    some s
  | .WriteDealloc | .NoWriteDealloc => do
    let (_, s) ← deallocateBlock mem_map s address
    some s

namespace Machine

def translate (c : Machine) (v : Address) : Option (Machine × ℕ) := do
  let (mem_map, mmu, p) ← TranslateVirtualAddress c.mem_map c.mmu 0 v
  some ({ c with mem_map := mem_map, mmu := mmu }, p.toNat)

/-- `Module::Access`; an address that the LMStore does not serve goes to the L1 cache. -/
def access (c : Machine) (store : Bool) (v : Address) : Option Machine := do
  let (c, address) ← c.translate v
  if ServesAddress c.mem_map address then do
    let lmstore ← serve c.mem_map c.lmstore address
      (accessTypeOf c.mem_map (if store then .Store else .Load) address)
    some { c with lmstore := lmstore }
  else some c

def found (c : Machine) (v : Address) : Option LMDir_t := do
  let (c, address) ← c.translate v
  let text ← PhyToVirt c.mem_map address
  let (_, e) ← entryOf c.lmstore text
  some e

/-- The machine has the space that the program runs in, and tables for every LMRef index. -/
structure Sized (c : Machine) : Prop where
  space : c.mmu.spaces ≠ []
  LMRef : ∀ i < 64, c.lmstore.LMRef[i]? = some ⟨i, 0⟩
  LMDir : 64 ≤ c.lmstore.LMDir.length
  LMDirIndex : c.lmstore.LMDirIndex = 0

end Machine

def served (kind : SectionKind) (store : Bool) (LMBIndex : ℕ) (d : Decoded) (e : LMDir_t) :
    LMDir_t :=
  match kind with
  | .NoReadAlloca | .ReadAlloca =>
    { e with LMBIndex := LMBIndex, BlockID := d.BlockID, state := .BlockExclusive,
             BlockSize := d.BlockSize }
  | .NoWriteDealloca | .WriteDealloca => { e with state := .BlockInvalid }
  | .MemAccess => if store then { e with state := .BlockModified } else e

theorem sized_new {BlockSize LMRefSize LMDirSize NumberOfBlocks lmsStoreSize : ℕ}
    (href : 64 ≤ LMRefSize) (hdir : 64 ≤ LMDirSize) :
    (Machine.new BlockSize LMRefSize LMDirSize NumberOfBlocks lmsStoreSize).Sized where
  space := by simp [Machine.new, Mmu.newSpace]
  LMRef := by
    intro i hi
    rw [Machine.new, new_LMRef, if_pos (by omega)]
  LMDir := by simpa [Machine.new, LMStore.new, initLMStorage, initLMDir, initLMRef,
    initBlkDescriptor] using hdir
  LMDirIndex := rfl

theorem invalid_new {BlockSize LMRefSize LMDirSize NumberOfBlocks lmsStoreSize : ℕ} {e : LMDir_t}
    (he : e ∈ (Machine.new BlockSize LMRefSize LMDirSize NumberOfBlocks
      lmsStoreSize).lmstore.LMDir) : e.state = .BlockInvalid := by
  rw [new_LMDir _ _ _ _ _ he]

theorem exists_findPage {m : Mmu} (hspace : m.spaces ≠ []) (v : Address) :
    ∃ m' page, m.findPage 0 v = some (m', page) ∧ m'.spaces ≠ [] := by
  obtain ⟨sp, rest, hspaces⟩ := List.exists_cons_of_ne_nil hspace
  unfold Mmu.findPage
  simp only [hspaces, List.getElem?_cons_zero, Option.bind_eq_bind, Option.bind_some]
  cases sp.getPage (v &&& PageMask) with
  | some page => exact ⟨m, page, rfl, hspace⟩
  | none => exact ⟨_, _, rfl, by simp [Mmu.createPage, hspaces]⟩

theorem entryOf_of_sized {c : Machine} (hc : c.Sized) {v : VirtAddr} {l : ℕ} (hl : l < 64)
    (hindex : (DecodeAddress v.text).LMRefIndex = l) :
    ∃ e, c.lmstore.LMDir[l]? = some e ∧ entryOf c.lmstore v = some (l, e) := by
  have hlt : l < c.lmstore.LMDir.length := hl.trans_le hc.LMDir
  refine ⟨c.lmstore.LMDir[l], List.getElem?_eq_getElem hlt, entryOf_eq_some.mpr ⟨?_, ?_⟩⟩
  · rw [hindex, dirIndex, hc.LMRef l hl]
    rfl
  · exact List.getElem?_eq_getElem hlt

theorem exists_serve {mem_map : MemMap} {s : LMStore} {address l : ℕ} {v : VirtAddr}
    {e freed : LMDir_t} {kind : SectionKind} (hkind : kind ∈ usedKinds)
    (hmap : PhyToVirt mem_map address = some v)
    (hopcode : addrPrefix v.text = fixedHex 2 (operation kind)) (hentry : entryOf s v = some (l, e))
    (hfreed : s.LMDir[s.LMDirIndex]? = some freed) (store : Bool) :
    ∃ t, serve mem_map s address
        (accessTypeOf mem_map (if store then .Store else .Load) address) = some t ∧
      t.LMRef = s.LMRef ∧ t.LMDirIndex = s.LMDirIndex ∧
      t.LMDir = s.LMDir.set l (served kind store s.LMBIndex (DecodeAddress v.text) e) := by
  have hself : s.LMDir = s.LMDir.set l e := by
    obtain ⟨hlt, rfl⟩ := List.getElem?_eq_some_iff.mp (entryOf_eq_some.mp hentry).2
    simp
  simp only [usedKinds, List.mem_cons, List.not_mem_nil, or_false] at hkind
  rcases hkind with rfl | rfl | rfl
  · have hdigits : addrPrefix v.text = ['7', '1'] := hopcode.trans (by decide)
    have htype : accessTypeOf mem_map (if store then .Store else .Load) address =
        .NoReadAlloc := by
      simp [accessTypeOf, hmap, getOpCode, second_digit hdigits, opCodeOf]
    refine ⟨s.install l e (DecodeAddress v.text), ?_, rfl, rfl, rfl⟩
    simp [serve, htype, allocateBlock, hmap, hdigits, hentry]
  · have hdigits : addrPrefix v.text = ['7', '2'] := hopcode.trans (by decide)
    have htype : accessTypeOf mem_map (if store then .Store else .Load) address =
        if store then .Store else .Load := by
      simp [accessTypeOf, hmap, getOpCode, second_digit hdigits, opCodeOf]
    rw [htype]
    cases store with
    | false => exact ⟨s, by simp [serve, FindBlock, hmap, hentry], rfl, rfl, hself⟩
    | true =>
      refine ⟨{ s with LMDir := s.LMDir.set l { e with state := .BlockModified } }, ?_, rfl, rfl,
        rfl⟩
      simp [serve, FindBlock, setBlockState, hmap, hdigits, hentry]
  · have hdigits : addrPrefix v.text = ['7', '3'] := hopcode.trans (by decide)
    have htype : accessTypeOf mem_map (if store then .Store else .Load) address =
        .NoWriteDealloc := by
      simp [accessTypeOf, hmap, getOpCode, second_digit hdigits, opCodeOf]
    refine ⟨s.release l e freed.BlockSize, ?_, rfl, rfl, rfl⟩
    simp [serve, htype, deallocateBlock, hmap, hentry, hfreed]

section Access

variable {c : Machine} (hc : c.Sized) {kind : SectionKind} {l : ℕ} (hl : l < 64) {v : Address}
  (hv : v.toNat / 2 ^ 16 = operation kind * 256 + l)

include hc hl hv

/-- After the translation the map has the text of the virtual address. -/
theorem exists_translate : ∃ c' address, c.translate v = some (c', address) ∧ c'.Sized ∧
    c'.lmstore = c.lmstore ∧ PhyToVirt c'.mem_map address = some v.text := by
  obtain ⟨m', page, hpage, hspace⟩ := exists_findPage hc.space v
  have hbyte : 0x71 ≤ topByte v ∧ topByte v ≤ 0x76 := by
    have hop : 0x71 ≤ operation kind ∧ operation kind ≤ 0x75 := by cases kind <;> decide
    unfold topByte
    omega
  refine ⟨⟨record c.mem_map (page.physical_address + (v &&& ~~~PageMask)) v, m', c.lmstore⟩,
    (page.physical_address + (v &&& ~~~PageMask)).toNat, ?_, ?_, rfl, ?_⟩
  · simp [Machine.translate, TranslateVirtualAddress, hpage]
  · exact ⟨hspace, hc.LMRef, hc.LMDir, hc.LMDirIndex⟩
  · simp [PhyToVirt, record, (isRecorded_iff v).mpr hbyte, MmuTranslation.store]

theorem exists_access (hkind : kind ∈ usedKinds) (store : Bool) :
    ∃ c' e, c.access store v = some c' ∧ c'.Sized ∧ c.lmstore.LMDir[l]? = some e ∧
      c.found v = some e ∧ c'.lmstore.LMDir = c.lmstore.LMDir.set l
        (served kind store c.lmstore.LMBIndex (DecodeAddress (virtText v.toNat)) e) := by
  obtain ⟨t, address, htranslate, ht, hlmstore, hmap⟩ := exists_translate hc hl hv
  have hlow : l < 256 := hl.trans (by norm_num)
  have hopcode : addrPrefix v.text.text = fixedHex 2 (operation kind) := addrPrefix_of_div hlow hv
  have hentryIndex : (DecodeAddress v.text.text).LMRefIndex = l := LMRefIndex_of_div hlow hv hkind
  obtain ⟨e, he, hentry⟩ := entryOf_of_sized ht hl hentryIndex
  have hfirst : 0 < t.lmstore.LMDir.length := lt_of_lt_of_le (by norm_num) ht.LMDir
  have hfreed : t.lmstore.LMDir[t.lmstore.LMDirIndex]? = some t.lmstore.LMDir[0] := by
    rw [ht.LMDirIndex, List.getElem?_eq_getElem hfirst]
  obtain ⟨lmstore, hserve, href, hindex, hdir⟩ :=
    exists_serve hkind hmap hopcode hentry hfreed store
  have hserves : ServesAddress t.mem_map address = true := by
    refine ServesAddress_iff.mpr ⟨v.text, hmap, (isOperation_iff v).mpr ?_⟩
    have hop : 0x71 ≤ operation kind ∧ operation kind ≤ 0x75 := by cases kind <;> decide
    unfold topByte
    omega
  refine ⟨{ t with lmstore := lmstore }, e, ?_, ?_, hlmstore ▸ he, ?_, ?_⟩
  · simp [Machine.access, htranslate, hserves, hserve]
  · refine ⟨ht.space, fun i hi => ?_, ?_, hindex.trans ht.LMDirIndex⟩
    · rw [href]
      exact ht.LMRef i hi
    · rw [hdir, List.length_set]
      exact ht.LMDir
  · simp [Machine.found, htranslate, hmap, hentry]
  · rw [hdir, hlmstore]
    rfl

end Access

end MMLMStore.TranslatedAccesses
