import MMLMStore.InvalidateCoverage

/-!
# Who owns a block after a write request

An up-down write request invalidates the other sharers of the sub-block of its address, then records
the requesting module as sharer and owner, and evicting the block takes the module out again. Each
of the three finds the sub-blocks it is about by an inequality of its own.
-/
namespace MMLMStore.WriteRequestOwner

open AlignedBlocks SharerDirectory InvalidateCoverage

variable {g : Geometry}

def tagOf (g : Geometry) (address : ℕ) (h : address < 2 ^ 32) : g.BlockTag :=
  ⟨blockBase g.blockSize address, dvd_blockBase _ _, lt_of_le_of_lt (blockBase_le _ _) h⟩

/-- An up-down write request: the requesting module and the byte address. -/
structure WriteRequestFrame (g : Geometry) where
  module : MemModule
  high : module ∈ g.highModules
  address : ℕ
  address_lt : address < 2 ^ 32

namespace WriteRequestFrame

variable (f : WriteRequestFrame g)

def tag : g.BlockTag := tagOf g f.address f.address_lt

def invalidateFrame : InvalidateFrame g where
  tag := f.tag
  address := f.address
  except_module := some f.module
  partial_invalidation := true

/-- Event `write_request_action`: a request from a local-memory store invalidates nothing. -/
def writeRequestAction (d : Directory g) : Directory g :=
  if f.module.type = .LMStore then d else (f.invalidateFrame.invalidate d).directory

/-- The sub-blocks `write_request_updown_finish` does not skip. -/
def covers (z : ℕ) : Bool :=
  !(decide (f.address < g.directoryEntryTag f.tag.val z) ||
    decide ((g.directoryEntryTag f.tag.val z + f.module.subBlockSize) % 2 ^ 32 ≤ f.address))

theorem covers_iff (z : ℕ) : f.covers z = true ↔
    g.directoryEntryTag f.tag.val z ≤ f.address ∧
      f.address < (g.directoryEntryTag f.tag.val z + f.module.subBlockSize) % 2 ^ 32 := by
  simp only [covers, Bool.not_eq_true', Bool.or_eq_false_iff, decide_eq_false_iff_not, not_lt,
    not_le]

def setNode (z : ℕ) (d : Directory g) : Directory g :=
  if f.covers z then (d.setSharer z f.module f.high).setOwner z (some f.module.index) else d

/-- Event `write_request_updown_finish` without an error: set module as sharer and owner. -/
def writeRequestUpdownFinish (d : Directory g) : Directory g :=
  (List.range g.numSubBlocks).foldl (fun d z => f.setNode z d) d

def writeRequest (d : Directory g) : Directory g :=
  f.writeRequestUpdownFinish (f.writeRequestAction d)

/-- Tag of the block in the requesting module's own cache. -/
def srcTag : ℕ := blockBase f.module.blockSize f.address

end WriteRequestFrame

/-- The sub-blocks `evict_process` does not skip when a module evicts its block at `srcTag`. -/
def evicts (g : Geometry) (module : MemModule) (tag srcTag z : ℕ) : Bool :=
  !(decide (g.directoryEntryTag tag z < srcTag) ||
    decide ((srcTag + module.blockSize) % 2 ^ 32 ≤ g.directoryEntryTag tag z))

theorem evicts_iff (module : MemModule) (tag srcTag z : ℕ) :
    evicts g module tag srcTag z = true ↔ srcTag ≤ g.directoryEntryTag tag z ∧
      g.directoryEntryTag tag z < (srcTag + module.blockSize) % 2 ^ 32 := by
  simp only [evicts, Bool.not_eq_true', Bool.or_eq_false_iff, decide_eq_false_iff_not, not_lt,
    not_le]

def evictNode (module : MemModule) (tag srcTag z : ℕ) (d : Directory g) : Directory g :=
  if evicts g module tag srcTag z then d.dropNode z module.index else d

/-- Event `evict_process`: remove sharer and owner. The target finds the block by `srcTag`. -/
def evictProcess (module : MemModule) (srcTag : ℕ) (d : Directory g) : Directory g :=
  (List.range g.numSubBlocks).foldl
    (fun d z => evictNode module (blockBase g.blockSize srcTag) srcTag z d) d

namespace WriteRequestFrame

variable (f : WriteRequestFrame g)

def evict (d : Directory g) : Directory g := evictProcess f.module f.srcTag d

def InBlock (z : ℕ) : Prop :=
  blockBase f.module.blockSize (g.directoryEntryTag f.tag.val z) = f.srcTag

def Held (d : Directory g) (z : ℕ) : Prop :=
  d.sharers z f.module.index = true ∧ d.owner z = some f.module.index

/-- The sub-blocks of the module's block, and no others, become its own, and evicting the block at
any later time gives all of them back. -/
structure Exclusive (d : Directory g) : Prop where
  held : ∀ z < g.numSubBlocks, f.InBlock z → f.Held (f.writeRequest d) z
  sole : ∀ z < g.numSubBlocks, f.InBlock z →
    ∀ i, (f.writeRequest d).sharers z i = true → i = f.module.index
  others : ∀ z < g.numSubBlocks, ¬f.InBlock z →
    ((f.writeRequest d).sharers z f.module.index = d.sharers z f.module.index) ∧
    ((f.writeRequest d).owner z = some f.module.index ↔ d.owner z = some f.module.index)
  evicted : ∀ z < g.numSubBlocks, ∀ later : Directory g,
    (d.sharers z f.module.index = false →
      (f.writeRequest d).sharers z f.module.index = true →
      (f.evict later).sharers z f.module.index = false) ∧
    (d.owner z ≠ some f.module.index →
      (f.writeRequest d).owner z = some f.module.index →
      (f.evict later).owner z ≠ some f.module.index)

/-- The three inequalities agree on the directory: the sub-blocks of the module's block that are not
set are held already, those that are set are evicted or held already, and those that are not
invalidated have no other sharer. -/
structure Agrees (d : Directory g) : Prop where
  held : ∀ z < g.numSubBlocks, f.InBlock z → f.covers z = true ∨ f.Held d z
  sole : ∀ z < g.numSubBlocks, f.InBlock z →
    (f.module.type ≠ .LMStore ∧ f.invalidateFrame.skips z = false) ∨
    ∀ i, d.sharers z i = true → i = f.module.index
  back : ∀ z < g.numSubBlocks, f.covers z = true →
    evicts g f.module f.tag.val f.srcTag z = true ∨ f.Held d z

theorem getUserData_module : g.getUserData f.module.index = some f.module :=
  g.getUserData_eq_some.mpr ⟨f.high, rfl⟩

theorem not_clears (d : Directory g) (z : ℕ) (h : MemModule) :
    ¬f.invalidateFrame.Clears d z f.module.index h := by
  intro hclears
  have heq := Option.some.inj (f.getUserData_module.symm.trans hclears.takes.1)
  exact hclears.takes.2 (congrArg some heq.symm)

theorem writeRequestAction_self (d : Directory g) (z : ℕ) :
    (f.writeRequestAction d).sharers z f.module.index = d.sharers z f.module.index := by
  unfold writeRequestAction
  split
  · rfl
  · rw [Bool.eq_iff_iff, InvalidateFrame.invalidate_sharers]
    exact and_iff_left (f.not_clears d z)

theorem writeRequestAction_owner (d : Directory g) (z : ℕ) :
    (f.writeRequestAction d).owner z = some f.module.index ↔
      d.owner z = some f.module.index := by
  unfold writeRequestAction
  split
  · rfl
  · rw [InvalidateFrame.invalidate_owner]
    exact and_iff_left (f.not_clears d z)

theorem writeRequestAction_other (d : Directory g) {z i : ℕ} (hz : z < g.numSubBlocks)
    (hi : i ≠ f.module.index) :
    (f.writeRequestAction d).sharers z i = true ↔ d.sharers z i = true ∧
      ¬(f.module.type ≠ .LMStore ∧ f.invalidateFrame.skips z = false) := by
  unfold writeRequestAction
  split
  · next hstore => simp [hstore]
  · next hstore =>
    rw [InvalidateFrame.invalidate_sharers]
    constructor
    · intro hkeep
      refine ⟨hkeep.1, fun hvisited => ?_⟩
      obtain ⟨h, hh, hidx, hdata⟩ := d.exists_userData hkeep.1
      have hne : some h ≠ some f.module := by
        intro heq
        rw [Option.some.inj heq] at hidx
        exact hi hidx.symm
      exact hkeep.2 h ⟨hz, hvisited.2, hkeep.1, hdata, hne⟩
    · intro hkeep
      exact ⟨hkeep.1, fun h hclears => hkeep.2 ⟨hstore, hclears.visited⟩⟩

theorem setNode_other (z : ℕ) (d : Directory g) (z' : ℕ) (hz : z' ≠ z) :
    Directory.SameRow (f.setNode z d) d z' := by
  unfold setNode
  split
  · constructor
    · intro i
      simp [hz]
    · simp [hz]
  · exact Directory.SameRow.rfl

theorem setNode_own (z : ℕ) (d d' : Directory g) (h : Directory.SameRow d d' z) :
    Directory.SameRow (f.setNode z d) (f.setNode z d') z := by
  unfold setNode
  split
  · constructor
    · intro i
      simp [h.sharers i]
    · simp
  · exact h

theorem finish_sameRow (d : Directory g) {z : ℕ} (hz : z < g.numSubBlocks) :
    Directory.SameRow (f.writeRequestUpdownFinish d) (f.setNode z d) z :=
  Directory.foldl_range_sameRow f.setNode_other f.setNode_own d hz

theorem finish_sharers (d : Directory g) {z : ℕ} (hz : z < g.numSubBlocks) (i : ℕ) :
    (f.writeRequestUpdownFinish d).sharers z i = true ↔
      (f.covers z = true ∧ i = f.module.index) ∨ d.sharers z i = true := by
  rw [(f.finish_sameRow d hz).sharers, setNode]
  by_cases hc : f.covers z = true
  · by_cases hi : i = f.module.index
    · simp [hc, hi]
    · simp [hc, hi]
  · simp [hc]

theorem finish_owner (d : Directory g) {z : ℕ} (hz : z < g.numSubBlocks) :
    (f.writeRequestUpdownFinish d).owner z = some f.module.index ↔
      f.covers z = true ∨ d.owner z = some f.module.index := by
  rw [(f.finish_sameRow d hz).owner, setNode]
  by_cases hc : f.covers z = true
  · simp [hc]
  · simp [hc]

theorem writeRequest_self (d : Directory g) {z : ℕ} (hz : z < g.numSubBlocks) :
    (f.writeRequest d).sharers z f.module.index = true ↔
      f.covers z = true ∨ d.sharers z f.module.index = true := by
  rw [writeRequest, f.finish_sharers _ hz, f.writeRequestAction_self, and_iff_left rfl]

theorem writeRequest_owner (d : Directory g) {z : ℕ} (hz : z < g.numSubBlocks) :
    (f.writeRequest d).owner z = some f.module.index ↔
      f.covers z = true ∨ d.owner z = some f.module.index := by
  rw [writeRequest, f.finish_owner _ hz, f.writeRequestAction_owner]

theorem writeRequest_other (d : Directory g) {z i : ℕ} (hz : z < g.numSubBlocks)
    (hi : i ≠ f.module.index) :
    (f.writeRequest d).sharers z i = true ↔ d.sharers z i = true ∧
      ¬(f.module.type ≠ .LMStore ∧ f.invalidateFrame.skips z = false) := by
  rw [writeRequest, f.finish_sharers _ hz, f.writeRequestAction_other d hz hi]
  simp [hi]

theorem writeRequest_held (d : Directory g) {z : ℕ} (hz : z < g.numSubBlocks) :
    f.Held (f.writeRequest d) z ↔ f.covers z = true ∨ f.Held d z := by
  rw [Held, f.writeRequest_self d hz, f.writeRequest_owner d hz, Held, or_and_left]

end WriteRequestFrame

theorem evictNode_other (module : MemModule) (tag srcTag z : ℕ) (d : Directory g) (z' : ℕ)
    (hz : z' ≠ z) : Directory.SameRow (evictNode module tag srcTag z d) d z' := by
  unfold evictNode
  split
  · exact Directory.dropNode_other z module.index d z' hz
  · exact Directory.SameRow.rfl

theorem evictNode_own (module : MemModule) (tag srcTag z : ℕ) (d d' : Directory g)
    (h : Directory.SameRow d d' z) :
    Directory.SameRow (evictNode module tag srcTag z d) (evictNode module tag srcTag z d') z := by
  unfold evictNode
  split
  · exact Directory.dropNode_own z module.index d d' h
  · exact h

theorem evictProcess_sameRow (module : MemModule) (srcTag : ℕ) (d : Directory g) {z : ℕ}
    (hz : z < g.numSubBlocks) :
    Directory.SameRow (evictProcess module srcTag d)
      (evictNode module (blockBase g.blockSize srcTag) srcTag z d) z :=
  Directory.foldl_range_sameRow (evictNode_other module (blockBase g.blockSize srcTag) srcTag)
    (evictNode_own module (blockBase g.blockSize srcTag) srcTag) d hz

namespace WriteRequestFrame

variable (f : WriteRequestFrame g)

theorem blockSize_pos : 0 < f.module.blockSize :=
  pos_of_isPowerOfTwo (g.high_power f.module f.high)

/-- The target finds one block by the address and by the tag of the module's block. -/
theorem blockBase_srcTag : blockBase g.blockSize f.srcTag = f.tag.val := by
  have hB : 0 < g.blockSize := pos_of_isPowerOfTwo g.blockSize_power
  symm
  apply (eq_blockBase_iff hB).mpr
  refine ⟨dvd_blockBase _ _, ?_, ?_⟩
  · -- the start of the large block is a multiple of the small size below the address
    have hdvd := dvd_trans (g.high_dvd f.high) (dvd_blockBase g.blockSize f.address)
    have hmono := Nat.mul_le_mul_left f.module.blockSize
      (Nat.div_le_div_right (c := f.module.blockSize) (blockBase_le g.blockSize f.address))
    rw [Nat.mul_div_cancel' hdvd] at hmono
    exact hmono
  · exact lt_of_le_of_lt (blockBase_le _ _) (lt_blockBase_add hB f.address)

theorem evict_sameRow (d : Directory g) {z : ℕ} (hz : z < g.numSubBlocks) :
    Directory.SameRow (f.evict d) (evictNode f.module f.tag.val f.srcTag z d) z := by
  have hrow := evictProcess_sameRow f.module f.srcTag d hz
  rw [f.blockBase_srcTag] at hrow
  exact hrow

theorem inBlock_of_evicts {z : ℕ} (h : evicts g f.module f.tag.val f.srcTag z = true) :
    f.InBlock z := by
  have hmod := Nat.mod_le (f.srcTag + f.module.blockSize) (2 ^ 32)
  rw [evicts_iff] at h
  apply Eq.symm
  apply (eq_blockBase_iff f.blockSize_pos).mpr
  exact ⟨dvd_blockBase _ _, h.1, by omega⟩

/-- One size for the sub-blocks of the target, the module's blocks and the module's sub-blocks makes
the inequalities agree, below the last block of the address space. -/
theorem agrees_of_equalSizes (d : Directory g) (htype : f.module.type ≠ .LMStore)
    (hblock : f.module.blockSize = g.subBlockSize) (hsub : f.module.subBlockSize = g.subBlockSize)
    (hlast : f.srcTag + f.module.blockSize < 2 ^ 32) : f.Agrees d := by
  have hle : f.srcTag ≤ f.address := blockBase_le f.module.blockSize f.address
  have hlt : f.address < f.srcTag + f.module.blockSize := lt_blockBase_add f.blockSize_pos f.address
  have hsum : (f.srcTag + f.module.blockSize) % 2 ^ 32 = f.srcTag + f.module.blockSize :=
    Nat.mod_eq_of_lt hlast
  -- every sub-block starts a block of the module
  have hself : ∀ z < g.numSubBlocks, blockBase f.module.blockSize
      (g.directoryEntryTag f.tag.val z) = g.directoryEntryTag f.tag.val z := by
    intro z hz
    apply blockBase_eq_self.mpr
    apply (Geometry.dvd_directoryEntryTag f.tag f.high hz).mpr
    rw [Geometry.firstSubBlock, hblock, Nat.div_self g.subBlockSize_pos]
    exact blockBase_eq_self.mpr (one_dvd z)
  have hstart : ∀ z < g.numSubBlocks, f.InBlock z →
      g.directoryEntryTag f.tag.val z = f.srcTag := by
    intro z hz hin
    rw [← hself z hz]
    exact hin
  refine ⟨fun z hz hin => ?_, fun z hz hin => ?_, fun z hz hcov => ?_⟩
  · left
    rw [covers_iff, hstart z hz hin, hsub, ← hblock, hsum]
    exact ⟨hle, hlt⟩
  · left
    have hvisited := f.invalidateFrame.skips_eq_false_iff rfl z
    refine ⟨htype, hvisited.mpr ?_⟩
    change g.directoryEntryTag f.tag.val z ≤ f.address ∧
      f.address < (g.directoryEntryTag f.tag.val z + g.subBlockSize) % 2 ^ 32
    rw [hstart z hz hin, ← hblock, hsum]
    exact ⟨hle, hlt⟩
  · left
    have hmod := Nat.mod_le (g.directoryEntryTag f.tag.val z + f.module.subBlockSize) (2 ^ 32)
    rw [covers_iff] at hcov
    have hbase := (mem_block_iff f.blockSize_pos (g.directoryEntryTag f.tag.val z) f.address).mp
      (by rw [hself z hz]; omega)
    rw [evicts_iff, hstart z hz hbase.symm, hsum]
    exact ⟨le_refl _, Nat.lt_add_of_pos_right f.blockSize_pos⟩

end WriteRequestFrame

open WriteRequestFrame

/-- A write request and a later eviction keep to the block of the requesting module exactly when
the inequalities of invalidation, update and eviction agree on the directory. -/
theorem exclusive_iff (f : WriteRequestFrame g) (d : Directory g) :
    f.Exclusive d ↔ f.Agrees d := by
  constructor
  · intro hex
    refine ⟨fun z hz hin => ?_, fun z hz hin => ?_, fun z hz hcov => ?_⟩
    · exact (f.writeRequest_held d hz).mp (hex.held z hz hin)
    · by_cases hinv : f.module.type ≠ .LMStore ∧ f.invalidateFrame.skips z = false
      · exact Or.inl hinv
      · right
        intro i hi
        by_contra hne
        exact hne (hex.sole z hz hin i ((f.writeRequest_other d hz hne).mpr ⟨hi, hinv⟩))
    · by_cases hev : evicts g f.module f.tag.val f.srcTag z = true
      · exact Or.inl hev
      · right
        have hset := (f.writeRequest_held d hz).mpr (Or.inl hcov)
        have hrow := f.evict_sameRow (f.writeRequest d) hz
        rw [evictNode, if_neg hev] at hrow
        obtain ⟨hbit, howner⟩ := hex.evicted z hz (f.writeRequest d)
        constructor
        · by_contra hclear
          have hgone := hbit (Bool.eq_false_iff.mpr hclear) hset.1
          rw [hrow.sharers, hset.1] at hgone
          cases hgone
        · by_contra hother
          exact howner hother hset.2 (hrow.owner.trans hset.2)
  · intro hag
    refine ⟨fun z hz hin => ?_, fun z hz hin i hi => ?_, fun z hz hout => ?_,
      fun z hz later => ?_⟩
    · exact (f.writeRequest_held d hz).mpr (hag.held z hz hin)
    · by_contra hne
      obtain ⟨hbit, hinv⟩ := (f.writeRequest_other d hz hne).mp hi
      rcases hag.sole z hz hin with hvisited | hsole
      · exact hinv hvisited
      · exact hne (hsole i hbit)
    · have hheld : f.covers z = true → f.Held d z := by
        intro hcov
        rcases hag.back z hz hcov with hev | hheld
        · exact absurd (f.inBlock_of_evicts hev) hout
        · exact hheld
      constructor
      · rw [Bool.eq_iff_iff, f.writeRequest_self d hz]
        exact or_iff_right_of_imp fun hcov => (hheld hcov).1
      · rw [f.writeRequest_owner d hz]
        exact or_iff_right_of_imp fun hcov => (hheld hcov).2
    · have hrow := f.evict_sameRow later hz
      -- a sub-block the request adds is covered, so it is evicted or was held before
      have hback : f.covers z = true → ¬f.Held d z →
          (f.evict later).sharers z f.module.index = false ∧
            (f.evict later).owner z ≠ some f.module.index := by
        intro hcov hnot
        have hev := (hag.back z hz hcov).resolve_right hnot
        rw [hrow.sharers, hrow.owner, evictNode, if_pos hev]
        refine ⟨by simp, ?_⟩
        rw [Directory.dropNode_owner]
        split_ifs with ho
        · simp
        · exact fun hk => ho ⟨rfl, hk⟩
      constructor
      · intro hbefore hafter
        have hcov := ((f.writeRequest_self d hz).mp hafter).resolve_right (by simp [hbefore])
        exact (hback hcov fun hheld => by simp [hheld.1] at hbefore).1
      · intro hbefore hafter
        have hcov := ((f.writeRequest_owner d hz).mp hafter).resolve_right hbefore
        exact (hback hcov fun hheld => hbefore hheld.2).2

/-- A block of 64 bytes below a cache with blocks of 64 and one with blocks of 32. -/
def halfBlocks : Geometry where
  blockSize := 64
  highModules := [⟨"l1-data", .Cache, 64, 64, 0⟩, ⟨"l1-inst", .Cache, 32, 32, 1⟩]
  numNodes := 2
  blockSize_power := ⟨6, rfl⟩
  blockSize_int := by norm_num
  high_power := by
    intro h hh
    rcases List.mem_pair.mp hh with rfl | rfl
    · exact ⟨6, rfl⟩
    · exact ⟨5, rfl⟩
  high_le := by decide
  sub_power := by
    intro h hh
    rcases List.mem_pair.mp hh with rfl | rfl
    · exact ⟨6, rfl⟩
    · exact ⟨5, rfl⟩
  sub_le := by decide
  index_lt := by decide
  index_inj := by decide

def unshared : Directory halfBlocks where
  sharers _ _ := false
  owner _ := none
  numSharers _ := 0
  sharer_high := by simp
  numSharers_eq := by simp

theorem dataCache_high :
    (⟨"l1-data", .Cache, 64, 64, 0⟩ : MemModule) ∈ halfBlocks.highModules := by simp [halfBlocks]

/-- A store of the data cache to the first half of a block nobody shares. -/
def storeToFirstHalf : WriteRequestFrame halfBlocks where
  module := ⟨"l1-data", .Cache, 64, 64, 0⟩
  high := dataCache_high
  address := 4
  address_lt := by norm_num

/-- The data cache gets the whole block and is recorded for the first half only. -/
theorem exclusive_fails : ¬∀ (g : Geometry) (f : WriteRequestFrame g) (d : Directory g),
    f.Exclusive d := by
  intro hall
  have hheld := (hall halfBlocks storeToFirstHalf unshared).held 1 (by decide) rfl
  have hclear : (storeToFirstHalf.writeRequest unshared).sharers 1 0 = false := by decide
  have hset : (storeToFirstHalf.writeRequest unshared).sharers 1 0 = true := hheld.1
  rw [hclear] at hset
  cases hset

end MMLMStore.WriteRequestOwner
