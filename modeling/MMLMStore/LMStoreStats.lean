import MMLMStore.DescriptorFormat
import MMLMStore.LMStoreWriteback

/-!
# Statistics of an LMStore module

The counters that `Module::UpdateStats` keeps for allocations and deallocations, over runs of the
event chains. The size that an access counts is the one its address carries, and the address of a
write deallocation carries none.
-/
namespace MMLMStore.LMStoreStats
open DescriptorFormat HexText LMStoreDecode LMStoreEvents LMStoreOrder LMStoreTables LMStoreTurns
  LMStoreWriteback StepRuns

structure Stats where
  num_allocate : ℤ
  accumulated_sizes_alloc_blocks : ℤ
  min_alloc_block_size : ℤ
  max_alloc_block_size : ℤ
  num_deallocate : ℤ
  accumulated_sizes_dealloc_blocks : ℤ
  min_dealloc_block_size : ℤ
  max_dealloc_block_size : ℤ
  num_free_lmref : ℤ
  num_free_lmdir : ℤ
  lmstore_free_space : ℤ
  deriving DecidableEq, Repr

def setLMStore (LMRefSize LMDirSize LMStoreSize : ℕ) : Stats :=
  ⟨0, 0, LMStoreSize, 0, 0, 0, LMStoreSize, 0, LMRefSize, LMDirSize, LMStoreSize⟩

def Stats.allocate (s : Stats) (block_size : ℤ) : Stats :=
  { s with
    num_allocate := s.num_allocate + 1
    accumulated_sizes_alloc_blocks := s.accumulated_sizes_alloc_blocks + block_size
    min_alloc_block_size := min s.min_alloc_block_size block_size
    max_alloc_block_size := max s.max_alloc_block_size block_size
    num_free_lmref := s.num_free_lmref - 1
    num_free_lmdir := s.num_free_lmdir - 1
    lmstore_free_space := s.lmstore_free_space - block_size }

def Stats.deallocate (s : Stats) (block_size : ℤ) : Stats :=
  { s with
    num_deallocate := s.num_deallocate + 1
    accumulated_sizes_dealloc_blocks := s.accumulated_sizes_dealloc_blocks + block_size
    min_dealloc_block_size := min s.min_dealloc_block_size block_size
    max_dealloc_block_size := max s.max_dealloc_block_size block_size
    num_free_lmref := s.num_free_lmref + 1
    num_free_lmdir := s.num_free_lmdir + 1
    lmstore_free_space := s.lmstore_free_space + block_size }

/-! The blocks of a program. -/

structure Block where
  lmref_index : ℕ
  blockSID : ℕ
  block_size : ℕ
  deriving DecidableEq, Repr

/-- Start of the section that an operation on the block goes to. -/
def Block.starting_addr (b : Block) : OpCodeType → Option Text
  | .BlockNoReadAlloc => some (no_read_alloca_starting_addr b.lmref_index b.blockSID b.block_size)
  | .BlockNoWriteDealloc =>
    some (no_write_dealloca_starting_addr b.lmref_index b.blockSID b.block_size)
  | .BlockReadAlloc => some (read_alloca_starting_addr b.lmref_index b.blockSID b.block_size)
  | .BlockWriteDealloc => some (write_dealloca_starting_addr b.lmref_index b.blockSID)
  | _ => none

/-- Allocations and deallocations go to the section starts of the blocks they are for. -/
def Encoded (mem_map : MemMap) (blockOf : ℕ → Block) : Prop :=
  ∀ address v t, PhyToVirt mem_map address = some v →
    (blockOf address).starting_addr (getOpCode v) = some t → v.text = virtText (linkValue t)

structure Ledger where
  stats : Stats
  live : List Block
  deriving DecidableEq, Repr

def unlocking (s : State) : Action → Option Frame
  | .process id _ => (s.1.accesses.find? (·.id = id)).filter (·.status.event = .unlock)
  | _ => none

/-- `lmstore_alloc_unlock` and `lmstore_dealloc_unlock` count the size at their address. -/
def Ledger.complete (mem_map : MemMap) (blockOf : ℕ → Block) (g : Ledger) (f : Frame) : Ledger :=
  match f.access_type with
  | .ReadAlloc | .NoReadAlloc =>
    ⟨g.stats.allocate (getBlockSize mem_map f.address), g.live.insert (blockOf f.address)⟩
  | .WriteDealloc | .NoWriteDealloc =>
    ⟨g.stats.deallocate (getBlockSize mem_map f.address), g.live.erase (blockOf f.address)⟩
  | _ => g

def Ledger.after (mem_map : MemMap) (blockOf : ℕ → Block) (g : Ledger) (s : State) (a : Action) :
    Ledger :=
  (unlocking s a).elim g (g.complete mem_map blockOf)

def audited (mem_map : MemMap) (blockOf : ℕ → Block) (g : Ledger) (s : State)
    (run : List (Action × State)) : List (Ledger × State × Action × State) :=
  ghosts (fun g s a _ => g.after mem_map blockOf s a) g s run

def Ledger.liveSize (g : Ledger) : ℕ := (g.live.map Block.block_size).sum

structure Balanced (LMRefSize LMStoreSize : ℕ) (g : Ledger) : Prop where
  free_space : g.stats.lmstore_free_space = LMStoreSize - g.liveSize
  free_lmref : g.stats.num_free_lmref = LMRefSize - g.live.length
  accumulated : g.stats.accumulated_sizes_alloc_blocks -
    g.stats.accumulated_sizes_dealloc_blocks = g.liveSize

theorem balanced_iff {LMRefSize LMStoreSize : ℕ} {g : Ledger} : Balanced LMRefSize LMStoreSize g ↔
    g.stats.lmstore_free_space = LMStoreSize - g.liveSize ∧
      g.stats.num_free_lmref = LMRefSize - g.live.length ∧
      g.stats.accumulated_sizes_alloc_blocks - g.stats.accumulated_sizes_dealloc_blocks =
        g.liveSize :=
  ⟨fun h => ⟨h.1, h.2, h.3⟩, fun h => ⟨h.1, h.2.1, h.2.2⟩⟩

instance (LMRefSize LMStoreSize : ℕ) (g : Ledger) : Decidable (Balanced LMRefSize LMStoreSize g) :=
  decidable_of_iff _ balanced_iff.symm

/-- Blocks are allocated and deallocated in turn, and no write deallocation ends a block that has
a size. -/
def Accounted (blockOf : ℕ → Block) (g : Ledger) (f : Frame) : Prop :=
  (isAlloc f.access_type → blockOf f.address ∉ g.live) ∧
    (isDealloc f.access_type → blockOf f.address ∈ g.live) ∧
    (f.access_type = .WriteDealloc → (blockOf f.address).block_size = 0)

instance (blockOf : ℕ → Block) (g : Ledger) (f : Frame) : Decidable (Accounted blockOf g f) :=
  inferInstanceAs (Decidable (_ ∧ _ ∧ _))

/-! Sizes that the addresses carry. -/

/-- An address that fits into 32 bits has not been cut off. -/
theorem length_fields_le {fields : Text} (hhex : IsHex fields)
    (h : linkValue (snprintf (['0', 'x', '7'] ++ fields)) < 16 ^ 8) : fields.length ≤ 7 := by
  by_contra hlong
  have hvalue : linkValue (snprintf (['0', 'x', '7'] ++ fields)) =
      readHexFrom 7 (fields.take 8) := rfl
  have hge := le_readHexFrom 7 (t := fields.take 8) fun c hc => hhex c (List.mem_of_mem_take hc)
  rw [← hvalue, List.length_take, min_eq_left (by omega)] at hge
  norm_num at h hge
  omega

theorem sized_fields_lt {op : Char} (hop : IsHex [op]) {lmref sid size : ℕ}
    (h : linkValue (sized_starting_addr op lmref sid size) < 16 ^ 8) :
    lmref < 256 ∧ sid < 256 ∧ size < 256 := by
  have hhex : IsHex ([op] ++ (twoHex lmref ++ (twoHex sid ++ twoHex size))) :=
    isHex_append hop
      (isHex_append (isHex_twoHex _) (isHex_append (isHex_twoHex _) (isHex_twoHex _)))
  have hshape : sized_starting_addr op lmref sid size = snprintf
      (['0', 'x', '7'] ++ ([op] ++ (twoHex lmref ++ (twoHex sid ++ twoHex size)))) := by
    simp [sized_starting_addr]
  rw [hshape] at h
  have hlen := length_fields_le hhex h
  simp only [List.length_append, List.length_singleton] at hlen
  have hl := two_le_length_twoHex lmref
  have hs := two_le_length_twoHex sid
  have hz := two_le_length_twoHex size
  refine ⟨(length_twoHex_eq_two_iff _).mp ?_, (length_twoHex_eq_two_iff _).mp ?_,
    (length_twoHex_eq_two_iff _).mp ?_⟩ <;> omega

theorem write_dealloca_fields_lt {lmref sid : ℕ}
    (h : linkValue (write_dealloca_starting_addr lmref sid) < 16 ^ 8) :
    lmref < 256 ∧ sid < 256 := by
  have hzero : altHex 2 0 = fixedHex 2 0 := by decide
  have hhex : IsHex (['5'] ++ (twoHex lmref ++ (twoHex sid ++ altHex 2 0))) := by
    have hfive : IsHex ['5'] := isHex_digit (show 5 < 16 by norm_num)
    rw [hzero]
    exact isHex_append hfive (isHex_append (isHex_twoHex _)
      (isHex_append (isHex_twoHex _) (isHex_fixedHex _ _)))
  have hshape : write_dealloca_starting_addr lmref sid = snprintf
      (['0', 'x', '7'] ++ (['5'] ++ (twoHex lmref ++ (twoHex sid ++ altHex 2 0)))) := by
    simp [write_dealloca_starting_addr]
  rw [hshape] at h
  have hlen := length_fields_le hhex h
  simp only [hzero, List.length_append, List.length_singleton, length_fixedHex] at hlen
  have hl := two_le_length_twoHex lmref
  have hs := two_le_length_twoHex sid
  refine ⟨(length_twoHex_eq_two_iff _).mp ?_, (length_twoHex_eq_two_iff _).mp ?_⟩ <;> omega

theorem lt_of_length_virtText {n : ℕ} (h : (virtText n).length = 8) : n < 16 ^ 8 := by
  have hle : (hexText n).length ≤ 8 := by
    rw [virtText, length_padLeft] at h
    omega
  exact (length_hexText_le_iff (by norm_num)).mp hle

def countedSize (b : Block) (t : AccessType) : ℕ :=
  if t = .WriteDealloc then 0 else b.block_size

theorem decoded_size {v : VirtAddr} {op : Char} {b : Block} (hop : IsHex [op])
    (htext : v.text =
      virtText (linkValue (sized_starting_addr op b.lmref_index b.blockSID b.block_size)))
    (hdecode : b.lmref_index < 256 → b.blockSID < 256 → b.block_size < 256 →
      (decodeLinked (sized_starting_addr op b.lmref_index b.blockSID b.block_size)).BlockSize =
        b.block_size) : (DecodeAddress v.text).BlockSize = b.block_size := by
  have hlt := lt_of_length_virtText (htext ▸ v.length_text)
  obtain ⟨hl, hs, hz⟩ := sized_fields_lt hop hlt
  rw [htext]
  exact hdecode hl hs hz

theorem getBlockSize_of_encoded {mem_map : MemMap} {blockOf : ℕ → Block}
    (henc : Encoded mem_map blockOf) {f : Frame} (h : Served mem_map f)
    (htype : isAlloc f.access_type ∨ isDealloc f.access_type) :
    getBlockSize mem_map f.address = countedSize (blockOf f.address) f.access_type := by
  obtain ⟨hserves, store, hkind⟩ := h
  obtain ⟨v, hv, -⟩ := ServesAddress_iff.mp hserves
  have hsize : getBlockSize mem_map f.address = (DecodeAddress v.text).BlockSize := by
    rw [getBlockSize, hv]
  rw [accessTypeOf, hv, Option.map_some] at hkind
  rw [hsize, countedSize]
  cases hcode : getOpCode v with
  | BlockNoReadAlloc =>
    rw [hcode] at hkind
    rw [hkind, if_neg (by simp)]
    refine decoded_size (isHex_digit (show 1 < 16 by norm_num)) (henc _ v _ hv (by rw [hcode]; rfl))
      fun hl hs hz => ?_
    exact congrArg Decoded.BlockSize (decodeLinked_no_read_alloca hl hs hz)
  | BlockReadAlloc =>
    rw [hcode] at hkind
    rw [hkind, if_neg (by simp)]
    refine decoded_size (isHex_digit (show 4 < 16 by norm_num)) (henc _ v _ hv (by rw [hcode]; rfl))
      fun hl hs hz => ?_
    exact congrArg Decoded.BlockSize (decodeLinked_read_alloca hl hs hz)
  | BlockNoWriteDealloc =>
    rw [hcode] at hkind
    rw [hkind, if_neg (by simp)]
    refine decoded_size (isHex_digit (show 3 < 16 by norm_num)) (henc _ v _ hv (by rw [hcode]; rfl))
      fun hl hs hz => ?_
    exact congrArg Decoded.BlockSize (decodeLinked_no_write_dealloca hl hs hz)
  | BlockWriteDealloc =>
    rw [hcode] at hkind
    rw [hkind, if_pos rfl]
    have htext := henc _ v _ hv (show (blockOf f.address).starting_addr (getOpCode v) = some _ by
      rw [hcode]; rfl)
    obtain ⟨hl, hs⟩ := write_dealloca_fields_lt (lt_of_length_virtText (htext ▸ v.length_text))
    rw [htext]
    exact congrArg Decoded.BlockSize (decodeLinked_write_dealloca hl hs)
  | InvalidCode | BlockAccess =>
    rw [hcode] at hkind
    cases store <;> simp [hkind, isAlloc, isDealloc] at htype

/-! What the completion of an access does to the ledger. -/

theorem liveSize_insert {g : Ledger} {b : Block} (h : b ∉ g.live) (stats : Stats) :
    (Ledger.mk stats (g.live.insert b)).liveSize = g.liveSize + b.block_size := by
  simp [Ledger.liveSize, List.insert_of_not_mem h, add_comm]

theorem liveSize_erase {g : Ledger} {b : Block} (h : b ∈ g.live) (stats : Stats) :
    (Ledger.mk stats (g.live.erase b)).liveSize + b.block_size = g.liveSize := by
  have hperm := (List.perm_cons_erase h).map Block.block_size
  have hsum := hperm.sum_eq
  rw [List.map_cons, List.sum_cons] at hsum
  rw [Ledger.liveSize, Ledger.liveSize, hsum, add_comm]

variable {mem_map : MemMap} {blockOf : ℕ → Block} {LMRefSize LMStoreSize : ℕ} {g : Ledger}
  {f : Frame}

theorem balanced_alloc_iff (hg : Balanced LMRefSize LMStoreSize g) (b : Block) :
    Balanced LMRefSize LMStoreSize ⟨g.stats.allocate b.block_size, g.live.insert b⟩ ↔
      b ∉ g.live := by
  constructor
  · intro h hlive
    have hcount := h.free_lmref
    rw [List.insert_of_mem hlive] at hcount
    have hbefore := hg.free_lmref
    simp only [Stats.allocate] at hcount
    omega
  · intro hnew
    have hsize := liveSize_insert hnew (g.stats.allocate b.block_size)
    obtain ⟨hspace, hlmref, hsum⟩ := hg
    refine ⟨?_, ?_, ?_⟩
    · rw [hsize]
      simp only [Stats.allocate]
      omega
    · simp only [Stats.allocate, List.length_insert_of_not_mem hnew]
      omega
    · rw [hsize]
      simp only [Stats.allocate]
      omega

theorem balanced_dealloc_iff (hg : Balanced LMRefSize LMStoreSize g) (b : Block) (size : ℕ) :
    Balanced LMRefSize LMStoreSize ⟨g.stats.deallocate size, g.live.erase b⟩ ↔
      b ∈ g.live ∧ size = b.block_size := by
  constructor
  · intro h
    have hlive : b ∈ g.live := by
      by_contra hgone
      have hcount := h.free_lmref
      rw [List.erase_of_not_mem hgone] at hcount
      have hbefore := hg.free_lmref
      simp only [Stats.deallocate] at hcount
      omega
    have hsize := liveSize_erase hlive (g.stats.deallocate size)
    have hspace := h.free_space
    have hbefore := hg.free_space
    simp only [Stats.deallocate] at hspace hsize
    exact ⟨hlive, by omega⟩
  · intro h
    obtain ⟨hlive, rfl⟩ := h
    have hsize := liveSize_erase hlive (g.stats.deallocate b.block_size)
    have hlength := List.length_erase_of_mem hlive
    have hpos := List.length_pos_of_mem hlive
    obtain ⟨hspace, hlmref, hsum⟩ := hg
    refine ⟨?_, ?_, ?_⟩
    · simp only [Stats.deallocate] at hsize ⊢
      omega
    · simp only [Stats.deallocate, hlength]
      omega
    · simp only [Stats.deallocate] at hsize ⊢
      omega

theorem balanced_complete_iff (henc : Encoded mem_map blockOf) (hf : Served mem_map f)
    (hg : Balanced LMRefSize LMStoreSize g) :
    Balanced LMRefSize LMStoreSize (g.complete mem_map blockOf f) ↔ Accounted blockOf g f := by
  have hsize := getBlockSize_of_encoded henc hf
  unfold Ledger.complete Accounted
  cases hkind : f.access_type <;> rw [hkind] at hsize
  case Load | Store => simpa [isAlloc, isDealloc] using hg
  case ReadAlloc =>
    have hcounted := hsize (Or.inl (Or.inl rfl))
    simp only [hcounted]
    rw [countedSize, if_neg (by simp), balanced_alloc_iff hg]
    simp [isAlloc, isDealloc]
  case NoReadAlloc =>
    have hcounted := hsize (Or.inl (Or.inr rfl))
    simp only [hcounted]
    rw [countedSize, if_neg (by simp), balanced_alloc_iff hg]
    simp [isAlloc, isDealloc]
  case WriteDealloc =>
    have hcounted := hsize (Or.inr (Or.inl rfl))
    simp only [hcounted]
    rw [countedSize, if_pos rfl, balanced_dealloc_iff hg]
    simp [isAlloc, isDealloc, eq_comm]
  case NoWriteDealloc =>
    have hcounted := hsize (Or.inr (Or.inr rfl))
    simp only [hcounted]
    rw [countedSize, if_neg (by simp), balanced_dealloc_iff hg]
    simp [isAlloc, isDealloc]

/-! Runs. -/

theorem mem_of_unlocking {s : State} {a : Action} (h : f ∈ unlocking s a) :
    f ∈ s.1.accesses := by
  cases a with
  | process id c =>
    obtain ⟨hfind, -⟩ := Option.mem_filter_iff.mp h
    exact List.mem_of_find?_eq_some hfind
  | access store address => cases h
  | tick => cases h
  | reply id error c => cases h

theorem balanced_after_iff (henc : Encoded mem_map blockOf) {s : State} {a : Action}
    (hserved : ∀ f ∈ s.1.accesses, Served mem_map f) (hg : Balanced LMRefSize LMStoreSize g) :
    Balanced LMRefSize LMStoreSize (g.after mem_map blockOf s a) ↔
      ∀ f ∈ unlocking s a, Accounted blockOf g f := by
  unfold Ledger.after
  cases hunlocking : unlocking s a with
  | none => simpa using hg
  | some f =>
    have hmem : f ∈ s.1.accesses := mem_of_unlocking hunlocking
    simpa using balanced_complete_iff henc (hserved f hmem) hg

theorem balanced_setLMStore (LMRefSize LMDirSize LMStoreSize : ℕ) :
    Balanced LMRefSize LMStoreSize ⟨setLMStore LMRefSize LMDirSize LMStoreSize, []⟩ := by
  refine ⟨?_, ?_, ?_⟩ <;> simp [setLMStore, Ledger.liveSize]

/-- The statistics agree with the blocks allocated after every step of a run exactly when blocks are
allocated and deallocated in turn and no write deallocation is of a block that has a size. -/
theorem balanced_run_iff (henc : Encoded mem_map blockOf) (BlockSize LMRefSize LMDirSize
    NumberOfBlocks lmsStoreSize num_ports log_block_size data_latency mm_block_size : ℕ)
    {run : List (Action × State)}
    (hrun : IsRun (Steps mem_map) (initial BlockSize LMRefSize LMDirSize NumberOfBlocks
      lmsStoreSize num_ports log_block_size data_latency mm_block_size) run) :
    (∀ x ∈ audited mem_map blockOf ⟨setLMStore LMRefSize LMDirSize lmsStoreSize, []⟩
        (initial BlockSize LMRefSize LMDirSize NumberOfBlocks lmsStoreSize num_ports log_block_size
          data_latency mm_block_size) run,
      Balanced LMRefSize lmsStoreSize (x.1.after mem_map blockOf x.2.1 x.2.2.1)) ↔
    ∀ x ∈ audited mem_map blockOf ⟨setLMStore LMRefSize LMDirSize lmsStoreSize, []⟩
        (initial BlockSize LMRefSize LMDirSize NumberOfBlocks lmsStoreSize num_ports log_block_size
          data_latency mm_block_size) run,
      ∀ f ∈ unlocking x.2.1 x.2.2.1, Accounted blockOf x.1 f := by
  have hserved : ∀ (g : Ledger) (s : State) (a : Action) (t : State),
      (∀ f ∈ s.1.accesses, Served mem_map f) → Steps mem_map s a t →
      ∀ f ∈ t.1.accesses, Served mem_map f := by
    intro g s a t hs hstep
    obtain ⟨⟨m', e⟩, hr, rfl⟩ := Option.map_eq_some_iff.mp hstep
    exact served_step hr hs
  refine ghosts_good_iff (f := fun g s a _ => Ledger.after mem_map blockOf g s a)
    (R := fun _ s => ∀ f ∈ s.1.accesses, Served mem_map f)
    (P := fun g _ => Balanced LMRefSize lmsStoreSize g)
    (C := fun g s a => ∀ f ∈ unlocking s a, Accounted blockOf g f) hserved ?_ hrun ?_ ?_
  · intro g s a t hs hg hstep
    exact balanced_after_iff henc hs hg
  · simp [initial, Module.new]
  · exact balanced_setLMStore LMRefSize LMDirSize lmsStoreSize

def twelveBytes : ℕ → Block := fun _ => ⟨1, 2, 12⟩

def itsSections : MemMap
  | 0x020c => some (translated 0x7101020c (by norm_num))
  | 0x120c => some (translated 0x7301020c (by norm_num))
  | 0x2200 => some (translated 0x75010200 (by norm_num))
  | _ => none

theorem encoded_itsSections : Encoded itsSections twelveBytes := by
  intro address v t hv ht
  unfold PhyToVirt itsSections at hv
  split at hv
  · cases hv
    have : t = no_read_alloca_starting_addr 1 2 12 := (Option.some.inj ht).symm
    rw [this]
    decide
  · cases hv
    have : t = no_write_dealloca_starting_addr 1 2 12 := (Option.some.inj ht).symm
    rw [this]
    decide
  · cases hv
    have : t = write_dealloca_starting_addr 1 2 := (Option.some.inj ht).symm
    rw [this]
    decide
  · cases hv

/-- The block is allocated and then deallocated through an address. -/
def allocatedOnce (address : ℕ) : List Action :=
  .access false 0x020c :: events 0 4 ++ [.tick, .tick] ++ events 0 1 ++
    .access false address :: events 1 4

def twoByTwo : State := initial 64 2 2 2 64 1 6 2 64

theorem balanced_noWriteDealloc :
    (follow itsSections twoByTwo (allocatedOnce 0x120c)).length =
        (allocatedOnce 0x120c).length ∧
      ∀ x ∈ audited itsSections twelveBytes ⟨setLMStore 2 2 64, []⟩ twoByTwo
          (follow itsSections twoByTwo (allocatedOnce 0x120c)),
        Balanced 2 64 (x.1.after itsSections twelveBytes x.2.1 x.2.2.1) :=
  ⟨by decide +kernel, (balanced_run_iff encoded_itsSections 64 2 2 2 64 1 6 2 64
    (isRun_follow itsSections twoByTwo (allocatedOnce 0x120c))).mpr (by decide +kernel)⟩

/-- After its write deallocation the space of the block is still missing. -/
theorem balanced_fails :
    ¬ ∀ (mem_map : MemMap) (blockOf : ℕ → Block) (BlockSize LMRefSize LMDirSize NumberOfBlocks
      lmsStoreSize num_ports log_block_size data_latency mm_block_size : ℕ)
      (run : List (Action × State)), Encoded mem_map blockOf →
      IsRun (Steps mem_map) (initial BlockSize LMRefSize LMDirSize NumberOfBlocks lmsStoreSize
        num_ports log_block_size data_latency mm_block_size) run →
      ∀ x ∈ audited mem_map blockOf ⟨setLMStore LMRefSize LMDirSize lmsStoreSize, []⟩
        (initial BlockSize LMRefSize LMDirSize NumberOfBlocks lmsStoreSize num_ports log_block_size
          data_latency mm_block_size) run,
        Balanced LMRefSize lmsStoreSize (x.1.after mem_map blockOf x.2.1 x.2.2.1) := by
  intro h
  have hbalanced := h itsSections twelveBytes 64 2 2 2 64 1 6 2 64
    (follow itsSections twoByTwo (allocatedOnce 0x2200)) encoded_itsSections
    (isRun_follow itsSections twoByTwo (allocatedOnce 0x2200))
  have hmissing : ¬ ∀ x ∈ audited itsSections twelveBytes ⟨setLMStore 2 2 64, []⟩ twoByTwo
      (follow itsSections twoByTwo (allocatedOnce 0x2200)),
      Balanced 2 64 (x.1.after itsSections twelveBytes x.2.1 x.2.2.1) := by decide +kernel
  exact hmissing hbalanced

end MMLMStore.LMStoreStats
