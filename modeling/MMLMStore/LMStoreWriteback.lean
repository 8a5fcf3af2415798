import MMLMStore.LMStoreOrder
import MMLMStore.LMStoreTurns

/-!
# Write-backs of deallocated blocks

Which write deallocations send their block to main memory first. The chain tests a field of its own
frame for the modified state, but only find-and-lock fills that field, and a deallocation never
calls it.
-/
namespace MMLMStore.LMStoreWriteback
open LMStoreDecode LMStoreEvents LMStoreOrder LMStoreTables LMStoreTurns StepRuns

def lastWrite (mem_map : MemMap) (log : List Effect) (entry : Option ℕ) : Option Operation :=
  (log.reverse.find? fun x => entryIndex mem_map x.address = entry ∧
    (x.op = .allocateBlock ∨ x.op = .setBlockState)).map Effect.op

/-- A store to the entry has completed since its allocation. -/
def StoredSince (mem_map : MemMap) (log : List Effect) (address : ℕ) : Prop :=
  lastWrite mem_map log (entryIndex mem_map address) = some .setBlockState

instance (mem_map : MemMap) (log : List Effect) (address : ℕ) :
    Decidable (StoredSince mem_map log address) := inferInstanceAs (Decidable (_ = _))

/-- State of the directory entry that an address names. -/
def stateAt (mem_map : MemMap) (s : LMStore) (address : ℕ) : Option BlockState := do
  let v ← PhyToVirt mem_map address
  let (_, e) ← entryOf s v
  some e.state

theorem FindBlock_eq (mem_map : MemMap) (s : LMStore) (address : ℕ) :
    FindBlock mem_map s address =
      (stateAt mem_map s address).map fun state => (decide (state ≠ .BlockInvalid), state) := by
  unfold FindBlock stateAt
  cases PhyToVirt mem_map address with
  | none => rfl
  | some v => cases h : entryOf s v <;> simp [h]

/-- The access has waited for main memory: its write requests have been issued. -/
def Issued (past : List State) (s : State) (f : Frame) : Prop :=
  ∃ u ∈ past ++ [s], ∃ g ∈ u.1.accesses, g.id = f.id ∧ g.access_type = f.access_type ∧
    g.status = .awaiting

instance (past : List State) (s : State) (f : Frame) : Decidable (Issued past s f) :=
  inferInstanceAs (Decidable (∃ u ∈ past ++ [s], ∃ g ∈ u.1.accesses, _))

/-- Write deallocations that call `deallocateBlock` in a step. -/
def writeDeallocs (s t : State) : List Frame :=
  s.1.accesses.filter fun f => f.access_type = .WriteDealloc ∧
    ∃ x ∈ t.2.drop s.2.length, x.id = f.id ∧ x.op = .deallocateBlock

/-- Every block that a step deallocates for a write deallocation was written back before if and only
if it was stored to, and if its directory entry is modified. -/
def WritesBack (mem_map : MemMap) (past : List State) (s t : State) : Prop :=
  ∀ f ∈ writeDeallocs s t, (Issued past s f ↔ StoredSince mem_map s.2 f.address) ∧
    (stateAt mem_map s.1.lmstore f.address = some .BlockModified → Issued past s f)

instance (mem_map : MemMap) (past : List State) (s t : State) :
    Decidable (WritesBack mem_map past s t) :=
  inferInstanceAs (Decidable (∀ f ∈ writeDeallocs s t, _))

def Unmodified (mem_map : MemMap) (s t : State) : Prop :=
  ∀ f ∈ writeDeallocs s t, ¬ StoredSince mem_map s.2 f.address

instance (mem_map : MemMap) (s t : State) : Decidable (Unmodified mem_map s t) :=
  inferInstanceAs (Decidable (∀ f ∈ writeDeallocs s t, _))

/-! The chain of a deallocation. -/

/-- A deallocation never calls find-and-lock nor waits for main memory. -/
def DeallocChain (f : Frame) : Prop :=
  isDealloc f.access_type → f.state = .BlockInvalid ∧ f.status ≠ .awaiting ∧
    f.status.event ∈ [Event.lock, .action, .unlock, .finish]

theorem Status.wakeup_eq_awaiting {time : ℕ} {s : Status} :
    s.wakeup time = .awaiting ↔ s = .awaiting := by
  cases s <;> simp [Status.wakeup]

theorem deallocChain_wakeup (f : Frame) (time : ℕ) (h : DeallocChain f) :
    DeallocChain (f.wakeup time) := by
  intro htype
  obtain ⟨hstate, hawaiting, hevent⟩ := h htype
  refine ⟨hstate, fun h => hawaiting (Status.wakeup_eq_awaiting.mp h), ?_⟩
  rw [Frame.wakeup, Status.event_wakeup]
  exact hevent

theorem deallocChain_turn {mem_map : MemMap} {m : Module} {f f' : Frame} {c : Choice}
    {lmstore : LMStore} {e : Option Effect} (h : DeallocChain f)
    (hturn : Turn mem_map m f c f' lmstore e) : DeallocChain f' := by
  intro htype
  rw [hturn.access_type] at htype
  obtain ⟨hstate, hawaiting, hevent⟩ := h htype
  cases hturn with
  | wait | pass | retryLookup | load | store | deallocate | unlock => simp [hstate, Status.event]
  | lookup time hlock hnone hload =>
    rcases hload with h | h <;> simp [h, isDealloc] at htype
  | lockPort status hthis | find time hit blockstate hthis | unlockPort time hthis
  | found time hthis | replied hthis | retryRequest time hthis
  | allocate time hit lmstore hthis => simp [hthis] at hevent
  | noRead time hthis hnoRead => simp [hnoRead, isDealloc] at htype
  | request pending hthis hkind =>
    rcases hkind with h | ⟨-, h⟩
    · simp [h, isDealloc] at htype
    · simp [h] at hstate

theorem deallocChain_step {mem_map : MemMap} {m m' : Module} {a : Action} {e : Option Effect}
    (h : step mem_map m a = some (m', e)) (hm : ∀ f ∈ m.accesses, DeallocChain f) :
    ∀ f ∈ m'.accesses, DeallocChain f := by
  refine frames_step deallocChain_wakeup (fun id address time store _ _ => ?_) ?_ h hm
  · simp [Frame.new, Status.event]
  · intro m f error c f' lmstore e hf hturn
    exact deallocChain_turn (f := { f with error := error }) hf hturn

/-! Directory states and the operations made. -/

/-- Reference entries keep the directory index that `initLMRef` gives them. -/
def RefsInOrder (s : LMStore) : Prop := ∀ i j, dirIndex s i = some j → j = i

theorem getOpCode_of_digits {v : VirtAddr} {c d : Char} (h : addrPrefix v.text = [c, d]) :
    getOpCode v = if d = '6' then .BlockAccess else opCodeOf d := by
  rw [getOpCode, second_digit h]
  by_cases hd : d = '6'
  · rw [hd]
    rfl
  · rw [if_neg hd]
    split
    · rename_i hsix
      exact absurd (Option.some.inj hsix) hd
    · rename_i hsome
      rw [Option.some.inj hsome]
    · rename_i hnone
      cases hnone

/-- Allocations are issued at addresses that `allocateBlock` accepts. -/
theorem prefix_of_alloc {mem_map : MemMap} {f : Frame} (h : Served mem_map f)
    (htype : isAlloc f.access_type) : ∃ v, PhyToVirt mem_map f.address = some v ∧
      (addrPrefix v.text = ['7', '1'] ∨ addrPrefix v.text = ['7', '4']) := by
  obtain ⟨hserves, store, hkind⟩ := h
  obtain ⟨v, hv, hprefix⟩ := ServesAddress_iff.mp hserves
  refine ⟨v, hv, ?_⟩
  rw [hkind, accessTypeOf, hv, Option.map_some] at htype
  simp only [List.mem_cons, List.not_mem_nil, or_false] at hprefix
  rcases hprefix with h | h | h | h | h
  · exact Or.inl h
  · rw [getOpCode_of_digits h] at htype
    cases store <;> simp [opCodeOf, isAlloc] at htype
  · rw [getOpCode_of_digits h] at htype
    simp [opCodeOf, isAlloc] at htype
  · exact Or.inr h
  · rw [getOpCode_of_digits h] at htype
    simp [opCodeOf, isAlloc] at htype

def Operation.leaves : Operation → Option BlockState
  | .allocateBlock => some .BlockExclusive
  | .setBlockState => some .BlockModified
  | .deallocateBlock => some .BlockInvalid
  | .FindBlock => none

/-- An operation changes the state of one entry, and a lookup changes nothing. -/
theorem operation_of_turn {mem_map : MemMap} {m : Module} {f f' : Frame} {c : Choice}
    {lmstore : LMStore} {e : Option Effect} (hf : Served mem_map f)
    (h : Turn mem_map m f c f' lmstore e) :
    (lmstore = m.lmstore ∧ ∀ x ∈ e, x.op = .FindBlock) ∨
      ∃ op st v i old new, e = some ⟨f.id, f.address, op⟩ ∧ Operation.leaves op = some st ∧
        PhyToVirt mem_map f.address = some v ∧ entryOf m.lmstore v = some (i, old) ∧
        lmstore.LMRef = m.lmstore.LMRef ∧ lmstore.LMDir = m.lmstore.LMDir.set i new ∧
        new.state = st := by
  obtain ⟨v, hv, hprefix⟩ := ServesAddress_iff.mp hf.1
  cases h with
  | store time _ hevent htype hset =>
    right
    rcases setBlockState_cases hset with ⟨-, hunknown⟩ | ⟨w, i, old, hw, -, hentry, rfl⟩
    · refine absurd ?_ (hunknown v hv)
      revert hprefix
      simp only [List.mem_cons]
      tauto
    · exact ⟨.setBlockState, _, w, i, old, _, rfl, rfl, hw, hentry, rfl, rfl, rfl⟩
  | allocate time hit _ hevent htype halloc =>
    right
    obtain ⟨w, hw, hallocates⟩ := prefix_of_alloc hf htype
    rcases allocateBlock_cases halloc with ⟨-, -, hrefused⟩ | ⟨-, v, i, old, hv, -, hentry, rfl⟩
    · have := hrefused w hw
      tauto
    · exact ⟨.allocateBlock, _, v, i, old, _, rfl, rfl, hv, hentry, rfl, rfl, rfl⟩
  | deallocate time pending hit _ hevent htype hdealloc =>
    right
    rcases deallocateBlock_cases hdealloc with ⟨-, -, hunmapped⟩ |
      ⟨-, v, i, old, freed, hv, hentry, -, rfl⟩
    · rw [hv] at hunmapped
      cases hunmapped
    · exact ⟨.deallocateBlock, _, v, i, old, _, rfl, rfl, hv, hentry, rfl, rfl, rfl⟩
  | find => exact Or.inl ⟨rfl, by simp⟩
  | _ => exact Or.inl ⟨rfl, by simp⟩

theorem stateAt_set {mem_map : MemMap} {s t : LMStore} {address : ℕ} {v : VirtAddr} {i : ℕ}
    {old new : LMDir_t} (hrefs : RefsInOrder s) (hv : PhyToVirt mem_map address = some v)
    (hentry : entryOf s v = some (i, old)) (hLMRef : t.LMRef = s.LMRef)
    (hLMDir : t.LMDir = s.LMDir.set i new) (other : ℕ) :
    stateAt mem_map t other = (stateAt mem_map s other).map fun st =>
      if entryIndex mem_map address = entryIndex mem_map other then new.state else st := by
  unfold stateAt
  cases hw : PhyToVirt mem_map other with
  | none => rfl
  | some w =>
    have hdir : dirIndex t (DecodeAddress w.text).LMRefIndex =
        dirIndex s (DecodeAddress w.text).LMRefIndex := by rw [dirIndex, dirIndex, hLMRef]
    simp only [entryOf, hdir, hLMDir, Option.bind_eq_bind, Option.bind_some]
    cases hj : dirIndex s (DecodeAddress w.text).LMRefIndex with
    | none => rfl
    | some j =>
      have hi := hrefs _ _ (entryOf_eq_some.mp hentry).1
      have hindex : entryIndex mem_map address = entryIndex mem_map other ↔ i = j := by
        rw [entryIndex, entryIndex, hv, hw, Option.map_some, Option.map_some, Option.some.injEq, hi,
          hrefs _ _ hj]
      simp only [hindex, Option.bind_some, List.getElem?_set']
      cases s.LMDir[j]? with
      | none => split_ifs <;> rfl
      | some e => split_ifs <;> rfl

theorem lastWrite_append (mem_map : MemMap) (log : List Effect) (x : Effect) (entry : Option ℕ) :
    lastWrite mem_map (log ++ [x]) entry =
      if entryIndex mem_map x.address = entry ∧ (x.op = .allocateBlock ∨ x.op = .setBlockState)
      then some x.op else lastWrite mem_map log entry := by
  unfold lastWrite
  rw [List.reverse_append, List.reverse_singleton, List.singleton_append, List.find?_cons]
  by_cases h : entryIndex mem_map x.address = entry ∧
      (x.op = .allocateBlock ∨ x.op = .setBlockState)
  · simp [h]
  · simp [h]

/-! Runs. -/

/-- What holds throughout: a modified entry has been stored to since its allocation. -/
structure Tracked (mem_map : MemMap) (s : State) : Prop where
  served : ∀ f ∈ s.1.accesses, Served mem_map f
  chain : ∀ f ∈ s.1.accesses, DeallocChain f
  refs : RefsInOrder s.1.lmstore
  modified : ∀ address, stateAt mem_map s.1.lmstore address = some .BlockModified →
    StoredSince mem_map s.2 address

/-- A step that changes no table and makes at most a lookup. -/
theorem Tracked.modified_of_same {mem_map : MemMap} {s : State} (h : Tracked mem_map s)
    {m' : Module} {e : Option Effect} (hlmstore : m'.lmstore = s.1.lmstore)
    (he : ∀ x ∈ e, x.op = .FindBlock) (address : ℕ)
    (hmodified : stateAt mem_map m'.lmstore address = some .BlockModified) :
    StoredSince mem_map (s.2 ++ e.toList) address := by
  rw [hlmstore] at hmodified
  have hbefore := h.modified address hmodified
  cases e with
  | none =>
    rw [Option.toList_none, List.append_nil]
    exact hbefore
  | some x =>
    have hx : x.op = .FindBlock := he x rfl
    rw [StoredSince, Option.toList_some, lastWrite_append, if_neg (by simp [hx])]
    exact hbefore

theorem Tracked.turn {mem_map : MemMap} {s : State} (h : Tracked mem_map s) {f : Frame}
    {c : Choice} {m' : Module} {e : Option Effect} (hf : Served mem_map f)
    (hturned : Turned mem_map s.1 f c (m', e)) : RefsInOrder m'.lmstore ∧
      ∀ address, stateAt mem_map m'.lmstore address = some .BlockModified →
        StoredSince mem_map (s.2 ++ e.toList) address := by
  rcases hturned with ⟨-, hr⟩ | ⟨f', hturn, -⟩
  · cases hr
    exact ⟨h.refs, h.modified_of_same rfl (by simp)⟩
  rcases operation_of_turn hf hturn with ⟨hlmstore, he⟩ |
    ⟨op, st, v, i, old, new, rfl, hleaves, hv, hentry, hLMRef, hLMDir, hnew⟩
  · have hlmstore : m'.lmstore = s.1.lmstore := hlmstore
    exact ⟨by rw [hlmstore]; exact h.refs, h.modified_of_same hlmstore he⟩
  refine ⟨fun k j hk => h.refs k j ?_, fun address hmodified => ?_⟩
  · rw [← hk, dirIndex, dirIndex, hLMRef]
  · rw [stateAt_set h.refs hv hentry hLMRef hLMDir] at hmodified
    obtain ⟨before, hbefore, hstate⟩ := Option.map_eq_some_iff.mp hmodified
    rw [StoredSince, Option.toList_some, lastWrite_append]
    split_ifs at hstate with hsame
    · -- only a store leaves the entry modified
      rw [hnew] at hstate
      have hop : op = .setBlockState := by
        revert hleaves
        rw [hstate]
        cases op <;> simp [Operation.leaves]
      rw [if_pos ⟨hsame, Or.inr hop⟩, hop]
    · rw [hstate] at hbefore
      rw [if_neg fun h => hsame h.1]
      exact h.modified address hbefore

theorem tracked_step {mem_map : MemMap} {s t : State} {a : Action} (h : Tracked mem_map s)
    (hstep : Steps mem_map s a t) : Tracked mem_map t := by
  obtain ⟨⟨m', e⟩, hr, rfl⟩ := Option.map_eq_some_iff.mp hstep
  have hrest : RefsInOrder m'.lmstore ∧
      ∀ address, stateAt mem_map m'.lmstore address = some .BlockModified →
        StoredSince mem_map (s.2 ++ e.toList) address := by
    rcases step_turned hr with ⟨rfl, store, address, -, -, rfl⟩ | ⟨rfl, -, rfl⟩ |
      ⟨f, c, hf, -, hturned⟩ | ⟨f, error, c, hf, -, -, hturned⟩
    · exact ⟨h.refs, h.modified_of_same rfl (by simp)⟩
    · exact ⟨h.refs, h.modified_of_same rfl (by simp)⟩
    · exact h.turn (h.served f (List.mem_of_find?_eq_some hf)) hturned
    · have hserved := h.served f (List.mem_of_find?_eq_some hf)
      exact h.turn (f := { f with error := error }) hserved hturned
  exact ⟨served_step hr h.served, deallocChain_step hr h.chain, hrest.1, hrest.2⟩

theorem tracked_initial (mem_map : MemMap) (BlockSize LMRefSize LMDirSize NumberOfBlocks
    lmsStoreSize num_ports log_block_size data_latency mm_block_size : ℕ) :
    Tracked mem_map (initial BlockSize LMRefSize LMDirSize NumberOfBlocks lmsStoreSize num_ports
      log_block_size data_latency mm_block_size) where
  served := by simp [initial, Module.new]
  chain := by simp [initial, Module.new]
  refs := by
    intro i j h
    rw [dirIndex, initial, Module.new, new_LMRef] at h
    split_ifs at h
    · exact (Option.some.inj h).symm
    · cases h
  modified := by
    intro address h
    obtain ⟨v, -, hstate⟩ := Option.bind_eq_some_iff.mp h
    obtain ⟨⟨i, e⟩, hentry, hst⟩ := Option.bind_eq_some_iff.mp hstate
    have he := new_LMDir _ _ _ _ _ (List.mem_of_getElem? (entryOf_eq_some.mp hentry).2)
    rw [he] at hst
    cases hst

/-- The requests of a deallocation are never issued, so the step is right when nothing was
stored. -/
theorem writesBack_iff {mem_map : MemMap} {past : List State} {s t : State}
    (hpast : ∀ u ∈ past, Tracked mem_map u) (hs : Tracked mem_map s) :
    WritesBack mem_map past s t ↔ Unmodified mem_map s t := by
  have hnever : ∀ f ∈ writeDeallocs s t, ¬ Issued past s f := by
    intro f hf hissued
    obtain ⟨u, hu, g, hg, -, htype, hawaiting⟩ := hissued
    have hu : Tracked mem_map u := by
      rcases List.mem_append.mp hu with hu | hu
      · exact hpast u hu
      · rw [List.mem_singleton.mp hu]
        exact hs
    obtain ⟨-, hkind⟩ := List.mem_filter.mp hf
    have hdealloc : f.access_type = .WriteDealloc := (of_decide_eq_true hkind).1
    exact (hu.chain g hg (Or.inl (htype.trans hdealloc))).2.1 hawaiting
  constructor
  · intro h f hf hstored
    exact hnever f hf ((h f hf).1.mpr hstored)
  · intro h f hf
    refine ⟨⟨fun hissued => absurd hissued (hnever f hf), fun hstored => ?_⟩, fun hmodified => ?_⟩
    · exact absurd hstored (h f hf)
    · exact absurd (hs.modified f.address hmodified) (h f hf)

/-- In a run every write deallocation writes back what it has to exactly when no block is stored to
between its allocation and its write deallocation. -/
theorem writesBack_run_iff (mem_map : MemMap) (BlockSize LMRefSize LMDirSize NumberOfBlocks
    lmsStoreSize num_ports log_block_size data_latency mm_block_size : ℕ)
    {run : List (Action × State)}
    (hrun : IsRun (Steps mem_map) (initial BlockSize LMRefSize LMDirSize NumberOfBlocks
      lmsStoreSize num_ports log_block_size data_latency mm_block_size) run) :
    (∀ x ∈ visits (initial BlockSize LMRefSize LMDirSize NumberOfBlocks lmsStoreSize num_ports
        log_block_size data_latency mm_block_size) run,
      WritesBack mem_map x.1 x.2.1 x.2.2.2) ↔
    ∀ x ∈ visits (initial BlockSize LMRefSize LMDirSize NumberOfBlocks lmsStoreSize num_ports
        log_block_size data_latency mm_block_size) run,
      Unmodified mem_map x.2.1 x.2.2.2 := by
  have hall := visits_invariant (I := Tracked mem_map) (fun s a t h hstep => tracked_step h hstep)
    hrun (tracked_initial mem_map BlockSize LMRefSize LMDirSize NumberOfBlocks lmsStoreSize
      num_ports log_block_size data_latency mm_block_size)
  refine forall₂_congr fun x hx => ?_
  exact writesBack_iff (hall x hx).1.1 (hall x hx).1.2

/-- A block of sixteen bytes: its allocation, an access and its write deallocation. -/
def oneBlock : MemMap
  | 0x0210 => some (translated 0x71020210 (by norm_num))
  | 0x1000 => some (translated 0x72020000 (by norm_num))
  | 0x2200 => some (translated 0x75020200 (by norm_num))
  | _ => none

def threeEntries : State := initial 64 3 3 3 64 1 6 2 64

def accessed (store : Bool) : List Action :=
  allocated 0 0x0210 ++ .access store 0x1000 :: events 1 3 ++ [.tick, .tick] ++ events 1 4 ++
    [.tick, .tick] ++ events 1 1 ++ .access false 0x2200 :: events 2 4

theorem writesBack_loaded :
    (follow oneBlock threeEntries (accessed false)).length = (accessed false).length ∧
      ∀ x ∈ visits threeEntries (follow oneBlock threeEntries (accessed false)),
        WritesBack oneBlock x.1 x.2.1 x.2.2.2 :=
  ⟨by decide +kernel, (writesBack_run_iff oneBlock 64 3 3 3 64 1 6 2 64
    (isRun_follow oneBlock threeEntries (accessed false))).mpr (by decide +kernel)⟩

/-- The stored block is deallocated without a write request. -/
theorem writesBack_fails :
    ¬ ∀ (mem_map : MemMap) (BlockSize LMRefSize LMDirSize NumberOfBlocks lmsStoreSize num_ports
      log_block_size data_latency mm_block_size : ℕ) (run : List (Action × State)),
      IsRun (Steps mem_map) (initial BlockSize LMRefSize LMDirSize NumberOfBlocks lmsStoreSize
        num_ports log_block_size data_latency mm_block_size) run →
      ∀ x ∈ visits (initial BlockSize LMRefSize LMDirSize NumberOfBlocks lmsStoreSize num_ports
        log_block_size data_latency mm_block_size) run, WritesBack mem_map x.1 x.2.1 x.2.2.2 := by
  intro h
  have hstored := h oneBlock 64 3 3 3 64 1 6 2 64
    (follow oneBlock threeEntries (accessed true))
    (isRun_follow oneBlock threeEntries (accessed true))
  have hfails : ¬ ∀ x ∈ visits threeEntries (follow oneBlock threeEntries (accessed true)),
      WritesBack oneBlock x.1 x.2.1 x.2.2.2 := by decide +kernel
  exact hfails hstored

end MMLMStore.LMStoreWriteback
