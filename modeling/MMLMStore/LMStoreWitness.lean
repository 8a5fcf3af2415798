import MMLMStore.LMStoreWriteback

/-!
# Witness counters of LMStore accesses

The counter that `Module::Access` is given with an access, and the events that increment it. A store
hands its pointer to find-and-lock, which increments the counter once for a hit and once more for
the write.
-/
namespace MMLMStore.LMStoreWitness
open LMStoreDecode LMStoreEvents LMStoreOrder LMStoreTables LMStoreTurns LMStoreWriteback StepRuns

/-- Witness of an access: which frames hold the pointer, the counter, and whether the lookup has
found its block. -/
structure Witness where
  /-- `frame->witness` is set. -/
  own : Bool
  /-- The pointer of the find-and-lock frame is set. -/
  inner : Bool
  count : ℕ
  hit : Bool
  deriving DecidableEq, Repr

def Witness.new : Witness := ⟨true, false, 0, false⟩

def Witness.increment (w : Witness) : Witness :=
  if w.own then { w with count := w.count + 1 } else w

/-- `lmstore_find_and_lock_port` of a write. -/
def Witness.find (w : Witness) (hit : Bool) : Witness :=
  let w := { w with hit := hit }
  let w := if hit ∧ w.inner then { w with count := w.count + 1 } else w
  if w.inner then { w with count := w.count + 1, inner := false } else w

/-- What the event that runs for an access does to its witness. -/
def witnessAfter (mem_map : MemMap) (m : Module) (f : Frame) (c : Choice) (w : Witness) :
    Witness :=
  match f.status.event, f.access_type with
  -- a store hands the pointer over and keeps none for retries
  | .lock, .Store =>
    if waitedFor m f c = none then { w with own := false, inner := w.own } else w
  | .find_and_lock_port, .Store =>
    w.find ((FindBlock mem_map m.lmstore f.address).any Prod.fst)
  -- `write_request_finish`, on the way back to the deallocation
  | .process, .WriteDealloc => w.increment
  | .process, .NoWriteDealloc => w.increment
  | .finish, .Store => w
  | .finish, _ => w.increment
  | _, _ => w

abbrev Witnesses := ℕ → Witness

def witnessesAfter (mem_map : MemMap) (w : Witnesses) (s : State) : Action → Witnesses
  | .access _ _ => Function.update w s.1.next_id .new
  | .tick => w
  | .process id c | .reply id _ c =>
    (s.1.accesses.find? (·.id = id)).elim w fun f =>
      Function.update w id (witnessAfter mem_map s.1 f c (w id))

def witnessed (mem_map : MemMap) (s : State) (run : List (Action × State)) :
    List (Witnesses × State × Action × State) :=
  ghosts (fun w s a _ => witnessesAfter mem_map w s a) (fun _ => .new) s run

def finishing (s : State) : Action → List Frame
  | .process id _ => s.1.accesses.filter fun f => f.id = id ∧ f.status.event = .finish
  | _ => []

def OnceFinished (mem_map : MemMap) (w : Witnesses) (s : State) (a : Action) : Prop :=
  ∀ f ∈ finishing s a, (witnessesAfter mem_map w s a f.id).count = 1

instance (mem_map : MemMap) (w : Witnesses) (s : State) (a : Action) :
    Decidable (OnceFinished mem_map w s a) :=
  inferInstanceAs (Decidable (∀ f ∈ finishing s a, _))

def StoresMissed (w : Witnesses) (s : State) (a : Action) : Prop :=
  ∀ f ∈ finishing s a, f.access_type = .Store → (w f.id).hit = false

instance (w : Witnesses) (s : State) (a : Action) : Decidable (StoresMissed w s a) :=
  inferInstanceAs (Decidable (∀ f ∈ finishing s a, _))

/-! Witnesses of the accesses in flight. -/

/-- Witness of a store at each of its events. -/
def StoreHolds (w : Witness) : Event → Prop
  | .lock => w.own = true ∧ w.count = 0
  | .find_and_lock => w.inner = true ∧ w.count = 0
  | .find_and_lock_port => w.inner = true ∧ w.count = 0
  | .process => False
  | _ => w.count = if w.hit then 2 else 1

/-- A store is never repeated; other accesses keep their pointer to the end. -/
structure Holds (f : Frame) (w : Witness) : Prop where
  store : f.access_type = .Store →
    f.error = false ∧ f.status ≠ .awaiting ∧ StoreHolds w f.status.event
  other : f.access_type ≠ .Store → w.own = true ∧ w.count = 0

theorem Holds.wakeup {f : Frame} {w : Witness} (h : Holds f w) (time : ℕ) :
    Holds (f.wakeup time) w where
  store := by
    intro htype
    obtain ⟨herror, hawaiting, hstore⟩ := h.store htype
    refine ⟨herror, fun h => hawaiting (Status.wakeup_eq_awaiting.mp h), ?_⟩
    rw [Frame.wakeup, Status.event_wakeup]
    exact hstore
  other := h.other

theorem find_count {w : Witness} (hinner : w.inner = true) (hcount : w.count = 0) (hit : Bool) :
    (w.find hit).count = if (w.find hit).hit then 2 else 1 := by
  cases hit <;> simp [Witness.find, hinner, hcount]

theorem storeHolds_turn {mem_map : MemMap} {m : Module} {f f' : Frame} {c : Choice}
    {lmstore : LMStore} {e : Option Effect} {w : Witness} (htype : f.access_type = .Store)
    (herror : f.error = false) (h : StoreHolds w f.status.event)
    (hturn : Turn mem_map m f c f' lmstore e) :
    f'.error = false ∧ f'.status ≠ .awaiting ∧
      StoreHolds (witnessAfter mem_map m f c w) f'.status.event := by
  unfold witnessAfter
  cases hturn with
  | wait older hevent holder =>
    rw [hevent] at h
    have hqueued : (Status.inQueue older.id .lock).event = .lock := rfl
    simpa [hevent, htype, holder, herror, hqueued] using h
  | lookup time hevent hnone hkind =>
    rw [hevent] at h
    simpa [hevent, htype, hnone, herror, StoreHolds] using h
  | lockPort status hevent hstatus hnot =>
    rw [hevent] at h
    simpa [hevent, htype, hstatus, hnot, StoreHolds] using h
  | find time hit blockstate hevent hfind =>
    rw [hevent] at h
    have hcount := find_count h.1 h.2 hit
    simpa [hevent, htype, hfind, herror, StoreHolds] using hcount
  | unlockPort time hevent | found time hevent | store time lmstore hevent | unlock time hevent =>
    rw [hevent] at h
    simpa [hevent, htype, herror, StoreHolds] using h
  | retryLookup time hevent hretry => simp [herror] at hretry
  | pass time hevent hnone hkind => simp [htype, isAlloc, isDealloc] at hkind
  | load time hevent hkind | noRead time hevent hkind => simp [htype] at hkind
  | request pending hevent hkind => simp [htype] at hkind
  | replied hevent | retryRequest time hevent | allocate time hit lmstore hevent =>
    rw [hevent] at h
    exact h.elim
  | deallocate time pending hit lmstore hevent hkind => simp [htype, isDealloc] at hkind

/-- No turn but the last touches the witness of another access. -/
theorem witnessAfter_of_turn {mem_map : MemMap} {m : Module} {f f' : Frame} {c : Choice}
    {lmstore : LMStore} {e : Option Effect} (w : Witness) (htype : f.access_type ≠ .Store)
    (hchain : DeallocChain f) (hturn : Turn mem_map m f c f' lmstore e) :
    witnessAfter mem_map m f c w = w := by
  have hprocess : f.status.event = .process → ¬ isDealloc f.access_type := by
    intro hevent hkind
    have hmem := (hchain hkind).2.2
    simp [hevent] at hmem
  have hfinish : f.status.event ≠ .finish := by
    cases hturn with
    | deallocate time pending hit lmstore hevent => rcases hevent with h | h <;> simp [h]
    | _ => simp_all
  unfold witnessAfter
  cases hevent : f.status.event <;> cases hkind : f.access_type <;>
    simp_all [isDealloc]

theorem holds_turn {mem_map : MemMap} {m : Module} {f f' : Frame} {c : Choice}
    {lmstore : LMStore} {e : Option Effect} {w : Witness} (h : Holds f w)
    (hchain : DeallocChain f) (hturn : Turn mem_map m f c f' lmstore e) :
    Holds f' (witnessAfter mem_map m f c w) where
  store := by
    intro htype
    rw [hturn.access_type] at htype
    obtain ⟨herror, -, hstore⟩ := h.store htype
    exact storeHolds_turn htype herror hstore hturn
  other := by
    intro htype
    rw [hturn.access_type] at htype
    rw [witnessAfter_of_turn w htype hchain hturn]
    exact h.other htype

/-! Runs. -/

structure Counted (w : Witnesses) (s : State) : Prop where
  ascending : Ascending s.1
  chain : ∀ f ∈ s.1.accesses, DeallocChain f
  holds : ∀ f ∈ s.1.accesses, Holds f (w f.id)

theorem holds_turned {mem_map : MemMap} {w : Witnesses} {m m' : Module} {f : Frame} {c : Choice}
    {e : Option Effect} (hall : ∀ g ∈ m.accesses, Holds g (w g.id)) (hf : Holds f (w f.id))
    (hchain : DeallocChain f) (h : Turned mem_map m f c (m', e)) : ∀ g ∈ m'.accesses,
      Holds g (Function.update w f.id (witnessAfter mem_map m f c (w f.id)) g.id) := by
  refine h.forall_frames (fun g hg hid => ?_) fun f' hturn => ?_
  · have hwoken : (g.wakeup m.time).id = g.id := rfl
    rw [hwoken, Function.update_of_ne hid]
    exact ⟨hall g hg, (hall g hg).wakeup _⟩
  · rw [hturn.id, Function.update_self]
    exact holds_turn hf hchain hturn

theorem holds_new (id address time : ℕ) (access_type : AccessType) :
    Holds (Frame.new id address access_type time) .new where
  store := fun _ => ⟨rfl, nofun, rfl, rfl⟩
  other := fun _ => ⟨rfl, rfl⟩

theorem counted_step {mem_map : MemMap} {w : Witnesses} {s t : State} {a : Action}
    (h : Counted w s) (hstep : Steps mem_map s a t) :
    Counted (witnessesAfter mem_map w s a) t := by
  obtain ⟨⟨m', e⟩, hr, rfl⟩ := Option.map_eq_some_iff.mp hstep
  refine ⟨ascending_step h.ascending hr, deallocChain_step hr h.chain, ?_⟩
  rcases step_turned hr with ⟨-, store, address, rfl, -, rfl⟩ | ⟨-, rfl, rfl⟩ |
    ⟨f, c, hf, rfl, hturned⟩ | ⟨f, error, c, hf, rfl, hawaiting, hturned⟩
  · intro f hf
    rcases List.mem_append.mp hf with hf | hf
    · have hne : f.id ≠ s.1.next_id := (h.ascending.2 f hf).ne
      rw [witnessesAfter, Function.update_of_ne hne]
      exact h.holds f hf
    · rw [List.mem_singleton.mp hf, witnessesAfter, Frame.new, Function.update_self]
      exact holds_new _ _ _ _
  · exact h.holds
  · have hmem := List.mem_of_find?_eq_some hf
    rw [witnessesAfter, hf]
    exact holds_turned h.holds (h.holds f hmem) (h.chain f hmem) hturned
  · have hmem := List.mem_of_find?_eq_some hf
    rw [witnessesAfter, hf]
    have hreplied : Holds { f with error := error } (w f.id) :=
      ⟨fun htype => absurd hawaiting ((h.holds f hmem).store htype).2.1, (h.holds f hmem).other⟩
    exact holds_turned (f := { f with error := error }) h.holds hreplied (h.chain f hmem) hturned

theorem counted_initial (w : Witnesses) (BlockSize LMRefSize LMDirSize NumberOfBlocks
    lmsStoreSize num_ports log_block_size data_latency mm_block_size : ℕ) :
    Counted w (initial BlockSize LMRefSize LMDirSize NumberOfBlocks lmsStoreSize num_ports
      log_block_size data_latency mm_block_size) where
  ascending := ascending_new _ _ _ _ _
  chain := by simp [initial, Module.new]
  holds := by simp [initial, Module.new]

theorem count_finish {mem_map : MemMap} {m : Module} {f : Frame} {c : Choice} {w : Witness}
    (h : Holds f w) (hevent : f.status.event = .finish) :
    (witnessAfter mem_map m f c w).count = 1 ↔ (f.access_type = .Store → w.hit = false) := by
  unfold witnessAfter
  by_cases htype : f.access_type = .Store
  · have hcount := (h.store htype).2.2
    rw [hevent] at hcount
    have hcount : w.count = if w.hit then 2 else 1 := hcount
    simp only [hevent, htype, hcount]
    cases w.hit <;> simp
  · obtain ⟨hown, hcount⟩ := h.other htype
    have hincrement : w.increment.count = 1 := by simp [Witness.increment, hown, hcount]
    rw [hevent]
    cases hkind : f.access_type <;> simp_all

theorem onceFinished_iff {mem_map : MemMap} {w : Witnesses} {s : State} {a : Action}
    (h : Counted w s) : OnceFinished mem_map w s a ↔ StoresMissed w s a := by
  refine forall₂_congr fun f hf => ?_
  cases a with
  | process id c =>
    obtain ⟨hmem, hkind⟩ := List.mem_filter.mp hf
    obtain ⟨rfl, hevent⟩ := of_decide_eq_true hkind
    rw [witnessesAfter, find?_of_ascending h.ascending hmem]
    simp only [Option.elim_some, Function.update_self]
    exact count_finish (h.holds f hmem) hevent
  | access store address => cases hf
  | tick => cases hf
  | reply id error c => cases hf

/-- In a run the witness of every access has been incremented exactly once when the access finishes,
exactly when no store that finishes has found its block at its lookup. -/
theorem onceFinished_run_iff (mem_map : MemMap) (BlockSize LMRefSize LMDirSize NumberOfBlocks
    lmsStoreSize num_ports log_block_size data_latency mm_block_size : ℕ)
    {run : List (Action × State)}
    (hrun : IsRun (Steps mem_map) (initial BlockSize LMRefSize LMDirSize NumberOfBlocks
      lmsStoreSize num_ports log_block_size data_latency mm_block_size) run) :
    (∀ x ∈ witnessed mem_map (initial BlockSize LMRefSize LMDirSize NumberOfBlocks lmsStoreSize
        num_ports log_block_size data_latency mm_block_size) run,
      OnceFinished mem_map x.1 x.2.1 x.2.2.1) ↔
    ∀ x ∈ witnessed mem_map (initial BlockSize LMRefSize LMDirSize NumberOfBlocks lmsStoreSize
        num_ports log_block_size data_latency mm_block_size) run,
      StoresMissed x.1 x.2.1 x.2.2.1 := by
  have hkeeps : ∀ w s a t, Counted w s → Steps mem_map s a t →
      Counted (witnessesAfter mem_map w s a) t := fun w s a t h hstep => counted_step h hstep
  have hall := ghosts_invariant hkeeps hrun
    (counted_initial (fun _ => .new) BlockSize LMRefSize LMDirSize NumberOfBlocks lmsStoreSize
      num_ports log_block_size data_latency mm_block_size)
  exact forall₂_congr fun x hx => onceFinished_iff (hall x hx).1

def smallBlock : MemMap
  | 0x0108 => some (translated 0x74010108 (by norm_num))
  | 0x1008 => some (translated 0x72010008 (by norm_num))
  | 0x2100 => some (translated 0x73010100 (by norm_num))
  | _ => none

def twoRefs : State := initial 64 2 2 2 64 1 6 2 64

/-- A store and a load of a block that is not allocated, its allocation with a read and its
deallocation. -/
def storedBefore : List Action :=
  .access true 0x1008 :: events 0 3 ++ [.tick, .tick] ++ events 0 4 ++ [.tick, .tick] ++
    events 0 1 ++ .access false 0x1008 :: events 1 3 ++ [.tick, .tick] ++ events 1 4 ++
    [.tick, .tick] ++ events 1 1 ++ .access false 0x0108 :: events 2 2 ++
    .reply 2 false ⟨0, 0⟩ :: events 2 1 ++ [.tick, .tick] ++ events 2 1 ++
    .access false 0x2100 :: events 3 4

theorem onceFinished_storedBefore :
    (follow smallBlock twoRefs storedBefore).length = storedBefore.length ∧
      ∀ x ∈ witnessed smallBlock twoRefs (follow smallBlock twoRefs storedBefore),
        OnceFinished smallBlock x.1 x.2.1 x.2.2.1 :=
  ⟨by decide +kernel, (onceFinished_run_iff smallBlock 64 2 2 2 64 1 6 2 64
    (isRun_follow smallBlock twoRefs storedBefore)).mpr (by decide +kernel)⟩

/-- The block is allocated with a read and then stored to. -/
def storedAfter : List Action :=
  .access false 0x0108 :: events 0 2 ++ .reply 0 false ⟨0, 0⟩ :: events 0 1 ++ [.tick, .tick] ++
    events 0 1 ++ .access true 0x1008 :: events 1 3 ++ [.tick, .tick] ++ events 1 4 ++
    [.tick, .tick] ++ events 1 1

/-- The store hits, and its counter is incremented twice. -/
theorem onceFinished_fails :
    ¬ ∀ (mem_map : MemMap) (BlockSize LMRefSize LMDirSize NumberOfBlocks lmsStoreSize num_ports
      log_block_size data_latency mm_block_size : ℕ) (run : List (Action × State)),
      IsRun (Steps mem_map) (initial BlockSize LMRefSize LMDirSize NumberOfBlocks lmsStoreSize
        num_ports log_block_size data_latency mm_block_size) run →
      ∀ x ∈ witnessed mem_map (initial BlockSize LMRefSize LMDirSize NumberOfBlocks lmsStoreSize
        num_ports log_block_size data_latency mm_block_size) run,
        OnceFinished mem_map x.1 x.2.1 x.2.2.1 := by
  intro h
  have honce := h smallBlock 64 2 2 2 64 1 6 2 64 (follow smallBlock twoRefs storedAfter)
    (isRun_follow smallBlock twoRefs storedAfter)
  have htwice : ¬ ∀ x ∈ witnessed smallBlock twoRefs (follow smallBlock twoRefs storedAfter),
      OnceFinished smallBlock x.1 x.2.1 x.2.2.1 := by decide +kernel
  exact htwice honce

end MMLMStore.LMStoreWitness
