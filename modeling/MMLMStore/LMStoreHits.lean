import MMLMStore.LMStoreWriteback

/-!
# Hit flags of LMStore lookups

The `hit` members of an access frame and of the frame that find-and-lock runs in. The lookup sets
the second one. On its way back find-and-lock gives the access an error flag and a state, and the
actions of loads and stores assert the first one.
-/
namespace MMLMStore.LMStoreHits
open LMStoreDecode LMStoreEvents LMStoreOrder LMStoreTables LMStoreTurns LMStoreWriteback StepRuns

structure Hits where
  /-- Of the access, which is the parent frame of find-and-lock. -/
  parent_frame : Bool
  /-- Of the frame that find-and-lock runs in. -/
  frame : Bool
  deriving DecidableEq, Repr

def Hits.new : Hits := ⟨false, false⟩

def looksUp (t : AccessType) : Prop := t = .Load ∨ t = .Store

instance (t : AccessType) : Decidable (looksUp t) := inferInstanceAs (Decidable (_ ∨ _))

/-- What the event that runs for an access does to its flags. -/
def hitsAfter (mem_map : MemMap) (m : Module) (f : Frame) (c : Choice) (h : Hits) : Hits :=
  match f.status.event with
  -- find-and-lock is called with a new frame
  | .lock => if looksUp f.access_type ∧ waitedFor m f c = none then { h with frame := false } else h
  | .find_and_lock_port =>
    { h with frame := (FindBlock mem_map m.lmstore f.address).any Prod.fst }
  -- the error flag and the state are returned, the hit flag is not
  | .find_and_lock_finish => h
  | _ => h

def hitsAfterAction (mem_map : MemMap) (hits : ℕ → Hits) (s : State) : Action → ℕ → Hits
  | .access _ _ => Function.update hits s.1.next_id .new
  | .process id c =>
    (s.1.accesses.find? (·.id = id)).elim hits fun f =>
      Function.update hits id (hitsAfter mem_map s.1 f c (hits id))
  | _ => hits

/-- Steps of a run, each with the states visited before it and the flags. -/
def hitRun (mem_map : MemMap) (s : State) (run : List (Action × State)) :
    List ((List State × (ℕ → Hits)) × State × Action × State) :=
  ghosts (fun g s a _ => (g.1 ++ [s], hitsAfterAction mem_map g.2 s a)) ([], fun _ => .new) s run

def beforeLookup (id : ℕ) (s : State) : Bool :=
  s.1.accesses.any fun g => g.id = id && g.status.event = .find_and_lock_port

/-- Block state that the last lookup of an access has found in the directory. -/
def stateAtLookup (mem_map : MemMap) (past : List State) (f : Frame) : Option BlockState :=
  (latest (beforeLookup f.id) past).bind fun u => stateAt mem_map u.1.lmstore f.address

def acting (s : State) : Action → List Frame
  | .process id _ => s.1.accesses.filter fun f =>
    f.id = id ∧ f.status.event = .action ∧ looksUp f.access_type
  | _ => []

/-- The flag of the access is the result of the lookup, and the assertion on it holds for a block
that was allocated at the lookup. -/
def ReturnsHit (mem_map : MemMap) (past : List State) (hits : ℕ → Hits) (f : Frame) : Prop :=
  (hits f.id).parent_frame = (hits f.id).frame ∧
    (stateAtLookup mem_map past f ≠ some .BlockInvalid → (hits f.id).parent_frame = true)

instance (mem_map : MemMap) (past : List State) (hits : ℕ → Hits) (f : Frame) :
    Decidable (ReturnsHit mem_map past hits f) := inferInstanceAs (Decidable (_ ∧ _))

/-! Flags of the accesses in flight. -/

def afterLookup : List Event := [.find_and_lock_action, .find_and_lock_finish, .action]

/-- No event sets the flag of the access; that of find-and-lock is the result of the lookup until
the action. -/
structure Holds (mem_map : MemMap) (past : List State) (f : Frame) (h : Hits) : Prop where
  parent_frame : h.parent_frame = false
  frame : f.status.event ∈ afterLookup → looksUp f.access_type → ∃ state,
    stateAtLookup mem_map past f = some state ∧ h.frame = decide (state ≠ .BlockInvalid)

theorem hitsAfter_parent_frame (mem_map : MemMap) (m : Module) (f : Frame) (c : Choice) (h : Hits) :
    (hitsAfter mem_map m f c h).parent_frame = h.parent_frame := by
  unfold hitsAfter
  split
  · split_ifs <;> rfl
  · rfl
  · rfl
  · rfl

theorem stateAtLookup_append (mem_map : MemMap) (past : List State) (s : State) (f : Frame) :
    stateAtLookup mem_map (past ++ [s]) f =
      if beforeLookup f.id s then stateAt mem_map s.1.lmstore f.address
      else stateAtLookup mem_map past f := by
  rw [stateAtLookup, latest_append]
  split_ifs <;> rfl

theorem beforeLookup_eq {s : State} (hasc : Ascending s.1) {f : Frame} (hf : f ∈ s.1.accesses) :
    beforeLookup f.id s = decide (f.status.event = .find_and_lock_port) := by
  rw [Bool.eq_iff_iff, beforeLookup, List.any_eq_true, decide_eq_true_iff]
  constructor
  · rintro ⟨g, hg, hkind⟩
    rw [Bool.and_eq_true, decide_eq_true_iff, decide_eq_true_iff] at hkind
    rw [← eq_of_ascending hasc hf hg hkind.1]
    exact hkind.2
  · intro hevent
    exact ⟨f, hf, by simp [hevent]⟩

theorem Holds.wakeup {mem_map : MemMap} {past : List State} {f : Frame} {h : Hits}
    (hf : Holds mem_map past f h) (time : ℕ) : Holds mem_map past (f.wakeup time) h where
  parent_frame := hf.parent_frame
  frame := by
    rw [Frame.wakeup, Status.event_wakeup]
    exact hf.frame

/-- An access that does not run keeps its flags. -/
theorem Holds.append {mem_map : MemMap} {past : List State} {s : State} {f : Frame} {h : Hits}
    (hf : Holds mem_map past f h)
    (hbefore : beforeLookup f.id s = decide (f.status.event = .find_and_lock_port)) :
    Holds mem_map (past ++ [s]) f h where
  parent_frame := hf.parent_frame
  frame := by
    intro hevent htype
    have hnot : f.status.event ≠ .find_and_lock_port := by
      intro hport
      simp [hport, afterLookup] at hevent
    rw [stateAtLookup_append, hbefore, decide_eq_false hnot]
    exact hf.frame hevent htype

theorem holds_turn {mem_map : MemMap} {past : List State} {s : State} {f f' : Frame} {c : Choice}
    {lmstore : LMStore} {e : Option Effect} {h : Hits} (hf : Holds mem_map past f h)
    (hbefore : beforeLookup f.id s = decide (f.status.event = .find_and_lock_port))
    (hturn : Turn mem_map s.1 f c f' lmstore e) :
    Holds mem_map (past ++ [s]) f' (hitsAfter mem_map s.1 f c h) where
  parent_frame := (hitsAfter_parent_frame mem_map s.1 f c h).trans hf.parent_frame
  frame := by
    intro hnext htype
    have hlookup : stateAtLookup mem_map (past ++ [s]) f' =
        if f.status.event = .find_and_lock_port then stateAt mem_map s.1.lmstore f.address
        else stateAtLookup mem_map past f := by
      have hsame : stateAtLookup mem_map (past ++ [s]) f' =
          stateAtLookup mem_map (past ++ [s]) f := by
        rw [stateAtLookup, stateAtLookup, hturn.id, hturn.address]
      rw [hsame, stateAtLookup_append, hbefore]
      simp only [decide_eq_true_iff]
    rw [hlookup]
    cases hturn with
    | find time hit blockstate hevent hfind =>
      rw [FindBlock_eq] at hfind
      obtain ⟨state, hstate, hresult⟩ := Option.map_eq_some_iff.mp hfind
      cases hresult
      refine ⟨blockstate, by rw [if_pos hevent]; exact hstate, ?_⟩
      simp [hitsAfter, hevent, FindBlock_eq, hstate]
    | unlockPort time hevent | found time hevent =>
      have hkept := hf.frame (by simp [hevent, afterLookup]) htype
      simpa [hitsAfter, hevent] using hkept
    | pass time hevent hnone hkind =>
      revert hkind htype
      cases f.access_type <;> simp [looksUp, isAlloc, isDealloc]
    | wait older hevent holder => simp [Status.event, afterLookup] at hnext
    | lookup | retryLookup | load | store | noRead | retryRequest | allocate | deallocate | unlock =>
      simp [afterLookup] at hnext
    | lockPort status hevent hstatus hawaiting => simp [hstatus, afterLookup] at hnext
    | request pending hevent hkind => simp [Status.event, afterLookup] at hnext
    | replied hevent hkind => simp [hevent, afterLookup] at hnext

/-! Runs. -/

structure Tracks (mem_map : MemMap) (g : List State × (ℕ → Hits)) (s : State) : Prop where
  ascending : Ascending s.1
  holds : ∀ f ∈ s.1.accesses, Holds mem_map g.1 f (g.2 f.id)

theorem tracks_step {mem_map : MemMap} {g : List State × (ℕ → Hits)} {s t : State} {a : Action}
    (h : Tracks mem_map g s) (hstep : Steps mem_map s a t) :
    Tracks mem_map (g.1 ++ [s], hitsAfterAction mem_map g.2 s a) t := by
  obtain ⟨⟨m', e⟩, hr, rfl⟩ := Option.map_eq_some_iff.mp hstep
  refine ⟨ascending_step h.ascending hr, ?_⟩
  change ∀ f ∈ m'.accesses, Holds mem_map (g.1 ++ [s]) f (hitsAfterAction mem_map g.2 s a f.id)
  have hkept : ∀ f ∈ s.1.accesses, Holds mem_map (g.1 ++ [s]) f (g.2 f.id) := fun f hf =>
    (h.holds f hf).append (beforeLookup_eq h.ascending hf)
  rcases step_turned hr with ⟨-, store, address, rfl, -, rfl⟩ | ⟨-, rfl, rfl⟩ |
    ⟨f, c, hf, rfl, hturned⟩ | ⟨f, error, c, hf, rfl, hawaiting, hturned⟩
  · intro f hf
    rcases List.mem_append.mp hf with hf | hf
    · have hne : f.id ≠ s.1.next_id := (h.ascending.2 f hf).ne
      rw [hitsAfterAction, Function.update_of_ne hne]
      exact hkept f hf
    · rw [List.mem_singleton.mp hf, hitsAfterAction, Frame.new, Function.update_self]
      exact ⟨rfl, by simp [afterLookup]⟩
  · exact hkept
  · have hmem := List.mem_of_find?_eq_some hf
    rw [hitsAfterAction, hf]
    refine hturned.forall_frames (fun x hx hid => ?_) fun f' hturn => ?_
    · have hwoken : (x.wakeup s.1.time).id = x.id := rfl
      rw [hwoken, Option.elim_some, Function.update_of_ne hid]
      exact ⟨hkept x hx, (hkept x hx).wakeup _⟩
    · rw [hturn.id, Option.elim_some, Function.update_self]
      exact holds_turn (h.holds f hmem) (beforeLookup_eq h.ascending hmem) hturn
  · have hmem := List.mem_of_find?_eq_some hf
    have hsame : ∀ m : Module, hitsAfter mem_map m { f with error := error } c (g.2 f.id) =
        g.2 f.id := by
      intro m
      simp [hitsAfter, hawaiting, Status.event]
    refine hturned.forall_frames (fun x hx hid => ⟨hkept x hx, (hkept x hx).wakeup _⟩)
      fun f' hturn => ?_
    have hreplied : Holds mem_map g.1 { f with error := error } (g.2 f.id) :=
      ⟨(h.holds f hmem).parent_frame, (h.holds f hmem).frame⟩
    have hbefore := beforeLookup_eq h.ascending hmem
    have hafter := holds_turn (f := { f with error := error }) hreplied hbefore hturn
    rw [hsame] at hafter
    rw [hturn.id]
    exact hafter

theorem tracks_initial (mem_map : MemMap) (hits : ℕ → Hits) (BlockSize LMRefSize LMDirSize
    NumberOfBlocks lmsStoreSize num_ports log_block_size data_latency mm_block_size : ℕ) :
    Tracks mem_map ([], hits) (initial BlockSize LMRefSize LMDirSize NumberOfBlocks lmsStoreSize
      num_ports log_block_size data_latency mm_block_size) where
  ascending := ascending_new _ _ _ _ _
  holds := by simp [initial, Module.new]

/-- In every run, when the action of a load or store runs, the access has the result of its lookup
in its hit flag exactly when the block was invalid at the lookup. -/
theorem returnsHit_iff (mem_map : MemMap) (BlockSize LMRefSize LMDirSize NumberOfBlocks
    lmsStoreSize num_ports log_block_size data_latency mm_block_size : ℕ)
    {run : List (Action × State)}
    (hrun : IsRun (Steps mem_map) (initial BlockSize LMRefSize LMDirSize NumberOfBlocks
      lmsStoreSize num_ports log_block_size data_latency mm_block_size) run) :
    ∀ x ∈ hitRun mem_map (initial BlockSize LMRefSize LMDirSize NumberOfBlocks lmsStoreSize
        num_ports log_block_size data_latency mm_block_size) run,
      ∀ f ∈ acting x.2.1 x.2.2.1, ReturnsHit mem_map x.1.1 x.1.2 f ↔
        stateAtLookup mem_map x.1.1 f = some .BlockInvalid := by
  intro x hx f hf
  have hkeeps : ∀ g s a t, Tracks mem_map g s → Steps mem_map s a t →
      Tracks mem_map (g.1 ++ [s], hitsAfterAction mem_map g.2 s a) t :=
    fun g s a t h hstep => tracks_step h hstep
  have htracks := (ghosts_invariant hkeeps hrun (tracks_initial mem_map (fun _ => .new) BlockSize
    LMRefSize LMDirSize NumberOfBlocks lmsStoreSize num_ports log_block_size data_latency
    mm_block_size) x hx).1
  obtain ⟨hmem, hevent, htype⟩ : f ∈ x.2.1.1.accesses ∧ f.status.event = .action ∧
      looksUp f.access_type := by
    cases haction : x.2.2.1 with
    | process id c =>
      rw [haction] at hf
      obtain ⟨hmem, hkind⟩ := List.mem_filter.mp hf
      exact ⟨hmem, (of_decide_eq_true hkind).2⟩
    | _ =>
      rw [haction] at hf
      cases hf
  have hholds := htracks.holds f hmem
  obtain ⟨state, hlookup, hframe⟩ := hholds.frame (by simp [hevent, afterLookup]) htype
  rw [ReturnsHit, hholds.parent_frame, hframe, hlookup, Option.some.injEq]
  cases state <;> simp

/-- A block that is loaded while it is not allocated. -/
def loadedBefore : List Action :=
  .access false 0x1000 :: events 0 3 ++ [.tick, .tick] ++ events 0 4 ++ [.tick, .tick] ++ events 0 1

theorem returnsHit_loadedBefore :
    (∃ x ∈ hitRun oneBlock threeEntries (follow oneBlock threeEntries loadedBefore),
        acting x.2.1 x.2.2.1 ≠ []) ∧
      ∀ x ∈ hitRun oneBlock threeEntries (follow oneBlock threeEntries loadedBefore),
        ∀ f ∈ acting x.2.1 x.2.2.1, ReturnsHit oneBlock x.1.1 x.1.2 f := by
  refine ⟨by decide +kernel, fun x hx f hf => ?_⟩
  have hmissed : ∀ x ∈ hitRun oneBlock threeEntries (follow oneBlock threeEntries loadedBefore),
      ∀ f ∈ acting x.2.1 x.2.2.1, stateAtLookup oneBlock x.1.1 f = some .BlockInvalid := by
    decide +kernel
  exact (returnsHit_iff oneBlock 64 3 3 3 64 1 6 2 64
    (isRun_follow oneBlock threeEntries loadedBefore) x hx f hf).mpr (hmissed x hx f hf)

/-- The block is allocated and then loaded: the lookup hits, and the action finds the flag clear. -/
theorem returnsHit_fails :
    ¬ ∀ (mem_map : MemMap) (BlockSize LMRefSize LMDirSize NumberOfBlocks lmsStoreSize num_ports
      log_block_size data_latency mm_block_size : ℕ) (run : List (Action × State)),
      IsRun (Steps mem_map) (initial BlockSize LMRefSize LMDirSize NumberOfBlocks lmsStoreSize
        num_ports log_block_size data_latency mm_block_size) run →
      ∀ x ∈ hitRun mem_map (initial BlockSize LMRefSize LMDirSize NumberOfBlocks lmsStoreSize
        num_ports log_block_size data_latency mm_block_size) run,
        ∀ f ∈ acting x.2.1 x.2.2.1, ReturnsHit mem_map x.1.1 x.1.2 f := by
  intro h
  have hreturns := h oneBlock 64 3 3 3 64 1 6 2 64
    (follow oneBlock threeEntries (accessed false))
    (isRun_follow oneBlock threeEntries (accessed false))
  have hfails : ¬ ∀ x ∈ hitRun oneBlock threeEntries
      (follow oneBlock threeEntries (accessed false)),
      ∀ f ∈ acting x.2.1 x.2.2.1, ReturnsHit oneBlock x.1.1 x.1.2 f := by decide +kernel
  exact hfails hreturns

end MMLMStore.LMStoreHits
