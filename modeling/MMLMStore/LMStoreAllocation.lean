import MMLMStore.LMStoreWriteback

/-!
# Existence of blocks under allocation

Every event of an allocation goes through the head of its handler, which asserts that the block to
be allocated does not exist. The block exists from the event that allocates it on.
-/
namespace MMLMStore.LMStoreAllocation
open LMStoreDecode LMStoreEvents LMStoreOrder LMStoreTables LMStoreTurns LMStoreWriteback StepRuns

/-- Frames that a step runs the allocation handler for. An access runs `lmstore_alloc` when it is
issued. -/
def allocating (mem_map : MemMap) (s : State) : Action → List Frame
  | .access store address =>
    [Frame.new s.1.next_id address
      (accessTypeOf mem_map (if store then .Store else .Load) address) s.1.time].filter
        fun f => isAlloc f.access_type
  | .tick => []
  | .process id _ | .reply id _ _ =>
    s.1.accesses.filter fun f => f.id = id ∧ isAlloc f.access_type

/-- `assert(lmstore->FindBlock(frame->getAddress(), blockstate) == 0)`. -/
def AssertsAbsent (mem_map : MemMap) (s : State) (f : Frame) : Prop :=
  (FindBlock mem_map s.1.lmstore f.address).map Prod.fst = some false

instance (mem_map : MemMap) (s : State) (f : Frame) : Decidable (AssertsAbsent mem_map s f) :=
  inferInstanceAs (Decidable (_ = _))

/-- The state in which an access was issued: the last one with its id still to be given. -/
def issueState (past : List State) (id : ℕ) : Option State := latest (fun u => u.1.next_id = id) past

/-- The entry of the access was invalid when it was issued, and no other access has changed it
since. -/
def Undisturbed (mem_map : MemMap) (past : List State) (s : State) (f : Frame) : Prop :=
  ∃ u ∈ issueState past f.id, stateAt mem_map u.1.lmstore f.address = some .BlockInvalid ∧
    ∀ x ∈ s.2.drop u.2.length, x.id ≠ f.id →
      entryIndex mem_map x.address = entryIndex mem_map f.address → x.op = .FindBlock

instance (mem_map : MemMap) (past : List State) (s : State) (f : Frame) :
    Decidable (Undisturbed mem_map past s f) :=
  inferInstanceAs (Decidable (∃ u ∈ issueState past f.id, _))

def afterAllocation : List Event := [.unlock, .finish]

/-! Allocations in flight. -/

def entryState (e : Event) : BlockState :=
  if e ∈ afterAllocation then .BlockExclusive else .BlockInvalid

/-- The entry of an undisturbed allocation is in the state of its next event. -/
def Holds (mem_map : MemMap) (past : List State) (s : State) (f : Frame) : Prop :=
  isAlloc f.access_type → Undisturbed mem_map past s f →
    stateAt mem_map s.1.lmstore f.address = some (entryState f.status.event)

theorem issueState_append (past : List State) (s : State) (id : ℕ) :
    issueState (past ++ [s]) id = if s.1.next_id = id then some s else issueState past id := by
  rw [issueState, latest_append]
  simp only [decide_eq_true_iff]
  rfl

/-- An access in flight was issued before the state it is in. -/
theorem undisturbed_append {mem_map : MemMap} {past : List State} {s : State} {f : Frame}
    (hid : f.id < s.1.next_id) :
    Undisturbed mem_map (past ++ [s]) s f ↔ Undisturbed mem_map past s f := by
  rw [Undisturbed, Undisturbed, issueState_append, if_neg hid.ne']

/-- An access that is undisturbed after a step was so before, and the operation that the step made
for another access is at most a lookup of its entry. -/
theorem Undisturbed.before {mem_map : MemMap} {past : List State} {s : State} {m' : Module}
    {e : Option Effect} {f : Frame} (hlogs : ∀ u ∈ past, u.2.length ≤ s.2.length)
    (hid : f.id < s.1.next_id)
    (h : Undisturbed mem_map (past ++ [s]) (m', s.2 ++ e.toList) f) :
    Undisturbed mem_map past s f ∧ ∀ x ∈ e, x.id ≠ f.id →
      entryIndex mem_map x.address = entryIndex mem_map f.address → x.op = .FindBlock := by
  obtain ⟨u, hu, hinvalid, hothers⟩ := h
  rw [issueState_append, if_neg hid.ne'] at hu
  have hmem : u ∈ past := List.mem_reverse.mp (List.mem_of_find?_eq_some hu)
  have hdrop : (s.2 ++ e.toList).drop u.2.length = s.2.drop u.2.length ++ e.toList :=
    List.drop_append_of_le_length (hlogs u hmem)
  simp only [hdrop] at hothers
  refine ⟨⟨u, hu, hinvalid, fun x hx => hothers x (List.mem_append_left _ hx)⟩, fun x hx => ?_⟩
  exact hothers x (List.mem_append_right _ (Option.mem_toList.mpr hx))

theorem stateAt_other {mem_map : MemMap} {m : Module} {f f' : Frame} {c : Choice}
    {lmstore : LMStore} {e : Option Effect} (hserved : Served mem_map f)
    (hrefs : RefsInOrder m.lmstore) (hturn : Turn mem_map m f c f' lmstore e) {address : ℕ}
    (hothers : ∀ x ∈ e, entryIndex mem_map x.address = entryIndex mem_map address →
      x.op = .FindBlock) :
    stateAt mem_map lmstore address = stateAt mem_map m.lmstore address := by
  rcases operation_of_turn hserved hturn with ⟨rfl, -⟩ |
    ⟨op, st, v, i, old, new, rfl, hleaves, hv, hentry, hLMRef, hLMDir, -⟩
  · rfl
  have hdifferent : entryIndex mem_map f.address ≠ entryIndex mem_map address := by
    intro hsame
    have hop : op = .FindBlock := hothers _ rfl hsame
    rw [hop] at hleaves
    cases hleaves
  rw [stateAt_set hrefs hv hentry hLMRef hLMDir]
  simp [hdifferent]

/-- The turn of an allocation that makes its operation leads to the events behind it. -/
theorem stateAt_own {mem_map : MemMap} {m : Module} {f f' : Frame} {c : Choice}
    {lmstore : LMStore} {e : Option Effect} (hserved : Served mem_map f)
    (hrefs : RefsInOrder m.lmstore) (htype : isAlloc f.access_type)
    (hturn : Turn mem_map m f c f' lmstore e)
    (hstate : stateAt mem_map m.lmstore f.address = some (entryState f.status.event)) :
    stateAt mem_map lmstore f'.address = some (entryState f'.status.event) := by
  rw [hturn.address]
  rcases operation_of_turn hserved hturn with ⟨hsame, hlookup⟩ |
    ⟨op, st, v, i, old, new, he, hleaves, hv, hentry, hLMRef, hLMDir, hnew⟩
  · have hevent : entryState f'.status.event = entryState f.status.event := by
      cases hturn with
      | store | allocate | deallocate =>
        have hop := hlookup _ rfl
        cases hop
      | load time hevent hkind => simp [isAlloc, hkind] at htype
      | wait older hevent => rw [hevent]; rfl
      | lockPort status hevent hstatus => rw [hevent, hstatus]; rfl
      | request pending hevent => rw [hevent]; rfl
      | replied hevent => rfl
      | lookup time hevent | pass time hevent | find time hit blockstate hevent
      | unlockPort time hevent | found time hevent | retryLookup time hevent
      | noRead time hevent | retryRequest time hevent | unlock time hevent => rw [hevent]; rfl
    rw [hsame, hevent]
    exact hstate
  · rw [stateAt_set hrefs hv hentry hLMRef hLMDir, hstate]
    subst he
    cases hturn with
    | find => cases hleaves
    | store time lmstore hevent hkind => simp [isAlloc, hkind] at htype
    | deallocate time pending hit lmstore hevent hkind =>
      rcases htype with h | h <;> simp [isDealloc, h] at hkind
    | allocate =>
      cases hleaves
      simp [hnew, entryState, afterAllocation]

/-! Runs. -/

structure Tracks (mem_map : MemMap) (past : List State) (s : State) : Prop where
  ascending : Ascending s.1
  tracked : Tracked mem_map s
  logs : ∀ u ∈ past, u.2.length ≤ s.2.length
  holds : ∀ f ∈ s.1.accesses, Holds mem_map past s f

theorem Holds.wakeup {mem_map : MemMap} {past : List State} {s : State} {f : Frame}
    (h : Holds mem_map past s f) (time : ℕ) : Holds mem_map past s (f.wakeup time) := by
  intro htype hundisturbed
  rw [Frame.wakeup, Status.event_wakeup]
  exact h htype hundisturbed

theorem Holds.step {mem_map : MemMap} {past : List State} {s : State} {m' : Module}
    {e : Option Effect} {f : Frame} (h : Holds mem_map past s f)
    (hlogs : ∀ u ∈ past, u.2.length ≤ s.2.length) (hid : f.id < s.1.next_id)
    (hsame : (∀ x ∈ e, x.id ≠ f.id →
        entryIndex mem_map x.address = entryIndex mem_map f.address → x.op = .FindBlock) →
      stateAt mem_map m'.lmstore f.address = stateAt mem_map s.1.lmstore f.address) :
    Holds mem_map (past ++ [s]) (m', s.2 ++ e.toList) f := by
  intro htype hundisturbed
  obtain ⟨hbefore, hothers⟩ := hundisturbed.before hlogs hid
  have hstate : stateAt mem_map m'.lmstore f.address = some (entryState f.status.event) := by
    rw [hsame hothers]
    exact h htype hbefore
  exact hstate

theorem Tracks.turn {mem_map : MemMap} {past : List State} {s : State} {f : Frame} {c : Choice}
    {m' : Module} {e : Option Effect} (h : Tracks mem_map past s) (hserved : Served mem_map f)
    (hid : f.id < s.1.next_id) (hf : Holds mem_map past s f)
    (hturned : Turned mem_map s.1 f c (m', e)) :
    ∀ g ∈ m'.accesses, Holds mem_map (past ++ [s]) (m', s.2 ++ e.toList) g := by
  refine hturned.forall_frames (fun g hg hother => ?_) fun f' hturn htype hundisturbed => ?_
  · have hkept : Holds mem_map (past ++ [s]) (m', s.2 ++ e.toList) g := by
      refine (h.holds g hg).step h.logs (h.ascending.2 g hg) fun hothers => ?_
      rcases hturned with ⟨-, hr⟩ | ⟨f', hturn, -⟩
      · cases hr
        rfl
      · refine stateAt_other hserved h.tracked.refs hturn fun x hx => hothers x hx ?_
        rw [hturn.effect_id x hx]
        exact Ne.symm hother
    exact ⟨hkept, hkept.wakeup _⟩
  · have hundisturbed : Undisturbed mem_map (past ++ [s]) (m', s.2 ++ e.toList) f := by
      rw [Undisturbed, ← hturn.id, ← hturn.address]
      exact hundisturbed
    rw [hturn.access_type] at htype
    exact stateAt_own hserved h.tracked.refs htype hturn
      (hf htype (hundisturbed.before h.logs hid).1)

theorem tracks_step {mem_map : MemMap} {past : List State} {s t : State} {a : Action}
    (h : Tracks mem_map past s) (hstep : Steps mem_map s a t) :
    Tracks mem_map (past ++ [s]) t := by
  have htracked := tracked_step h.tracked hstep
  obtain ⟨⟨m', e⟩, hr, rfl⟩ := Option.map_eq_some_iff.mp hstep
  refine ⟨ascending_step h.ascending hr, htracked, fun u hu => ?_, ?_⟩
  · have hlength : s.2.length ≤ (s.2 ++ e.toList).length := by simp
    rcases List.mem_append.mp hu with hu | hu
    · exact (h.logs u hu).trans hlength
    · rw [List.mem_singleton.mp hu]
      exact hlength
  have hidle : m'.lmstore = s.1.lmstore → ∀ f ∈ s.1.accesses,
      Holds mem_map (past ++ [s]) (m', s.2 ++ e.toList) f := by
    intro hlmstore f hf
    refine (h.holds f hf).step h.logs (h.ascending.2 f hf) fun _ => ?_
    rw [hlmstore]
  rcases step_turned hr with ⟨rfl, store, address, rfl, -, rfl⟩ | ⟨rfl, rfl, rfl⟩ |
    ⟨f, c, hf, rfl, hturned⟩ | ⟨f, error, c, hf, rfl, -, hturned⟩
  · intro f hf
    rcases List.mem_append.mp hf with hf | hf
    · exact hidle rfl f hf
    · -- the entry of a new access is in the state that it was issued in
      rw [List.mem_singleton.mp hf]
      rintro - ⟨u, hu, hinvalid, -⟩
      rw [Frame.new, issueState_append, if_pos rfl] at hu
      cases hu
      exact hinvalid
  · exact hidle rfl
  · have hmem := List.mem_of_find?_eq_some hf
    exact h.turn (h.tracked.served f hmem) (h.ascending.2 f hmem) (h.holds f hmem) hturned
  · have hmem := List.mem_of_find?_eq_some hf
    exact h.turn (f := { f with error := error }) (h.tracked.served f hmem)
      (h.ascending.2 f hmem) (h.holds f hmem) hturned

theorem tracks_initial (mem_map : MemMap) (BlockSize LMRefSize LMDirSize NumberOfBlocks
    lmsStoreSize num_ports log_block_size data_latency mm_block_size : ℕ) :
    Tracks mem_map [] (initial BlockSize LMRefSize LMDirSize NumberOfBlocks lmsStoreSize num_ports
      log_block_size data_latency mm_block_size) where
  ascending := ascending_new _ _ _ _ _
  tracked := tracked_initial mem_map BlockSize LMRefSize LMDirSize NumberOfBlocks lmsStoreSize
    num_ports log_block_size data_latency mm_block_size
  logs := by simp
  holds := by simp [initial, Module.new]

theorem assertsAbsent_of_state {mem_map : MemMap} {s : State} {f : Frame}
    (hstate : stateAt mem_map s.1.lmstore f.address = some (entryState f.status.event)) :
    AssertsAbsent mem_map s f ↔ f.status.event ∉ afterAllocation := by
  rw [AssertsAbsent, FindBlock_eq, hstate, entryState]
  split_ifs with hevent <;> simp [hevent]

/-- In every run, at each event of an allocation of an invalid entry that no other access changes,
the assertion that the block does not exist holds exactly when the event does not come behind the
call of `allocateBlock`. -/
theorem assertsAbsent_iff (mem_map : MemMap) (BlockSize LMRefSize LMDirSize NumberOfBlocks
    lmsStoreSize num_ports log_block_size data_latency mm_block_size : ℕ)
    {run : List (Action × State)}
    (hrun : IsRun (Steps mem_map) (initial BlockSize LMRefSize LMDirSize NumberOfBlocks
      lmsStoreSize num_ports log_block_size data_latency mm_block_size) run) :
    ∀ x ∈ visits (initial BlockSize LMRefSize LMDirSize NumberOfBlocks lmsStoreSize num_ports
        log_block_size data_latency mm_block_size) run,
      ∀ f ∈ allocating mem_map x.2.1 x.2.2.1, Undisturbed mem_map (x.1 ++ [x.2.1]) x.2.1 f →
        (AssertsAbsent mem_map x.2.1 f ↔ f.status.event ∉ afterAllocation) := by
  rintro ⟨past, s, a, t⟩ hx f hf hundisturbed
  have hkeeps : ∀ past s a t, Tracks mem_map past s → Steps mem_map s a t →
      Tracks mem_map (past ++ [s]) t := fun past s a t h hstep => tracks_step h hstep
  have htracks := (ghosts_invariant hkeeps hrun (tracks_initial mem_map BlockSize LMRefSize
    LMDirSize NumberOfBlocks lmsStoreSize num_ports log_block_size data_latency mm_block_size)
    _ hx).1
  refine assertsAbsent_of_state ?_
  have hflight : ∀ id, f ∈ s.1.accesses.filter (fun f => f.id = id ∧ isAlloc f.access_type) →
      stateAt mem_map s.1.lmstore f.address = some (entryState f.status.event) := by
    intro id hf
    obtain ⟨hmem, hkind⟩ := List.mem_filter.mp hf
    have hid : f.id < s.1.next_id := htracks.ascending.2 f hmem
    exact htracks.holds f hmem (of_decide_eq_true hkind).2
      ((undisturbed_append hid).mp hundisturbed)
  cases a with
  | access store address =>
    obtain ⟨hmem, -⟩ := List.mem_filter.mp hf
    obtain ⟨u, hu, hinvalid, -⟩ := hundisturbed
    rw [List.mem_singleton.mp hmem] at hu hinvalid ⊢
    rw [Frame.new, issueState_append, if_pos rfl] at hu
    cases hu
    exact hinvalid
  | tick => cases hf
  | process id c => exact hflight id hf
  | reply id error c => exact hflight id hf

/-- The events of one allocation before the call. -/
theorem assertsAbsent_allocated :
    (follow oneBlock threeEntries (allocated 0 0x0210)).length = (allocated 0 0x0210).length ∧
      ∀ x ∈ visits threeEntries (follow oneBlock threeEntries (allocated 0 0x0210)),
        ∀ f ∈ allocating oneBlock x.2.1 x.2.2.1, f.status.event ∉ afterAllocation →
          AssertsAbsent oneBlock x.2.1 f := by
  refine ⟨by decide +kernel, fun x hx f hf hevent => ?_⟩
  have hundisturbed : ∀ x ∈ visits threeEntries
      (follow oneBlock threeEntries (allocated 0 0x0210)),
      ∀ f ∈ allocating oneBlock x.2.1 x.2.2.1, Undisturbed oneBlock (x.1 ++ [x.2.1]) x.2.1 f := by
    decide +kernel
  exact (assertsAbsent_iff oneBlock 64 3 3 3 64 1 6 2 64
    (isRun_follow oneBlock threeEntries (allocated 0 0x0210)) x hx f hf
    (hundisturbed x hx f hf)).mpr hevent

/-- An allocation that runs to its end finds its own block at `alloc_unlock`. -/
theorem assertsAbsent_fails :
    ¬ ∀ (mem_map : MemMap) (BlockSize LMRefSize LMDirSize NumberOfBlocks lmsStoreSize num_ports
      log_block_size data_latency mm_block_size : ℕ) (run : List (Action × State)),
      IsRun (Steps mem_map) (initial BlockSize LMRefSize LMDirSize NumberOfBlocks lmsStoreSize
        num_ports log_block_size data_latency mm_block_size) run →
      ∀ x ∈ visits (initial BlockSize LMRefSize LMDirSize NumberOfBlocks lmsStoreSize num_ports
        log_block_size data_latency mm_block_size) run,
        ∀ f ∈ allocating mem_map x.2.1 x.2.2.1,
          Undisturbed mem_map (x.1 ++ [x.2.1]) x.2.1 f → AssertsAbsent mem_map x.2.1 f := by
  intro h
  have habsent := h oneBlock 64 3 3 3 64 1 6 2 64
    (follow oneBlock threeEntries (allocated 0 0x0210))
    (isRun_follow oneBlock threeEntries (allocated 0 0x0210))
  have hfails : ¬ ∀ x ∈ visits threeEntries (follow oneBlock threeEntries (allocated 0 0x0210)),
      ∀ f ∈ allocating oneBlock x.2.1 x.2.2.1,
        Undisturbed oneBlock (x.1 ++ [x.2.1]) x.2.1 f → AssertsAbsent oneBlock x.2.1 f := by
    decide +kernel
  exact hfails habsent

end MMLMStore.LMStoreAllocation
