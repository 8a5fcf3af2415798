import MMLMStore.LMStoreEvents

/-!
# Turns of an LMStore access

What one event of the LMStore chains can do, said once: the frame it leaves, the tables after it and
the operation it makes, branch by branch.
-/
namespace MMLMStore.LMStoreTurns
open LMStoreDecode LMStoreEvents LMStoreTables

def isAlloc (t : AccessType) : Prop := t = .ReadAlloc ∨ t = .NoReadAlloc

def isDealloc (t : AccessType) : Prop := t = .WriteDealloc ∨ t = .NoWriteDealloc

instance (t : AccessType) : Decidable (isAlloc t) := inferInstanceAs (Decidable (_ ∨ _))

instance (t : AccessType) : Decidable (isDealloc t) := inferInstanceAs (Decidable (_ ∨ _))

/-- The access that an event of `f` would wait for. -/
def waitedFor (m : Module) (f : Frame) (c : Choice) : Option Frame :=
  match f.access_type with
  | .Load =>
    m.getInFlightAlloc f <|> m.getInFlightWrite f <|> m.getInFlightAddress f.address f c
  | .Store => (m.older f).getLast?
  | _ => m.getInFlightWrite f <|> m.getInFlightAddress f.address f c

/-- The branches of the handlers, the last event of an access left out. -/
inductive Turn (mem_map : MemMap) (m : Module) (f : Frame) (c : Choice) :
    Frame → LMStore → Option Effect → Prop
  | wait (older : Frame) (hevent : f.status.event = .lock) (holder : waitedFor m f c = some older) :
      Turn mem_map m f c { f with status := .inQueue older.id .lock } m.lmstore none
  | lookup (time : ℕ) (hevent : f.status.event = .lock) (hnone : waitedFor m f c = none)
      (htype : f.access_type = .Load ∨ f.access_type = .Store) :
      Turn mem_map m f c
        { f with found := .BlockInvalid, status := .scheduled .find_and_lock time } m.lmstore none
  | pass (time : ℕ) (hevent : f.status.event = .lock) (hnone : waitedFor m f c = none)
      (htype : isAlloc f.access_type ∨ isDealloc f.access_type) :
      Turn mem_map m f c { f with status := .scheduled .action time } m.lmstore none
  | lockPort (status : Status) (hevent : f.status.event = .find_and_lock)
      (hstatus : status.event = .find_and_lock_port) (hawaiting : status ≠ .awaiting) :
      Turn mem_map m f c { f with error := false, status := status } m.lmstore none
  | find (time : ℕ) (hit : Bool) (blockstate : BlockState)
      (hevent : f.status.event = .find_and_lock_port)
      (hfind : FindBlock mem_map m.lmstore f.address = some (hit, blockstate)) :
      Turn mem_map m f c
        { f with
          found := if blockstate = .BlockInvalid then .BlockInvalid else .BlockExclusive
          status := .scheduled .find_and_lock_action time } m.lmstore
        (some ⟨f.id, f.address, .FindBlock⟩)
  | unlockPort (time : ℕ) (hevent : f.status.event = .find_and_lock_action) :
      Turn mem_map m f c { f with status := .scheduled .find_and_lock_finish time } m.lmstore none
  | found (time : ℕ) (hevent : f.status.event = .find_and_lock_finish) :
      Turn mem_map m f c
        { f with error := false, state := f.found, status := .scheduled .action time }
        m.lmstore none
  | retryLookup (time : ℕ) (hevent : f.status.event = .action) (herror : f.error = true)
      (htype : f.access_type = .Load ∨ f.access_type = .Store) :
      Turn mem_map m f c { f with status := .scheduled .lock time } m.lmstore none
  | load (time : ℕ) (hevent : f.status.event = .action) (htype : f.access_type = .Load) :
      Turn mem_map m f c { f with status := .scheduled .unlock time } m.lmstore none
  | store (time : ℕ) (lmstore : LMStore) (hevent : f.status.event = .action)
      (htype : f.access_type = .Store)
      (hset : setBlockState mem_map m.lmstore f.address .BlockModified = some lmstore) :
      Turn mem_map m f c { f with status := .scheduled .unlock time } lmstore
        (some ⟨f.id, f.address, .setBlockState⟩)
  | noRead (time : ℕ) (hevent : f.status.event = .action) (htype : f.access_type = .NoReadAlloc) :
      Turn mem_map m f c { f with pending := 1, status := .scheduled .process time } m.lmstore none
  | request (pending : ℕ) (hevent : f.status.event = .action)
      (htype : f.access_type = .ReadAlloc ∨
        f.access_type = .WriteDealloc ∧ f.state = .BlockModified) :
      Turn mem_map m f c { f with pending := pending, status := .awaiting } m.lmstore none
  | replied (hevent : f.status.event = .process)
      (htype : isAlloc f.access_type ∨ isDealloc f.access_type) :
      Turn mem_map m f c { f with pending := f.pending - 1 } m.lmstore none
  | retryRequest (time : ℕ) (hevent : f.status.event = .process)
      (htype : isAlloc f.access_type ∨ isDealloc f.access_type) :
      Turn mem_map m f c { f with pending := f.pending - 1, status := .scheduled .lock time }
        m.lmstore none
  | allocate (time : ℕ) (hit : Bool) (lmstore : LMStore) (hevent : f.status.event = .process)
      (htype : isAlloc f.access_type)
      (halloc : allocateBlock mem_map m.lmstore f.address = some (hit, lmstore)) :
      Turn mem_map m f c { f with pending := f.pending - 1, status := .scheduled .unlock time }
        lmstore (some ⟨f.id, f.address, .allocateBlock⟩)
  | deallocate (time pending : ℕ) (hit : Bool) (lmstore : LMStore)
      (hevent : f.status.event = .action ∨ f.status.event = .process)
      (htype : isDealloc f.access_type)
      (hdealloc : deallocateBlock mem_map m.lmstore f.address = some (hit, lmstore)) :
      Turn mem_map m f c { f with pending := pending, status := .scheduled .unlock time } lmstore
        (some ⟨f.id, f.address, .deallocateBlock⟩)
  | unlock (time : ℕ) (hevent : f.status.event = .unlock) :
      Turn mem_map m f c { f with status := .scheduled .finish time } m.lmstore none

/-- Only the frame of the event changes; other accesses stay or are woken. -/
structure Others (m : Module) (f f' : Frame) (m' : Module) : Prop where
  next_id : m'.next_id = m.next_id
  ids : m'.accesses.map Frame.id = m.accesses.map Frame.id
  frames : ∀ g' ∈ m'.accesses,
    g' = f' ∨ ∃ g ∈ m.accesses, g.id ≠ f.id ∧ (g' = g ∨ g' = g.wakeup m.time)

/-- A turn of `f`, or its end. -/
def Turned (mem_map : MemMap) (m : Module) (f : Frame) (c : Choice) (r : Module × Option Effect) :
    Prop :=
  (f.status.event = .finish ∧ r = (m.FinishAccess f, none)) ∨
    ∃ f', Turn mem_map m f c f' r.1.lmstore r.2 ∧ Others m f f' r.1

namespace Others

variable {m m' : Module} {f f' : Frame}

theorem put (m : Module) (hid : f'.id = f.id) : Others m f f' (m.put f') where
  next_id := rfl
  ids := by
    rw [Module.put, List.map_map]
    refine List.map_congr_left fun g _ => ?_
    rw [Function.comp_apply]
    split_ifs with hg
    · exact hg.symm
    · rfl
  frames := by
    intro g' hg'
    obtain ⟨g, hg, rfl⟩ := List.mem_map.mp hg'
    split_ifs with h
    · exact Or.inl rfl
    · exact Or.inr ⟨g, hg, by rwa [hid] at h, Or.inl rfl⟩

theorem congr {m'' : Module} (h : Others m f f' m') (haccesses : m''.accesses = m'.accesses)
    (hnext : m''.next_id = m'.next_id) : Others m f f' m'' where
  next_id := hnext.trans h.next_id
  ids := by
    rw [haccesses]
    exact h.ids
  frames := by
    rw [haccesses]
    exact h.frames

theorem unlockPort (m : Module) (hid : f'.id = f.id) : Others m f f' (m.UnlockPort.put f') := by
  unfold Module.UnlockPort
  split
  · exact (put m hid).congr rfl rfl
  · rename_i id rest _
    refine ⟨rfl, ?_, fun g' hg' => ?_⟩
    · rw [Module.put, List.map_map, List.map_map]
      refine List.map_congr_left fun g _ => ?_
      simp only [Function.comp_apply]
      split_ifs with hg hwoken hwoken
      · exact hwoken.symm
      · rfl
      · exact hwoken.symm
      · rfl
    · obtain ⟨w, hw, rfl⟩ := List.mem_map.mp hg'
      obtain ⟨g, hg, rfl⟩ := List.mem_map.mp hw
      split_ifs with hwoken hsame hsame
      · exact Or.inl rfl
      · exact Or.inr ⟨g, hg, by rwa [hid] at hsame, Or.inr rfl⟩
      · exact Or.inl rfl
      · exact Or.inr ⟨g, hg, by rwa [hid] at hsame, Or.inl rfl⟩

theorem lockPort (m : Module) (hid : f'.id = f.id) : ∃ status : Status,
    status.event = .find_and_lock_port ∧ status ≠ .awaiting ∧
      (m.LockPort f').lmstore = m.lmstore ∧
      Others m f { f' with status := status } (m.LockPort f') := by
  have hput : ∀ status : Status,
      Others m f { f' with status := status } (m.put { f' with status := status }) :=
    fun status => put m hid
  unfold Module.LockPort
  split_ifs
  · exact ⟨.inPortQueue, rfl, nofun, rfl, (hput _).congr rfl rfl⟩
  · exact ⟨.scheduled .find_and_lock_port (m.time + 0), rfl, nofun, rfl, (hput _).congr rfl rfl⟩

end Others

section Handlers

variable {mem_map : MemMap} {m : Module} {f : Frame} {c : Choice} {r : Module × Option Effect}

theorem Turned.put {f' : Frame} {lmstore : LMStore} {e : Option Effect}
    (h : Turn mem_map m f c f' lmstore e) (hid : f'.id = f.id) :
    Turned mem_map m f c ({ m with lmstore := lmstore }.put f', e) :=
  Or.inr ⟨f', h, (Others.put m hid).congr rfl rfl⟩

theorem findAndLock_turned
    (h : EventLMStoreFindAndLockHandler mem_map m f f.status.event = some r) :
    Turned mem_map m f c r := by
  cases hevent : f.status.event <;> rw [hevent] at h
  case find_and_lock =>
    cases h
    obtain ⟨status, hstatus, hawaiting, hlmstore, hothers⟩ :=
      Others.lockPort (f := f) m (show ({ f with error := false } : Frame).id = f.id from rfl)
    refine Or.inr ⟨_, ?_, hothers⟩
    rw [hlmstore]
    exact .lockPort status hevent hstatus hawaiting
  case find_and_lock_port =>
    obtain ⟨⟨hit, blockstate⟩, hfind, hr⟩ := Option.bind_eq_some_iff.mp h
    cases hr
    exact .put (.find _ hit blockstate hevent hfind) rfl
  case find_and_lock_action =>
    cases h
    refine Or.inr ⟨{ f with status := .scheduled .find_and_lock_finish (m.UnlockPort.time + 0) },
      ?_, Others.unlockPort m rfl⟩
    have hlmstore : (m.UnlockPort.Next f .find_and_lock_finish 0).lmstore = m.lmstore := by
      unfold Module.UnlockPort
      split <;> rfl
    rw [hlmstore]
    exact .unlockPort _ hevent
  case find_and_lock_finish =>
    cases h
    exact .put (.found _ hevent) rfl
  all_goals cases h

theorem load_turned (htype : f.access_type = .Load)
    (h : EventLMStoreLoadHandler m f c f.status.event = some r) : Turned mem_map m f c r := by
  cases hevent : f.status.event <;> rw [hevent] at h
  case lock =>
    simp only [EventLMStoreLoadHandler] at h
    split at h <;> cases h
    case h_1 older holder =>
      exact .put (.wait older hevent (by rw [waitedFor, htype]; exact holder)) rfl
    case h_2 hnone =>
      exact .put (.lookup _ hevent (by rw [waitedFor, htype]; exact hnone) (Or.inl htype)) rfl
  case action =>
    simp only [EventLMStoreLoadHandler] at h
    split_ifs at h with herror <;> cases h
    · exact .put (.retryLookup _ hevent herror (Or.inl htype)) rfl
    · exact .put (.load _ hevent htype) rfl
  case unlock =>
    cases h
    exact .put (.unlock _ hevent) rfl
  case finish =>
    cases h
    exact Or.inl ⟨hevent, rfl⟩
  all_goals cases h

theorem store_turned (htype : f.access_type = .Store)
    (h : EventLMStoreStoreHandler mem_map m f c f.status.event = some r) :
    Turned mem_map m f c r := by
  cases hevent : f.status.event <;> rw [hevent] at h
  case lock =>
    simp only [EventLMStoreStoreHandler] at h
    split at h <;> cases h
    case h_1 older holder =>
      exact .put (.wait older hevent (by rw [waitedFor, htype]; exact holder)) rfl
    case h_2 hnone =>
      exact .put (.lookup _ hevent (by rw [waitedFor, htype]; exact hnone) (Or.inr htype)) rfl
  case action =>
    simp only [EventLMStoreStoreHandler] at h
    split_ifs at h with herror
    · cases h
      exact .put (.retryLookup _ hevent herror (Or.inr htype)) rfl
    · obtain ⟨lmstore, hset, hr⟩ := Option.bind_eq_some_iff.mp h
      cases hr
      exact .put (.store _ lmstore hevent htype hset) rfl
  case unlock =>
    cases h
    exact .put (.unlock _ hevent) rfl
  case finish =>
    cases h
    exact Or.inl ⟨hevent, rfl⟩
  all_goals cases h

theorem waitedFor_block (htype : isAlloc f.access_type ∨ isDealloc f.access_type) :
    waitedFor m f c = (m.getInFlightWrite f <|> m.getInFlightAddress f.address f c) := by
  unfold isAlloc isDealloc at htype
  unfold waitedFor
  split <;> simp_all

theorem alloc_turned (htype : isAlloc f.access_type)
    (h : EventLMStoreAllocHandler mem_map m f c f.status.event = some r) :
    Turned mem_map m f c r := by
  cases hevent : f.status.event <;> rw [hevent] at h
  case lock =>
    have hwaits := waitedFor_block (m := m) (c := c) (Or.inl htype)
    simp only [EventLMStoreAllocHandler] at h
    split at h <;> cases h
    case h_1 older holder => exact .put (.wait older hevent (hwaits.trans holder)) rfl
    case h_2 hnone => exact .put (.pass _ hevent (hwaits.trans hnone) (Or.inl htype)) rfl
  case action =>
    simp only [EventLMStoreAllocHandler] at h
    split_ifs at h with hnoRead <;> cases h
    · exact .put (.noRead _ hevent hnoRead) rfl
    · exact .put (.request _ hevent (Or.inl (htype.resolve_right hnoRead))) rfl
  case process =>
    simp only [EventLMStoreAllocHandler] at h
    split_ifs at h
    · cases h
      exact .put (.replied hevent (Or.inl htype)) rfl
    · cases h
      exact .put (.retryRequest _ hevent (Or.inl htype)) rfl
    · obtain ⟨⟨hit, lmstore⟩, halloc, hr⟩ := Option.bind_eq_some_iff.mp h
      cases hr
      exact .put (.allocate _ hit lmstore hevent htype halloc) rfl
  case unlock =>
    cases h
    exact .put (.unlock _ hevent) rfl
  case finish =>
    cases h
    exact Or.inl ⟨hevent, rfl⟩
  all_goals cases h

theorem dealloc_turned (htype : isDealloc f.access_type)
    (h : EventLMStoreDeallocHandler mem_map m f c f.status.event = some r) :
    Turned mem_map m f c r := by
  cases hevent : f.status.event <;> rw [hevent] at h
  case lock =>
    have hwaits := waitedFor_block (m := m) (c := c) (Or.inr htype)
    simp only [EventLMStoreDeallocHandler] at h
    split at h <;> cases h
    case h_1 older holder => exact .put (.wait older hevent (hwaits.trans holder)) rfl
    case h_2 hnone => exact .put (.pass _ hevent (hwaits.trans hnone) (Or.inr htype)) rfl
  case action =>
    simp only [EventLMStoreDeallocHandler] at h
    split_ifs at h with hclean
    · obtain ⟨⟨hit, lmstore⟩, hdealloc, hr⟩ := Option.bind_eq_some_iff.mp h
      cases hr
      exact .put (.deallocate _ f.pending hit lmstore (Or.inl hevent) htype hdealloc) rfl
    · cases h
      rw [not_or, not_not] at hclean
      exact .put (.request _ hevent (Or.inr ⟨htype.resolve_right hclean.2, hclean.1⟩)) rfl
  case process =>
    simp only [EventLMStoreDeallocHandler] at h
    split_ifs at h
    · cases h
      exact .put (.replied hevent (Or.inr htype)) rfl
    · cases h
      exact .put (.retryRequest _ hevent (Or.inr htype)) rfl
    · obtain ⟨⟨hit, lmstore⟩, hdealloc, hr⟩ := Option.bind_eq_some_iff.mp h
      cases hr
      exact .put (.deallocate _ (f.pending - 1) hit lmstore (Or.inr hevent) htype hdealloc) rfl
  case unlock =>
    cases h
    exact .put (.unlock _ hevent) rfl
  case finish =>
    cases h
    exact Or.inl ⟨hevent, rfl⟩
  all_goals cases h

theorem handle_turned (h : handle mem_map m f f.status.event c = some r) :
    Turned mem_map m f c r := by
  unfold handle at h
  split_ifs at h
  · exact findAndLock_turned h
  · cases htype : f.access_type <;> rw [htype] at h
    · exact load_turned htype h
    · exact store_turned htype h
    · exact alloc_turned (Or.inl htype) h
    · exact alloc_turned (Or.inr htype) h
    · exact dealloc_turned (Or.inl htype) h
    · exact dealloc_turned (Or.inr htype) h

end Handlers

/-- What a step is: the issue of an access, the passing of time, or a turn of one access, with its
error flag as memory has left it. -/
theorem step_turned {mem_map : MemMap} {m m' : Module} {a : Action} {e : Option Effect}
    (h : step mem_map m a = some (m', e)) :
    (e = none ∧ ∃ store address, a = .access store address ∧ ServesAddress mem_map address ∧
      m' = m.StartAccess (Frame.new m.next_id address
        (accessTypeOf mem_map (if store then .Store else .Load) address) m.time)) ∨
    (e = none ∧ a = .tick ∧ m' = { m with time := m.time + 1 }) ∨
    (∃ f c, m.accesses.find? (·.id = f.id) = some f ∧ a = .process f.id c ∧
      Turned mem_map m f c (m', e)) ∨
    (∃ f error c, m.accesses.find? (·.id = f.id) = some f ∧ a = .reply f.id error c ∧
      f.status = .awaiting ∧ Turned mem_map m { f with error := error } c (m', e)) := by
  cases a with
  | access store address =>
    obtain ⟨m₁, haccess, hr⟩ := Option.map_eq_some_iff.mp h
    cases hr
    obtain ⟨hserves, hm⟩ := Option.ite_none_right_eq_some.mp haccess
    cases hm
    exact Or.inl ⟨rfl, store, address, rfl, hserves, rfl⟩
  | tick =>
    simp only [step] at h
    split_ifs at h
    cases h
    exact Or.inr (Or.inl ⟨rfl, rfl, rfl⟩)
  | process id c =>
    obtain ⟨f, hf, hstep⟩ := Option.bind_eq_some_iff.mp h
    split_ifs at hstep
    obtain rfl : f.id = id := by simpa using List.find?_some hf
    exact Or.inr (Or.inr (Or.inl ⟨f, c, hf, rfl, handle_turned hstep⟩))
  | reply id error c =>
    obtain ⟨f, hf, hstep⟩ := Option.bind_eq_some_iff.mp h
    split_ifs at hstep with hstatus
    obtain rfl : f.id = id := by simpa using List.find?_some hf
    have hevent : ({ f with error := error } : Frame).status.event = .process := by
      rw [hstatus]
      rfl
    rw [← hevent] at hstep
    exact Or.inr (Or.inr (Or.inr ⟨f, error, c, hf, rfl, hstatus, handle_turned hstep⟩))

section Frames

variable {mem_map : MemMap} {m m' : Module} {f f' : Frame} {c : Choice} {lmstore : LMStore}
  {e : Option Effect}

theorem Turn.id (h : Turn mem_map m f c f' lmstore e) : f'.id = f.id := by
  cases h <;> rfl

theorem Turn.address (h : Turn mem_map m f c f' lmstore e) : f'.address = f.address := by
  cases h <;> rfl

theorem Turn.access_type (h : Turn mem_map m f c f' lmstore e) :
    f'.access_type = f.access_type := by
  cases h <;> rfl

theorem Turn.effect_id (h : Turn mem_map m f c f' lmstore e) : ∀ x ∈ e, x.id = f.id := by
  cases h <;> simp

theorem mem_finishAccess {g' : Frame} (h : g' ∈ (m.FinishAccess f).accesses) :
    ∃ g ∈ m.accesses, g.id ≠ f.id ∧ (g' = g ∨ g' = g.wakeup m.time) := by
  obtain ⟨g, hg, rfl⟩ := List.mem_map.mp h
  obtain ⟨hmem, hid⟩ := List.mem_filter.mp hg
  refine ⟨g, hmem, by simpa using hid, ?_⟩
  split_ifs
  · exact Or.inr rfl
  · exact Or.inl rfl

/-- A property of the frame that a turn leaves and of every other access, woken or not, holds of all
frames after the turn. -/
theorem Turned.forall_frames {P : Frame → Prop} (h : Turned mem_map m f c (m', e))
    (hothers : ∀ g ∈ m.accesses, g.id ≠ f.id → P g ∧ P (g.wakeup m.time))
    (hturn : ∀ f', Turn mem_map m f c f' m'.lmstore e → P f') : ∀ g ∈ m'.accesses, P g := by
  have hother : ∀ {g' : Frame},
      (∃ g ∈ m.accesses, g.id ≠ f.id ∧ (g' = g ∨ g' = g.wakeup m.time)) → P g' := by
    intro g' hg'
    obtain ⟨g, hg, hid, hsame | hwoken⟩ := hg'
    · rw [hsame]
      exact (hothers g hg hid).1
    · rw [hwoken]
      exact (hothers g hg hid).2
  intro g' hg'
  rcases h with ⟨-, hr⟩ | ⟨f', hf', others⟩
  · obtain rfl : m' = m.FinishAccess f := congrArg Prod.fst hr
    exact hother (mem_finishAccess hg')
  · rcases others.frames g' hg' with rfl | hg'
    · exact hturn _ hf'
    · exact hother hg'

theorem Turned.frames {P : Frame → Prop} (hwakeup : ∀ f time, P f → P (f.wakeup time))
    (hturn : ∀ f' lmstore e, Turn mem_map m f c f' lmstore e → P f')
    (hP : ∀ g ∈ m.accesses, P g) (h : Turned mem_map m f c (m', e)) : ∀ g ∈ m'.accesses, P g :=
  h.forall_frames (fun g hg _ => ⟨hP g hg, hwakeup g _ (hP g hg)⟩)
    fun f' hf' => hturn f' _ _ hf'

/-- A property of frames that holds of new ones and that turns and wakeups keep. -/
theorem frames_step {P : Frame → Prop} (hwakeup : ∀ f time, P f → P (f.wakeup time))
    (hnew : ∀ (id address time : ℕ) (store : Bool), ServesAddress mem_map address →
      P (Frame.new id address
        (accessTypeOf mem_map (if store then .Store else .Load) address) time))
    (hturn : ∀ m f error c f' lmstore e, P f →
      Turn mem_map m { f with error := error } c f' lmstore e → P f')
    {a : Action} (h : step mem_map m a = some (m', e)) (hP : ∀ f ∈ m.accesses, P f) :
    ∀ f ∈ m'.accesses, P f := by
  rcases step_turned h with ⟨-, store, address, -, hserves, rfl⟩ | ⟨-, -, rfl⟩ |
    ⟨f, c, hf, -, h⟩ | ⟨f, error, c, hf, -, -, h⟩
  · intro f hf
    rcases List.mem_append.mp hf with hf | hf
    · exact hP f hf
    · rw [List.mem_singleton.mp hf]
      exact hnew m.next_id address m.time store hserves
  · exact hP
  · have hf := hP f (List.mem_of_find?_eq_some hf)
    exact h.frames hwakeup (fun f' _ _ => hturn m f f.error c f' _ _ hf) hP
  · have hf := hP f (List.mem_of_find?_eq_some hf)
    exact h.frames hwakeup (fun f' _ _ => hturn m f error c f' _ _ hf) hP

end Frames

/-- An LMStore module before its first access. -/
def initial (BlockSize LMRefSize LMDirSize NumberOfBlocks lmsStoreSize num_ports log_block_size
    data_latency mm_block_size : ℕ) : State :=
  (Module.new (LMStore.new BlockSize LMRefSize LMDirSize NumberOfBlocks lmsStoreSize)
    num_ports log_block_size data_latency mm_block_size, [])

/-- What an access in flight was issued with. -/
def Served (mem_map : MemMap) (f : Frame) : Prop :=
  ServesAddress mem_map f.address ∧
    ∃ store : Bool, f.access_type =
      accessTypeOf mem_map (if store then .Store else .Load) f.address

theorem served_step {mem_map : MemMap} {m m' : Module} {a : Action} {e : Option Effect}
    (h : step mem_map m a = some (m', e)) (hm : ∀ f ∈ m.accesses, Served mem_map f) :
    ∀ f ∈ m'.accesses, Served mem_map f := by
  refine frames_step (fun _ _ h => h) (fun _ _ _ store hserves => ⟨hserves, store, rfl⟩) ?_ h hm
  intro m f error c f' lmstore e hf hturn
  unfold Served
  rw [hturn.address, hturn.access_type]
  exact hf

end MMLMStore.LMStoreTurns
