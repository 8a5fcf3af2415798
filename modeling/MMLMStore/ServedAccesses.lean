import MMLMStore.TranslatedAccesses

/-!
# One access at a time

An access that an idle LMStore takes, with no other one issued before it ends. In every order of its
events, of the ticks of the clock and of the replies of memory, its chain makes on the directory
what the access is served with, once.
-/
namespace MMLMStore.ServedAccesses
open LMStoreDecode LMStoreEvents LMStoreTables StepRuns TranslatedAccesses

def operations : AccessType → List Operation
  | .Load => [.FindBlock]
  | .Store => [.FindBlock, .setBlockState]
  | .ReadAlloc | .NoReadAlloc => [.allocateBlock]
  | .WriteDealloc | .NoWriteDealloc => [.deallocateBlock]

def madeBefore (type : AccessType) : Event → List Operation
  | .lock | .find_and_lock | .find_and_lock_port => []
  | .find_and_lock_action | .find_and_lock_finish => [.FindBlock]
  | .action | .process => (operations type).filter (· = .FindBlock)
  | .unlock | .finish => operations type

def perform (mem_map : MemMap) (address : ℕ) (s : LMStore) : Operation → Option LMStore
  | .FindBlock => (FindBlock mem_map s address).map fun _ => s
  | .setBlockState => setBlockState mem_map s address .BlockModified
  | .allocateBlock => (allocateBlock mem_map s address).map Prod.snd
  | .deallocateBlock => (deallocateBlock mem_map s address).map Prod.snd

theorem serve_eq (mem_map : MemMap) (s : LMStore) (address : ℕ) (type : AccessType) :
    serve mem_map s address type = (operations type).foldlM (perform mem_map address) s := by
  cases type with
  | Load =>
    simp only [serve, operations, List.foldlM_cons, List.foldlM_nil, perform]
    cases FindBlock mem_map s address <;> rfl
  | Store =>
    simp only [serve, operations, List.foldlM_cons, List.foldlM_nil, perform]
    cases FindBlock mem_map s address <;> simp
  | ReadAlloc | NoReadAlloc =>
    simp only [serve, operations, List.foldlM_cons, List.foldlM_nil, perform]
    cases allocateBlock mem_map s address <;> rfl
  | WriteDealloc | NoWriteDealloc =>
    simp only [serve, operations, List.foldlM_cons, List.foldlM_nil, perform]
    cases deallocateBlock mem_map s address <;> rfl

/-- The LMStore and the operations logged when an access is issued, and the access. -/
structure Issue where
  lmstore : LMStore
  past : List Effect
  id : ℕ
  address : ℕ
  access_type : AccessType

/-- A list of operations has been made for the access. -/
structure Made (mem_map : MemMap) (i : Issue) (ops : List Operation) (lmstore : LMStore)
    (log : List Effect) : Prop where
  lmstore : ops.foldlM (perform mem_map i.address) i.lmstore = some lmstore
  log : log = i.past ++ ops.map (⟨i.id, i.address, ·⟩)

def lookups : List Event :=
  [.find_and_lock, .find_and_lock_port, .find_and_lock_action, .find_and_lock_finish]

/-- Events of the chain of an access; loads and stores look their block up. -/
def eventsOf : AccessType → List Event
  | .Load | .Store => [.lock] ++ lookups ++ [.action, .unlock, .finish]
  | .ReadAlloc | .NoReadAlloc | .WriteDealloc | .NoWriteDealloc =>
    [.lock, .action, .process, .unlock, .finish]

theorem mem_eventsOf {e : Event} (he : e ∈ [Event.lock, .action, .unlock, .finish])
    (type : AccessType) : e ∈ eventsOf type := by
  simp only [List.mem_cons, List.not_mem_nil, or_false] at he
  rcases he with rfl | rfl | rfl | rfl <;> cases type <;> simp [eventsOf, lookups]

theorem looksUp {type : AccessType} {e : Event} (he : e ∈ eventsOf type) (hlookup : e ∈ lookups) :
    type = .Load ∨ type = .Store := by
  cases type with
  | Load => exact Or.inl rfl
  | Store => exact Or.inr rfl
  | ReadAlloc | NoReadAlloc | WriteDealloc | NoWriteDealloc =>
    simp only [lookups, eventsOf, List.mem_cons, List.not_mem_nil, or_false] at he hlookup
    grind

/-- The frame is that of the access, before an event. A lookup leaves no error to the chain. -/
structure InFlight (mem_map : MemMap) (i : Issue) (e : Event) (m : Module) (f : Frame)
    (log : List Effect) : Prop where
  accesses : ∃ g, m.accesses = [g] ∧ g.id = i.id
  id : f.id = i.id
  address : f.address = i.address
  access_type : f.access_type = i.access_type
  reached : e ∈ eventsOf i.access_type
  error : e = .action → .FindBlock ∈ operations i.access_type → f.error = false
  made : Made mem_map i (madeBefore i.access_type e) m.lmstore log

/-- The access is the only one, or it has ended. -/
inductive Alone (mem_map : MemMap) (i : Issue) : State → Prop
  | inFlight {m : Module} {f : Frame} {log : List Effect} (accesses : m.accesses = [f])
      (hf : InFlight mem_map i f.status.event m f log) : Alone mem_map i (m, log)
  | served {m : Module} {log : List Effect} (accesses : m.accesses = [])
      (made : Made mem_map i (operations i.access_type) m.lmstore log) : Alone mem_map i (m, log)

variable {mem_map : MemMap} {i : Issue} {e : Event} {m : Module} {f : Frame} {log : List Effect}

/-- The queue for the port and the clock do not matter. -/
theorem Alone.congr {m' : Module} (h : Alone mem_map i (m, log))
    (haccesses : m'.accesses = m.accesses) (hlmstore : m'.lmstore = m.lmstore) :
    Alone mem_map i (m', log) := by
  cases h with
  | inFlight hf h =>
    refine .inFlight (haccesses.trans hf) ⟨⟨_, haccesses.trans hf, h.id⟩, h.id, h.address,
      h.access_type, h.reached, h.error, ?_⟩
    rw [hlmstore]
    exact h.made
  | served hnone made =>
    refine .served (haccesses.trans hnone) ?_
    rw [hlmstore]
    exact made

theorem Made.concat {ops : List Operation} {s t : LMStore} (h : Made mem_map i ops s log)
    {op : Operation} (hop : perform mem_map i.address s op = some t) :
    Made mem_map i (ops ++ [op]) t (log ++ [⟨i.id, i.address, op⟩]) := by
  constructor
  · rw [List.foldlM_append, h.lmstore]
    simpa using hop
  · rw [h.log, List.map_append, List.append_assoc]
    rfl

namespace InFlight

theorem put (h : InFlight mem_map i e m f log) (status : Status) (he : status.event = e) :
    Alone mem_map i (m.put { f with status := status }, log) := by
  obtain ⟨g, hg, hid⟩ := h.accesses
  have haccesses : (m.put { f with status := status }).accesses =
      [{ f with status := status }] := by
    simp [Module.put, hg, hid, h.id]
  refine .inFlight haccesses ?_
  rw [he]
  exact ⟨⟨_, haccesses, h.id⟩, h.id, h.address, h.access_type, h.reached, h.error, h.made⟩

theorem Next (h : InFlight mem_map i e m f log) (after : ℕ) :
    Alone mem_map i (m.Next f e after, log) := h.put _ rfl

theorem older_eq_nil (h : InFlight mem_map i e m f log) : m.older f = [] := by
  obtain ⟨g, hg, hid⟩ := h.accesses
  simp [Module.older, hg, hid, h.id]

theorem getInFlightAddress_eq_none (h : InFlight mem_map i e m f log) (address : ℕ) (c : Choice) :
    m.getInFlightAddress address f c = none := by
  obtain ⟨g, hg, hid⟩ := h.accesses
  simp [Module.getInFlightAddress, hg, hid, h.id]

theorem finish (h : InFlight mem_map i .finish m f log) :
    Alone mem_map i (m.FinishAccess f, log) := by
  obtain ⟨g, hg, hid⟩ := h.accesses
  refine .served ?_ h.made
  simp [Module.FinishAccess, hg, hid, h.id]

theorem UnlockPort_accesses (h : InFlight mem_map i e m f log) :
    ∃ g, m.UnlockPort.accesses = [g] ∧ g.id = i.id := by
  obtain ⟨g, hg, hid⟩ := h.accesses
  unfold Module.UnlockPort
  cases m.port_queue with
  | nil => exact ⟨g, hg, hid⟩
  | cons id rest =>
    refine ⟨if g.id = id then g.wakeup m.time else g, by simp [hg], ?_⟩
    split_ifs
    · exact hid
    · exact hid

theorem UnlockPort_lmstore (m : Module) : m.UnlockPort.lmstore = m.lmstore := by
  unfold Module.UnlockPort
  cases m.port_queue <;> rfl

theorem LockPort (h : InFlight mem_map i .find_and_lock_port m f log) :
    Alone mem_map i (m.LockPort f, log) := by
  unfold Module.LockPort
  split_ifs
  · exact (h.put .inPortQueue rfl).congr rfl rfl
  · exact (h.Next 0).congr rfl rfl

variable {r : Module × Option Effect}

theorem findAndLock (h : InFlight mem_map i e m f log)
    (hr : EventLMStoreFindAndLockHandler mem_map m f e = some r) :
    Alone mem_map i (r.1, log ++ r.2.toList) := by
  have hreached : e ∈ lookups → ∀ e' ∈ lookups, e' ∈ eventsOf i.access_type := by
    intro he e' he'
    rcases looksUp h.reached he with htype | htype
    · simp [htype, eventsOf, he']
    · simp [htype, eventsOf, he']
  cases e with
  | find_and_lock =>
    cases hr
    have hnext : InFlight mem_map i .find_and_lock_port m { f with error := false } log :=
      ⟨h.accesses, h.id, h.address, h.access_type,
        hreached (by simp [lookups]) _ (by simp [lookups]), by simp, h.made⟩
    simpa using hnext.LockPort
  | find_and_lock_port =>
    simp only [EventLMStoreFindAndLockHandler, Option.bind_eq_bind, Option.bind_eq_some_iff,
      Option.some.injEq] at hr
    obtain ⟨⟨_, blockstate⟩, hfound, rfl⟩ := hr
    have hperform : perform mem_map i.address m.lmstore .FindBlock = some m.lmstore := by
      rw [← h.address, perform, hfound]
      rfl
    have hnext : InFlight mem_map i .find_and_lock_action m
        { f with found := if blockstate = .BlockInvalid then .BlockInvalid else .BlockExclusive }
        (log ++ [⟨i.id, i.address, .FindBlock⟩]) :=
      ⟨h.accesses, h.id, h.address, h.access_type,
        hreached (by simp [lookups]) _ (by simp [lookups]), by simp, h.made.concat hperform⟩
    simpa [h.id, h.address] using hnext.Next m.data_latency
  | find_and_lock_action =>
    cases hr
    have hnext : InFlight mem_map i .find_and_lock_finish m.UnlockPort f log := by
      refine ⟨h.UnlockPort_accesses, h.id, h.address, h.access_type,
        hreached (by simp [lookups]) _ (by simp [lookups]), by simp, ?_⟩
      rw [UnlockPort_lmstore]
      exact h.made
    simpa using hnext.Next 0
  | find_and_lock_finish =>
    cases hr
    have hmade : madeBefore i.access_type .action =
        madeBefore i.access_type .find_and_lock_finish := by
      rcases looksUp h.reached (by simp [lookups]) with htype | htype <;> rw [htype] <;> rfl
    have hnext : InFlight mem_map i .action m { f with error := false, state := f.found } log := by
      refine ⟨h.accesses, h.id, h.address, h.access_type, mem_eventsOf (by simp) _,
        fun _ _ => rfl, ?_⟩
      rw [hmade]
      exact h.made
    simpa using hnext.Next 0
  | lock | action | process | unlock | finish => cases hr

theorem move (h : InFlight mem_map i e m f log) (e' : Event) (f' : Frame) (hid : f'.id = f.id)
    (haddress : f'.address = f.address) (htype : f'.access_type = f.access_type)
    (hreached : e' ∈ eventsOf i.access_type)
    (herror : e' = .action → .FindBlock ∈ operations i.access_type → f'.error = false)
    (hmade : madeBefore i.access_type e' = madeBefore i.access_type e) :
    InFlight mem_map i e' m f' log := by
  refine ⟨h.accesses, hid.trans h.id, haddress.trans h.address, htype.trans h.access_type,
    hreached, herror, ?_⟩
  rw [hmade]
  exact h.made

theorem unlock (h : InFlight mem_map i .unlock m f log) (after : ℕ) :
    Alone mem_map i (m.Next f .finish after, log) :=
  (h.move .finish f rfl rfl rfl (mem_eventsOf (by simp) _) (by simp) rfl).Next after

theorem retry (h : InFlight mem_map i e m f log) (hnone : madeBefore i.access_type e = [])
    (after : ℕ) : Alone mem_map i (m.Next f .lock after, log) :=
  (h.move .lock f rfl rfl rfl (mem_eventsOf (by simp) _) (by simp) hnone.symm).Next after

theorem last (h : InFlight mem_map i e m f log) {op : Operation} {lmstore : LMStore}
    (hop : perform mem_map f.address m.lmstore op = some lmstore)
    (hlast : operations i.access_type = madeBefore i.access_type e ++ [op]) :
    Alone mem_map i ({ m with lmstore := lmstore }.Next f .unlock 0,
      log ++ [⟨f.id, f.address, op⟩]) := by
  have hnext : InFlight mem_map i .unlock { m with lmstore := lmstore } f
      (log ++ [⟨i.id, i.address, op⟩]) := by
    refine ⟨h.accesses, h.id, h.address, h.access_type, mem_eventsOf (by simp) _, by simp, ?_⟩
    rw [madeBefore, hlast]
    exact h.made.concat (by rwa [← h.address])
  rw [h.id, h.address]
  exact hnext.Next 0

theorem load (h : InFlight mem_map i e m f log) (htype : i.access_type = .Load) {c : Choice}
    (hr : EventLMStoreLoadHandler m f c e = some r) :
    Alone mem_map i (r.1, log ++ r.2.toList) := by
  have hlooks : .FindBlock ∈ operations i.access_type := by simp [htype, operations]
  cases e with
  | lock =>
    have hnone : EventLMStoreLoadHandler m f c .lock =
        some (m.Next { f with found := .BlockInvalid } .find_and_lock 0, none) := by
      simp [EventLMStoreLoadHandler, Module.getInFlightAlloc, Module.getInFlightWrite,
        h.older_eq_nil, h.getInFlightAddress_eq_none]
    cases hnone.symm.trans hr
    have hnext := h.move .find_and_lock { f with found := .BlockInvalid } rfl rfl rfl
      (by simp [htype, eventsOf, lookups]) (by simp) rfl
    simpa using hnext.Next 0
  | action =>
    simp only [EventLMStoreLoadHandler, h.error rfl hlooks, Bool.false_eq_true, if_false] at hr
    cases hr
    have hmade : madeBefore i.access_type .unlock = madeBefore i.access_type .action := by
      rw [htype]
      rfl
    have hnext := h.move .unlock f rfl rfl rfl (mem_eventsOf (by simp) _) (by simp) hmade
    simpa using hnext.Next 0
  | unlock =>
    cases hr
    simpa using h.unlock m.data_latency
  | finish =>
    cases hr
    simpa using h.finish
  | find_and_lock | find_and_lock_port | find_and_lock_action | find_and_lock_finish | process =>
    cases hr

theorem store (h : InFlight mem_map i e m f log) (htype : i.access_type = .Store) {c : Choice}
    (hr : EventLMStoreStoreHandler mem_map m f c e = some r) :
    Alone mem_map i (r.1, log ++ r.2.toList) := by
  have hlooks : .FindBlock ∈ operations i.access_type := by simp [htype, operations]
  cases e with
  | lock =>
    have hnone : EventLMStoreStoreHandler mem_map m f c .lock =
        some (m.Next { f with found := .BlockInvalid } .find_and_lock 0, none) := by
      simp [EventLMStoreStoreHandler, h.older_eq_nil]
    cases hnone.symm.trans hr
    have hnext := h.move .find_and_lock { f with found := .BlockInvalid } rfl rfl rfl
      (by simp [htype, eventsOf, lookups]) (by simp) rfl
    simpa using hnext.Next 0
  | action =>
    simp only [EventLMStoreStoreHandler, h.error rfl hlooks, Bool.false_eq_true, if_false,
      Option.bind_eq_bind, Option.bind_eq_some_iff, Option.some.injEq] at hr
    obtain ⟨lmstore, hset, rfl⟩ := hr
    have hlast : operations i.access_type =
        madeBefore i.access_type .action ++ [.setBlockState] := by
      rw [htype]
      rfl
    exact h.last hset hlast
  | unlock =>
    cases hr
    simpa using h.unlock m.data_latency
  | finish =>
    cases hr
    simpa using h.finish
  | find_and_lock | find_and_lock_port | find_and_lock_action | find_and_lock_finish | process =>
    cases hr

/-- The frame of an allocation or a deallocation has made nothing before its one operation. -/
theorem madeBefore_process (h : .FindBlock ∉ operations i.access_type) :
    madeBefore i.access_type .process = [] := by
  rw [madeBefore, List.filter_eq_nil_iff]
  intro op hop heq
  rw [decide_eq_true_iff] at heq
  exact h (heq ▸ hop)

theorem process (h : InFlight mem_map i .process m f log) (hstatus : f.status.event = .process)
    {op : Operation} (hop : operations i.access_type = [op]) (hne : op ≠ .FindBlock) {c : Choice}
    {run : Option LMStore} (hrun : perform mem_map f.address m.lmstore op = run)
    (hr : (if f.pending - 1 ≠ 0 then some (m.put { f with pending := f.pending - 1 }, none)
      else if f.error then
        some (m.Next { f with pending := f.pending - 1 } .lock (m.getRetryLatency c), none)
      else run.bind fun lmstore =>
        some ({ m with lmstore := lmstore }.Next { f with pending := f.pending - 1 } .unlock 0,
          some ⟨f.id, f.address, op⟩)) = some r) :
    Alone mem_map i (r.1, log ++ r.2.toList) := by
  have hnone : madeBefore i.access_type .process = [] :=
    madeBefore_process (by simpa [hop] using hne.symm)
  have hnext : InFlight mem_map i .process m { f with pending := f.pending - 1 } log :=
    h.move _ _ rfl rfl rfl h.reached (by simp) rfl
  split_ifs at hr
  · cases hr
    simpa using hnext.put _ hstatus
  · cases hr
    simpa using hnext.retry hnone (m.getRetryLatency c)
  · rw [Option.bind_eq_some_iff] at hr
    obtain ⟨lmstore, hlmstore, hr⟩ := hr
    cases hr
    exact hnext.last (hrun.trans hlmstore) (by rw [hnone, hop, List.nil_append])

theorem alloc (h : InFlight mem_map i e m f log) (hstatus : f.status.event = e)
    (htype : i.access_type = .ReadAlloc ∨ i.access_type = .NoReadAlloc) {c : Choice}
    (hr : EventLMStoreAllocHandler mem_map m f c e = some r) :
    Alone mem_map i (r.1, log ++ r.2.toList) := by
  have hop : operations i.access_type = [.allocateBlock] := by
    rcases htype with htype | htype <;> rw [htype] <;> rfl
  have hnone : madeBefore i.access_type .action = [] := madeBefore_process (by simp [hop])
  have hprocess : .process ∈ eventsOf i.access_type := by
    rcases htype with htype | htype <;> simp [htype, eventsOf]
  cases e with
  | lock =>
    have hfirst : EventLMStoreAllocHandler mem_map m f c .lock =
        some (m.Next f .action 0, none) := by
      simp [EventLMStoreAllocHandler, Module.getInFlightWrite, h.older_eq_nil,
        h.getInFlightAddress_eq_none]
    cases hfirst.symm.trans hr
    have hnext := h.move .action f rfl rfl rfl (mem_eventsOf (by simp) _) (by simp [hop]) hnone
    simpa using hnext.Next 0
  | action =>
    simp only [EventLMStoreAllocHandler] at hr
    split_ifs at hr
    · cases hr
      have hnext := h.move .process { f with pending := 1 } rfl rfl rfl hprocess (by simp) rfl
      simpa using hnext.Next 0
    · cases hr
      have hnext := h.move .process
        { f with pending := m.mmBlocks (getBlockSize mem_map f.address) } rfl rfl rfl
        hprocess (by simp) rfl
      simpa using hnext.put .awaiting rfl
  | process =>
    refine h.process hstatus hop (by simp) rfl (c := c) (r := r) ?_
    simp only [EventLMStoreAllocHandler, Option.bind_eq_bind] at hr
    simpa [perform, Option.bind_map] using hr
  | unlock =>
    cases hr
    simpa using h.unlock m.data_latency
  | finish =>
    cases hr
    simpa using h.finish
  | find_and_lock | find_and_lock_port | find_and_lock_action | find_and_lock_finish => cases hr

theorem dealloc (h : InFlight mem_map i e m f log) (hstatus : f.status.event = e)
    (htype : i.access_type = .WriteDealloc ∨ i.access_type = .NoWriteDealloc) {c : Choice}
    (hr : EventLMStoreDeallocHandler mem_map m f c e = some r) :
    Alone mem_map i (r.1, log ++ r.2.toList) := by
  have hop : operations i.access_type = [.deallocateBlock] := by
    rcases htype with htype | htype <;> rw [htype] <;> rfl
  have hnone : madeBefore i.access_type .action = [] := madeBefore_process (by simp [hop])
  have hprocess : .process ∈ eventsOf i.access_type := by
    rcases htype with htype | htype <;> simp [htype, eventsOf]
  cases e with
  | lock =>
    have hfirst : EventLMStoreDeallocHandler mem_map m f c .lock =
        some (m.Next f .action 0, none) := by
      simp [EventLMStoreDeallocHandler, Module.getInFlightWrite, h.older_eq_nil,
        h.getInFlightAddress_eq_none]
    cases hfirst.symm.trans hr
    have hnext := h.move .action f rfl rfl rfl (mem_eventsOf (by simp) _) (by simp [hop]) hnone
    simpa using hnext.Next 0
  | action =>
    simp only [EventLMStoreDeallocHandler] at hr
    split_ifs at hr
    · simp only [Option.bind_eq_bind, Option.bind_eq_some_iff, Option.some.injEq] at hr
      obtain ⟨⟨_, lmstore⟩, hdealloc, rfl⟩ := hr
      have hperform : perform mem_map f.address m.lmstore .deallocateBlock = some lmstore := by
        rw [perform, hdealloc]
        rfl
      exact h.last hperform (by rw [hnone, hop, List.nil_append])
    · cases hr
      have hnext := h.move .process
        { f with pending := m.mmBlocks (getBlockSize mem_map f.address) } rfl rfl rfl
        hprocess (by simp) rfl
      simpa using hnext.put .awaiting rfl
  | process =>
    refine h.process hstatus hop (by simp) rfl (c := c) (r := r) ?_
    simp only [EventLMStoreDeallocHandler, Option.bind_eq_bind] at hr
    simpa [perform, Option.bind_map] using hr
  | unlock =>
    cases hr
    simpa using h.unlock 0
  | finish =>
    cases hr
    simpa using h.finish
  | find_and_lock | find_and_lock_port | find_and_lock_action | find_and_lock_finish => cases hr

theorem handle (h : InFlight mem_map i e m f log) (hstatus : f.status.event = e) {c : Choice}
    (hr : LMStoreEvents.handle mem_map m f e c = some r) :
    Alone mem_map i (r.1, log ++ r.2.toList) := by
  unfold LMStoreEvents.handle at hr
  split_ifs at hr with hlookup
  · exact h.findAndLock hr
  · cases htype : f.access_type with
    | Load =>
      rw [htype] at hr
      exact h.load (h.access_type ▸ htype) hr
    | Store =>
      rw [htype] at hr
      exact h.store (h.access_type ▸ htype) hr
    | ReadAlloc =>
      rw [htype] at hr
      exact h.alloc hstatus (Or.inl (h.access_type ▸ htype)) hr
    | NoReadAlloc =>
      rw [htype] at hr
      exact h.alloc hstatus (Or.inr (h.access_type ▸ htype)) hr
    | WriteDealloc =>
      rw [htype] at hr
      exact h.dealloc hstatus (Or.inl (h.access_type ▸ htype)) hr
    | NoWriteDealloc =>
      rw [htype] at hr
      exact h.dealloc hstatus (Or.inr (h.access_type ▸ htype)) hr

end InFlight

/-- The operation that comes next has a result where serving the access has one. -/
theorem Made.perform_isSome {ops : List Operation} {s : LMStore} (h : Made mem_map i ops s log)
    {op : Operation} (hops : ∃ rest, operations i.access_type = ops ++ op :: rest)
    (hserve : (serve mem_map i.lmstore i.address i.access_type).isSome) :
    (perform mem_map i.address s op).isSome := by
  obtain ⟨rest, hops⟩ := hops
  rw [serve_eq, hops, List.foldlM_append, h.lmstore] at hserve
  simp only [Option.bind_eq_bind, Option.bind_some, List.foldlM_cons] at hserve
  exact Option.isSome_of_isSome_bind hserve

namespace InFlight

variable (hserve : (serve mem_map i.lmstore i.address i.access_type).isSome)

include hserve

theorem perform_isSome (h : InFlight mem_map i e m f log) (op : Operation)
    (hops : ∃ rest, operations i.access_type = madeBefore i.access_type e ++ op :: rest) :
    (perform mem_map f.address m.lmstore op).isSome := by
  rw [h.address]
  exact h.made.perform_isSome hops hserve

theorem findAndLock_isSome (h : InFlight mem_map i e m f log) (he : e ∈ lookups) :
    (EventLMStoreFindAndLockHandler mem_map m f e).isSome := by
  cases e with
  | find_and_lock_port =>
    have hperform := h.perform_isSome hserve .FindBlock (by
      rcases looksUp h.reached he with htype | htype
      · exact ⟨[], by rw [htype]; rfl⟩
      · exact ⟨[.setBlockState], by rw [htype]; rfl⟩)
    rw [perform, Option.isSome_map, Option.isSome_iff_exists] at hperform
    obtain ⟨found, hfound⟩ := hperform
    simp [EventLMStoreFindAndLockHandler, hfound]
  | find_and_lock | find_and_lock_action | find_and_lock_finish => rfl
  | lock | action | process | unlock | finish => simp [lookups] at he

theorem store_isSome (h : InFlight mem_map i e m f log) (htype : i.access_type = .Store)
    (he : e ∉ lookups) (c : Choice) : (EventLMStoreStoreHandler mem_map m f c e).isSome := by
  have hreached := h.reached
  cases e with
  | lock => simp [EventLMStoreStoreHandler, h.older_eq_nil]
  | action =>
    have hperform := h.perform_isSome hserve .setBlockState ⟨[], by rw [htype]; rfl⟩
    rw [perform, Option.isSome_iff_exists] at hperform
    obtain ⟨lmstore, hset⟩ := hperform
    simp only [EventLMStoreStoreHandler]
    split_ifs
    · rfl
    · simp [hset]
  | unlock | finish => rfl
  | process => simp [htype, eventsOf, lookups] at hreached
  | find_and_lock | find_and_lock_port | find_and_lock_action | find_and_lock_finish =>
    simp [lookups] at he

theorem alloc_isSome (h : InFlight mem_map i e m f log)
    (htype : i.access_type = .ReadAlloc ∨ i.access_type = .NoReadAlloc) (he : e ∉ lookups)
    (c : Choice) : (EventLMStoreAllocHandler mem_map m f c e).isSome := by
  have hop : operations i.access_type = [.allocateBlock] := by
    rcases htype with htype | htype <;> rw [htype] <;> rfl
  cases e with
  | lock =>
    simp [EventLMStoreAllocHandler, Module.getInFlightWrite, h.older_eq_nil,
      h.getInFlightAddress_eq_none]
  | action =>
    simp only [EventLMStoreAllocHandler]
    split_ifs <;> rfl
  | process =>
    have hnone : madeBefore i.access_type .process = [] := madeBefore_process (by simp [hop])
    have hperform := h.perform_isSome hserve .allocateBlock
      ⟨[], by rw [hnone, hop, List.nil_append]⟩
    rw [perform, Option.isSome_map, Option.isSome_iff_exists] at hperform
    obtain ⟨result, hresult⟩ := hperform
    simp only [EventLMStoreAllocHandler, hresult]
    split_ifs <;> rfl
  | unlock | finish => rfl
  | find_and_lock | find_and_lock_port | find_and_lock_action | find_and_lock_finish =>
    simp [lookups] at he

theorem dealloc_isSome (h : InFlight mem_map i e m f log)
    (htype : i.access_type = .WriteDealloc ∨ i.access_type = .NoWriteDealloc) (he : e ∉ lookups)
    (c : Choice) : (EventLMStoreDeallocHandler mem_map m f c e).isSome := by
  have hop : operations i.access_type = [.deallocateBlock] := by
    rcases htype with htype | htype <;> rw [htype] <;> rfl
  have hperform : madeBefore i.access_type e = [] →
      ∃ result, deallocateBlock mem_map m.lmstore f.address = some result := by
    intro hnone
    have hlast := h.perform_isSome hserve .deallocateBlock
      ⟨[], by rw [hnone, hop, List.nil_append]⟩
    rwa [perform, Option.isSome_map, Option.isSome_iff_exists] at hlast
  cases e with
  | lock =>
    simp [EventLMStoreDeallocHandler, Module.getInFlightWrite, h.older_eq_nil,
      h.getInFlightAddress_eq_none]
  | action =>
    obtain ⟨result, hresult⟩ := hperform (madeBefore_process (by simp [hop]))
    simp only [EventLMStoreDeallocHandler, hresult]
    split_ifs <;> rfl
  | process =>
    obtain ⟨result, hresult⟩ := hperform (madeBefore_process (by simp [hop]))
    simp only [EventLMStoreDeallocHandler, hresult]
    split_ifs <;> rfl
  | unlock | finish => rfl
  | find_and_lock | find_and_lock_port | find_and_lock_action | find_and_lock_finish =>
    simp [lookups] at he

omit hserve in
theorem load_isSome (h : InFlight mem_map i e m f log) (htype : i.access_type = .Load)
    (he : e ∉ lookups) (c : Choice) : (EventLMStoreLoadHandler m f c e).isSome := by
  have hreached := h.reached
  cases e with
  | lock =>
    simp [EventLMStoreLoadHandler, Module.getInFlightAlloc, Module.getInFlightWrite,
      h.older_eq_nil, h.getInFlightAddress_eq_none]
  | action =>
    simp only [EventLMStoreLoadHandler]
    split_ifs <;> rfl
  | unlock | finish => rfl
  | process => simp [htype, eventsOf, lookups] at hreached
  | find_and_lock | find_and_lock_port | find_and_lock_action | find_and_lock_finish =>
    simp [lookups] at he

/-- No event of the chain panics or reads past a table. -/
theorem handle_isSome (h : InFlight mem_map i e m f log) (c : Choice) :
    (LMStoreEvents.handle mem_map m f e c).isSome := by
  unfold LMStoreEvents.handle
  split_ifs with hlookup
  · exact h.findAndLock_isSome hserve hlookup
  · have htype := h.access_type
    cases hf : f.access_type with
    | Load => exact h.load_isSome (htype ▸ hf) hlookup c
    | Store => exact h.store_isSome hserve (htype ▸ hf) hlookup c
    | ReadAlloc => exact h.alloc_isSome hserve (Or.inl (htype ▸ hf)) hlookup c
    | NoReadAlloc => exact h.alloc_isSome hserve (Or.inr (htype ▸ hf)) hlookup c
    | WriteDealloc => exact h.dealloc_isSome hserve (Or.inl (htype ▸ hf)) hlookup c
    | NoWriteDealloc => exact h.dealloc_isSome hserve (Or.inr (htype ▸ hf)) hlookup c

end InFlight

def IsAccess : Action → Prop
  | .access _ _ => True
  | _ => False

/-- One step of an LMStore that works on one access. -/
theorem alone_step {s t : State} {a : Action} (hs : Alone mem_map i s)
    (hstep : Steps mem_map s a t) (ha : ¬IsAccess a) : Alone mem_map i t := by
  obtain ⟨r, hr, rfl⟩ := Option.map_eq_some_iff.mp hstep
  cases a with
  | access store address => exact absurd trivial ha
  | tick =>
    simp only [step] at hr
    split_ifs at hr
    cases hr
    have hticked : Alone mem_map i ({ s.1 with time := s.1.time + 1 }, s.2) := hs.congr rfl rfl
    simpa using hticked
  | process id c =>
    simp only [step, Option.bind_eq_bind, Option.bind_eq_some_iff] at hr
    obtain ⟨f, hf, hr⟩ := hr
    split_ifs at hr with hdue
    cases hs with
    | inFlight haccesses h =>
      rw [haccesses, List.find?_singleton] at hf
      split_ifs at hf
      cases hf
      exact h.handle rfl hr
    | served haccesses made => simp [haccesses] at hf
  | reply id error c =>
    simp only [step, Option.bind_eq_bind, Option.bind_eq_some_iff] at hr
    obtain ⟨f, hf, hr⟩ := hr
    split_ifs at hr with hawaiting
    cases hs with
    | inFlight haccesses h =>
      rw [haccesses, List.find?_singleton] at hf
      split_ifs at hf
      cases hf
      rw [hawaiting] at h
      have hreply := h.move .process { f with error := error } rfl rfl rfl h.reached (by simp) rfl
      exact hreply.handle (by simp [hawaiting, Status.event]) hr
    | served haccesses made => simp [haccesses] at hf

section Run

variable {past : List Effect} {store : Bool} {address : ℕ} {s : State}
  {run : List (Action × State)}

def issue (mem_map : MemMap) (m : Module) (past : List Effect) (store : Bool) (address : ℕ) :
    Issue :=
  ⟨m.lmstore, past, m.next_id, address,
    accessTypeOf mem_map (if store then .Store else .Load) address⟩

theorem alone_issued (hidle : m.accesses = [])
    (hissue : Steps mem_map (m, past) (.access store address) s) :
    Alone mem_map (issue mem_map m past store address) s := by
  obtain ⟨x, hx, rfl⟩ := Option.map_eq_some_iff.mp hissue
  obtain ⟨m', hm', rfl⟩ := Option.map_eq_some_iff.mp hx
  simp only [Module.Access, Option.ite_none_right_eq_some, Option.some.injEq] at hm'
  obtain ⟨-, rfl⟩ := hm'
  have haccesses : (m.StartAccess (Frame.new m.next_id address
      (accessTypeOf mem_map (if store then .Store else .Load) address) m.time)).accesses =
        [Frame.new m.next_id address
          (accessTypeOf mem_map (if store then .Store else .Load) address) m.time] := by
    simp [Module.StartAccess, hidle]
  exact .inFlight haccesses ⟨⟨_, haccesses, rfl⟩, rfl, rfl, rfl,
    mem_eventsOf (by simp [Frame.new]) _, by simp [Frame.new], rfl, rfl⟩

theorem alone_run (hidle : m.accesses = [])
    (hissue : Steps mem_map (m, past) (.access store address) s)
    (hrun : IsRun (Steps mem_map) s run) (hone : ∀ x ∈ transitions s run, ¬IsAccess x.2.1) :
    ∀ t ∈ states s run, Alone mem_map (issue mem_map m past store address) t :=
  invariant (C := fun _ a _ => ¬IsAccess a) (fun _ _ _ ht hstep ha => alone_step ht hstep ha) hrun
    (alone_issued hidle hissue) hone

/-- When the access has ended, its chain has made the operations it is served with, once. -/
theorem served_run (hidle : m.accesses = [])
    (hissue : Steps mem_map (m, past) (.access store address) s)
    (hrun : IsRun (Steps mem_map) s run) (hone : ∀ x ∈ transitions s run, ¬IsAccess x.2.1)
    (hend : (final s run).1.accesses = []) :
    serve mem_map m.lmstore address
        (accessTypeOf mem_map (if store then .Store else .Load) address) =
          some (final s run).1.lmstore ∧
      (final s run).2 = past ++ (operations (accessTypeOf mem_map
        (if store then .Store else .Load) address)).map (⟨m.next_id, address, ·⟩) := by
  have halone := alone_run hidle hissue hrun hone _ (final_mem_states s run)
  generalize final s run = t at halone hend
  cases halone with
  | inFlight haccesses h =>
    rw [haccesses] at hend
    cases hend
  | served haccesses made =>
    rw [serve_eq]
    exact ⟨made.lmstore, made.log⟩

theorem translate_lmstore {c c' : Machine} {v : MmuTranslation.Address}
    (h : c.translate v = some (c', address)) : c'.lmstore = c.lmstore := by
  simp only [Machine.translate, Option.bind_eq_bind, Option.bind_eq_some_iff, Option.some.injEq,
    Prod.mk.injEq] at h
  obtain ⟨_, _, rfl, -⟩ := h
  rfl

/-- The events of one access come to what the machine does at once. -/
theorem access_run {c c' : Machine} {v : MmuTranslation.Address}
    (htranslate : c.translate v = some (c', address)) (hlmstore : m.lmstore = c.lmstore)
    (hidle : m.accesses = [])
    (hissue : Steps c'.mem_map (m, past) (.access store address) s)
    (hrun : IsRun (Steps c'.mem_map) s run) (hone : ∀ x ∈ transitions s run, ¬IsAccess x.2.1)
    (hend : (final s run).1.accesses = []) :
    c.access store v = some { c' with lmstore := (final s run).1.lmstore } := by
  have hserves : ServesAddress c'.mem_map address = true := by
    obtain ⟨x, hx, -⟩ := Option.map_eq_some_iff.mp hissue
    obtain ⟨m', hm', -⟩ := Option.map_eq_some_iff.mp hx
    simp only [Module.Access, Option.ite_none_right_eq_some] at hm'
    exact hm'.1
  have hserve := (served_run hidle hissue hrun hone hend).1
  rw [hlmstore, ← translate_lmstore htranslate] at hserve
  simp [Machine.access, htranslate, hserves, hserve]

/-- As long as it has not ended, its next event can be taken, if it can be served at all. -/
theorem goes_on_run (hidle : m.accesses = [])
    (hissue : Steps mem_map (m, past) (.access store address) s)
    (hrun : IsRun (Steps mem_map) s run) (hone : ∀ x ∈ transitions s run, ¬IsAccess x.2.1)
    (hserve : (serve mem_map m.lmstore address
      (accessTypeOf mem_map (if store then .Store else .Load) address)).isSome) :
    ∀ t ∈ states s run, ∀ f ∈ t.1.accesses, ∀ c,
      (f.status.isDue t.1.time → (step mem_map t.1 (.process f.id c)).isSome) ∧
      ∀ error, f.status = .awaiting → (step mem_map t.1 (.reply f.id error c)).isSome := by
  intro t ht f hf c
  have halone := alone_run hidle hissue hrun hone t ht
  cases halone with
  | served haccesses made => simp [haccesses] at hf
  | inFlight haccesses h =>
    rw [haccesses, List.mem_singleton] at hf
    subst hf
    constructor
    · intro hdue
      simpa [step, haccesses, hdue] using h.handle_isSome hserve c
    · intro error hawaiting
      rw [hawaiting] at h
      have hreply := h.move .process { f with error := error } rfl rfl rfl h.reached (by simp) rfl
      simpa [step, haccesses, hawaiting] using hreply.handle_isSome hserve c

end Run

end MMLMStore.ServedAccesses
