import MMLMStore.LMStoreTables
import MMLMStore.StepRuns

/-!
# Event chains of an LMStore module

The accesses in flight of a `Module` of type LMStore and the handlers of its load, store,
find-and-lock, allocation and deallocation chains. The simulation engine is left open: events due
at the same time run in any order, and memory answers its requests at any time.
-/
namespace MMLMStore.LMStoreEvents
open LMStoreDecode LMStoreTables StepRuns

inductive AccessType
  | Load
  | Store
  | ReadAlloc
  | NoReadAlloc
  | WriteDealloc
  | NoWriteDealloc
  deriving DecidableEq, Repr

/-- Events of the chains. Those outside find-and-lock stand for the event of the frame's own
chain: `lock` is `load_lock`, `store_lock`, `alloc_lock` or `dealloc_lock`. -/
inductive Event
  | lock
  | find_and_lock
  | find_and_lock_port
  | find_and_lock_action
  | find_and_lock_finish
  | action
  | process
  | unlock
  | finish
  deriving DecidableEq, Repr

/-- What a frame is waiting for: its next event, in the queue of another access, in the port queue,
or for the replies to its memory requests. -/
inductive Status
  | scheduled (e : Event) (time : ℕ)
  | inQueue (older : ℕ) (e : Event)
  | inPortQueue
  | awaiting
  deriving DecidableEq, Repr

/-- The event that runs next. -/
def Status.event : Status → Event
  | .scheduled e _ => e
  | .inQueue _ e => e
  | .inPortQueue => .find_and_lock_port
  | .awaiting => .process

def Status.isInQueue (older : ℕ) : Status → Bool
  | .inQueue id _ => id = older
  | _ => false

/-- Leaving a queue schedules the event that was to be waited for. -/
def Status.wakeup (time : ℕ) : Status → Status
  | .inQueue _ e => .scheduled e time
  | .inPortQueue => .scheduled .find_and_lock_port time
  | s => s

@[simp] theorem Status.event_scheduled (e : Event) (time : ℕ) :
    (Status.scheduled e time).event = e := rfl

@[simp] theorem Status.event_wakeup (time : ℕ) (s : Status) : (s.wakeup time).event = s.event := by
  cases s <;> rfl

/-- Frame of an access; `found` is the state of the frame that find-and-lock runs in. -/
structure Frame where
  id : ℕ
  address : ℕ
  access_type : AccessType
  state : BlockState
  found : BlockState
  error : Bool
  pending : ℕ
  status : Status
  deriving DecidableEq, Repr

def Frame.new (id address : ℕ) (access_type : AccessType) (time : ℕ) : Frame :=
  ⟨id, address, access_type, .BlockInvalid, .BlockInvalid, false, 0, .scheduled .lock time⟩

def Frame.wakeup (time : ℕ) (f : Frame) : Frame := { f with status := f.status.wakeup time }

structure Module where
  lmstore : LMStore
  log_block_size : ℕ
  data_latency : ℕ
  num_ports : ℕ
  num_locked_ports : ℕ
  /-- Accesses waiting for a port, by id. -/
  port_queue : List ℕ
  /-- Accesses in flight, the oldest first. -/
  accesses : List Frame
  /-- Block size of the main memory module below. -/
  mm_block_size : ℕ
  time : ℕ
  next_id : ℕ
  deriving DecidableEq

def Module.new (lmstore : LMStore) (num_ports log_block_size data_latency mm_block_size : ℕ) :
    Module :=
  ⟨lmstore, log_block_size, data_latency, num_ports, 0, [], [], mm_block_size, 0, 0⟩

inductive Operation
  | allocateBlock
  | FindBlock
  | setBlockState
  | deallocateBlock
  deriving DecidableEq, Repr

/-- An operation on the directory, made for an access. -/
structure Effect where
  id : ℕ
  address : ℕ
  op : Operation
  deriving DecidableEq, Repr

/-- What the source leaves to a hash table and to `random()`. -/
structure Choice where
  pick : ℕ
  random : ℕ
  deriving DecidableEq, Repr

/-- The module after an event, and the operation the event made; no result where the handler
panics or reads past a table. -/
abbrev Result := Option (Module × Option Effect)

namespace Module

def put (m : Module) (f : Frame) : Module :=
  { m with accesses := m.accesses.map fun g => if g.id = f.id then f else g }

def Next (m : Module) (f : Frame) (e : Event) (after : ℕ) : Module :=
  m.put { f with status := .scheduled e (m.time + after) }

def Wait (m : Module) (f older : Frame) (e : Event) : Module :=
  m.put { f with status := .inQueue older.id e }

def older (m : Module) (f : Frame) : List Frame := m.accesses.takeWhile (·.id ≠ f.id)

def getInFlightWrite (m : Module) (f : Frame) : Option Frame :=
  (m.older f).reverse.find? (·.access_type = .Store)

def getInFlightAlloc (m : Module) (f : Frame) : Option Frame :=
  (m.older f).reverse.find? fun g => g.access_type = .ReadAlloc || g.access_type = .NoReadAlloc

/-- One of the older accesses to the same block address, in the order of the hash table. -/
def getInFlightAddress (m : Module) (address : ℕ) (f : Frame) (c : Choice) : Option Frame :=
  let range := m.accesses.filter fun g =>
    g.address >>> m.log_block_size = address >>> m.log_block_size && g.id < f.id
  range[c.pick % range.length]?

def getRetryLatency (m : Module) (c : Choice) : ℕ := c.random % (m.data_latency + 2)

def LockPort (m : Module) (f : Frame) : Module :=
  if m.num_ports ≤ m.num_locked_ports then
    { m.put { f with status := .inPortQueue } with port_queue := m.port_queue ++ [f.id] }
  else { m.Next f .find_and_lock_port 0 with num_locked_ports := m.num_locked_ports + 1 }

def UnlockPort (m : Module) : Module :=
  match m.port_queue with
  | [] => { m with num_locked_ports := m.num_locked_ports - 1 }
  | id :: rest =>
    { m with
      num_locked_ports := m.num_locked_ports - 1 + 1
      port_queue := rest
      accesses := m.accesses.map fun g => if g.id = id then g.wakeup m.time else g }

def StartAccess (m : Module) (f : Frame) : Module :=
  { m with accesses := m.accesses ++ [f], next_id := m.next_id + 1 }

/-- Takes an access out of the list and wakes those that wait for it. -/
def FinishAccess (m : Module) (f : Frame) : Module :=
  { m with
    accesses := (m.accesses.filter (·.id ≠ f.id)).map fun g =>
      if g.status.isInQueue f.id then g.wakeup m.time else g }

def mmBlocks (m : Module) (block_size : ℕ) : ℕ :=
  if m.mm_block_size < block_size then
    block_size / m.mm_block_size + if block_size % m.mm_block_size = 0 then 1 else 0
  else 1

end Module

def EventLMStoreFindAndLockHandler (mem_map : MemMap) (m : Module) (f : Frame) : Event → Result
  | .find_and_lock => some (m.LockPort { f with error := false }, none)
  | .find_and_lock_port => do
    let (_, blockstate) ← FindBlock mem_map m.lmstore f.address
    let found := if blockstate = .BlockInvalid then BlockState.BlockInvalid else .BlockExclusive
    some (m.Next { f with found := found } .find_and_lock_action m.data_latency,
      some ⟨f.id, f.address, .FindBlock⟩)
  | .find_and_lock_action => some (m.UnlockPort.Next f .find_and_lock_finish 0, none)
  -- returns to the action event of the access
  | .find_and_lock_finish =>
    some (m.Next { f with error := false, state := f.found } .action 0, none)
  | _ => none

/-- Waits for older allocations, stores and accesses to the same block address. -/
def EventLMStoreLoadHandler (m : Module) (f : Frame) (c : Choice) : Event → Result
  | .lock =>
    match m.getInFlightAlloc f <|> m.getInFlightWrite f <|> m.getInFlightAddress f.address f c with
    | some older => some (m.Wait f older .lock, none)
    | none => some (m.Next { f with found := .BlockInvalid } .find_and_lock 0, none)
  | .action =>
    if f.error then some (m.Next f .lock (m.getRetryLatency c), none)
    else some (m.Next f .unlock 0, none)
  | .unlock => some (m.Next f .finish m.data_latency, none)
  | .finish => some (m.FinishAccess f, none)
  | _ => none

/-- Waits for the access before it in the list. -/
def EventLMStoreStoreHandler (mem_map : MemMap) (m : Module) (f : Frame) (c : Choice) :
    Event → Result
  | .lock =>
    match (m.older f).getLast? with
    | some older => some (m.Wait f older .lock, none)
    | none => some (m.Next { f with found := .BlockInvalid } .find_and_lock 0, none)
  | .action =>
    if f.error then some (m.Next f .lock (m.getRetryLatency c), none)
    else do
      let lmstore ← setBlockState mem_map m.lmstore f.address .BlockModified
      some ({ m with lmstore := lmstore }.Next f .unlock 0,
        some ⟨f.id, f.address, .setBlockState⟩)
  | .unlock => some (m.Next f .finish m.data_latency, none)
  | .finish => some (m.FinishAccess f, none)
  | _ => none

/-- Waits for older stores and accesses to the same block address. -/
def EventLMStoreAllocHandler (mem_map : MemMap) (m : Module) (f : Frame) (c : Choice) :
    Event → Result
  | .lock =>
    match m.getInFlightWrite f <|> m.getInFlightAddress f.address f c with
    | some older => some (m.Wait f older .lock, none)
    | none => some (m.Next f .action 0, none)
  | .action =>
    if f.access_type = .NoReadAlloc then some (m.Next { f with pending := 1 } .process 0, none)
    else
      let pending := m.mmBlocks (getBlockSize mem_map f.address)
      some (m.put { f with pending := pending, status := .awaiting }, none)
  | .process =>
    let f := { f with pending := f.pending - 1 }
    if f.pending ≠ 0 then some (m.put f, none)
    else if f.error then some (m.Next f .lock (m.getRetryLatency c), none)
    else do
      let (_, lmstore) ← allocateBlock mem_map m.lmstore f.address
      some ({ m with lmstore := lmstore }.Next f .unlock 0,
        some ⟨f.id, f.address, .allocateBlock⟩)
  | .unlock => some (m.Next f .finish m.data_latency, none)
  | .finish => some (m.FinishAccess f, none)
  | _ => none

/-- Waits for older stores and accesses to the same block address. -/
def EventLMStoreDeallocHandler (mem_map : MemMap) (m : Module) (f : Frame) (c : Choice) :
    Event → Result
  | .lock =>
    match m.getInFlightWrite f <|> m.getInFlightAddress f.address f c with
    | some older => some (m.Wait f older .lock, none)
    | none => some (m.Next f .action 0, none)
  | .action =>
    if f.state ≠ .BlockModified ∨ f.access_type = .NoWriteDealloc then do
      let (_, lmstore) ← deallocateBlock mem_map m.lmstore f.address
      some ({ m with lmstore := lmstore }.Next f .unlock 0,
        some ⟨f.id, f.address, .deallocateBlock⟩)
    else
      let pending := m.mmBlocks (getBlockSize mem_map f.address)
      some (m.put { f with pending := pending, status := .awaiting }, none)
  | .process =>
    let f := { f with pending := f.pending - 1 }
    if f.pending ≠ 0 then some (m.put f, none)
    else if f.error then some (m.Next f .lock (m.getRetryLatency c), none)
    else do
      let (_, lmstore) ← deallocateBlock mem_map m.lmstore f.address
      some ({ m with lmstore := lmstore }.Next f .unlock 0,
        some ⟨f.id, f.address, .deallocateBlock⟩)
  | .unlock => some (m.Next f .finish 0, none)
  | .finish => some (m.FinishAccess f, none)
  | _ => none

def handle (mem_map : MemMap) (m : Module) (f : Frame) (e : Event) (c : Choice) : Result :=
  if e ∈ [Event.find_and_lock, .find_and_lock_port, .find_and_lock_action,
      .find_and_lock_finish] then
    EventLMStoreFindAndLockHandler mem_map m f e
  else
    match f.access_type with
    | .Load => EventLMStoreLoadHandler m f c e
    | .Store => EventLMStoreStoreHandler mem_map m f c e
    | .ReadAlloc | .NoReadAlloc => EventLMStoreAllocHandler mem_map m f c e
    | .WriteDealloc | .NoWriteDealloc => EventLMStoreDeallocHandler mem_map m f c e

/-- The operation code of the address overrides the type that an access is asked for with. -/
def accessTypeOf (mem_map : MemMap) (access_type : AccessType) (address : ℕ) : AccessType :=
  match (PhyToVirt mem_map address).map getOpCode with
  | some .BlockReadAlloc => .ReadAlloc
  | some .BlockNoReadAlloc => .NoReadAlloc
  | some .BlockNoWriteDealloc => .NoWriteDealloc
  | some .BlockWriteDealloc => .WriteDealloc
  | _ => access_type

/-- `Module::Access` with the first event of the chain, which puts the access into the list. An
address that the LMStore does not serve goes to the L1 cache instead. -/
def Module.Access (mem_map : MemMap) (m : Module) (access_type : AccessType) (address : ℕ) :
    Option Module :=
  if ServesAddress mem_map address then
    some (m.StartAccess
      (Frame.new m.next_id address (accessTypeOf mem_map access_type address) m.time))
  else none

inductive Action
  /-- An access is issued, asked for as a store or as a load. -/
  | access (store : Bool) (address : ℕ)
  /-- Time advances when no event is due. -/
  | tick
  | process (id : ℕ) (c : Choice)
  /-- Memory answers one request of an access and leaves its error flag so. -/
  | reply (id : ℕ) (error : Bool) (c : Choice)
  deriving DecidableEq, Repr

def Status.isDue (time : ℕ) : Status → Bool
  | .scheduled _ t => t ≤ time
  | _ => false

def step (mem_map : MemMap) (m : Module) : Action → Result
  | .access store address =>
    (m.Access mem_map (if store then .Store else .Load) address).map fun m' => (m', none)
  | .tick =>
    if m.accesses.any (·.status.isDue m.time) then none
    else some ({ m with time := m.time + 1 }, none)
  | .process id c => do
    let f ← m.accesses.find? (·.id = id)
    if f.status.isDue m.time then handle mem_map m f f.status.event c else none
  | .reply id error c => do
    let f ← m.accesses.find? (·.id = id)
    if f.status = .awaiting then handle mem_map m { f with error := error } .process c else none

abbrev State := Module × List Effect

def logged (mem_map : MemMap) (s : State) (a : Action) : Option State :=
  (step mem_map s.1 a).map fun r => (r.1, s.2 ++ r.2.toList)

def Steps (mem_map : MemMap) (s : State) (a : Action) (t : State) : Prop :=
  logged mem_map s a = some t

instance (mem_map : MemMap) (s : State) (a : Action) (t : State) :
    Decidable (Steps mem_map s a t) := inferInstanceAs (Decidable (_ = _))

def follow (mem_map : MemMap) : State → List Action → List (Action × State)
  | _, [] => []
  | s, a :: actions =>
    match logged mem_map s a with
    | none => []
    | some t => (a, t) :: follow mem_map t actions

theorem isRun_follow (mem_map : MemMap) (s : State) (actions : List Action) :
    IsRun (Steps mem_map) s (follow mem_map s actions) := by
  induction actions generalizing s with
  | nil => trivial
  | cons a actions ih =>
    unfold follow
    cases h : logged mem_map s a with
    | none => trivial
    | some t => exact ⟨h, ih t⟩

end MMLMStore.LMStoreEvents
