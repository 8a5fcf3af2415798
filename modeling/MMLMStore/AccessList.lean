import MMLMStore.StepRuns

/-!
# The access list of a module

Accesses enter the list of their module in order and leave it in any order. A new access may join
the access in front of it; the lock events of the nine access chains look for an older access to
wait for, by rewinding the list or by the hash table of block addresses.
-/
namespace MMLMStore.AccessList

inductive ModuleType
  | Cache
  | MainMemory
  | LocalMemory
  | LMStore
  deriving DecidableEq, Repr

inductive AccessType
  | Load
  | Store
  | NCStore
  | ReadAlloc
  | NoReadAlloc
  | WriteDealloc
  | NoWriteDealloc
  deriving DecidableEq, Repr

inductive Chain
  | load
  | store
  | nc_store
  | local_load
  | local_store
  | lmstore_load
  | lmstore_store
  | lmstore_alloc
  | lmstore_dealloc
  deriving DecidableEq, Repr

/-- The chain `Module::Access` selects; the other combinations panic. -/
def initialEvent : ModuleType → AccessType → Option Chain
  | .Cache, .Load | .MainMemory, .Load => some .load
  | .Cache, .Store | .MainMemory, .Store => some .store
  | .Cache, .NCStore | .MainMemory, .NCStore => some .nc_store
  | .LocalMemory, .Load => some .local_load
  | .LocalMemory, .Store => some .local_store
  | .LMStore, .ReadAlloc | .LMStore, .NoReadAlloc => some .lmstore_alloc
  | .LMStore, .WriteDealloc | .LMStore, .NoWriteDealloc => some .lmstore_dealloc
  | .LMStore, .Load => some .lmstore_load
  | .LMStore, .Store => some .lmstore_store
  | _, _ => none

/-- The two events of a chain that can be waited for. -/
inductive Event
  | lock
  | finish
  deriving DecidableEq, Repr

/-- Where an access is: not created, with an event scheduled, in the queue of another access, in the
other events of its chain or in a chain it called, or returned. -/
inductive Status
  | absent
  | scheduled (e : Event)
  | suspended
  | running
  | returned
  deriving DecidableEq, Repr

structure Frame where
  address : ℕ
  access_type : AccessType
  coalesced : Bool
  master_frame : Option ℕ
  port_locked : Bool
  /-- Accesses that wait for this one, with the event to resume at. -/
  queue : List (ℕ × Event)
  status : Status
  deriving DecidableEq, Repr

def Frame.new (address : ℕ) (access_type : AccessType) (status : Status) : Frame :=
  ⟨address, access_type, false, none, false, [], status⟩

/-- A module and the frames of its accesses, by identifier; `last_id` is the newest that entered. -/
structure Module where
  type : ModuleType
  log_block_size : ℕ
  frame : ℕ → Frame
  accesses : List ℕ
  write_accesses : List ℕ
  alloc_accesses : List ℕ
  in_flight_block_addresses : List (ℕ × ℕ)
  in_flight_access_ids : List ℕ
  num_coalesced_accesses : ℕ
  last_id : ℕ

namespace Module

def new (type : ModuleType) (log_block_size : ℕ) : Module :=
  ⟨type, log_block_size, fun _ => .new 0 .Load .absent, [], [], [], [], [], 0, 0⟩

variable (m : Module)

def put (i : ℕ) (f : Frame) : Module :=
  { m with frame := fun j => if j = i then f else m.frame j }

def setStatus (i : ℕ) (s : Status) : Module := m.put i { m.frame i with status := s }

def block (i : ℕ) : ℕ := (m.frame i).address >>> m.log_block_size

def isAlloc (t : AccessType) : Bool := t = .ReadAlloc || t = .NoReadAlloc

def StartAccess (i : ℕ) (access_type : AccessType) (place : ℕ) : Module :=
  let m := m.put i { m.frame i with access_type := access_type }
  { m with
    accesses := m.accesses ++ [i]
    write_accesses := if access_type = .Store then m.write_accesses ++ [i] else m.write_accesses
    alloc_accesses := if isAlloc access_type then m.alloc_accesses ++ [i] else m.alloc_accesses
    in_flight_block_addresses := m.in_flight_block_addresses.take place ++
      (m.block i, i) :: m.in_flight_block_addresses.drop place
    in_flight_access_ids := m.in_flight_access_ids ++ [i] }

/-- Accesses in front of one in the list, the nearest first. -/
def rewind (i : ℕ) : List ℕ := (m.accesses.takeWhile fun j => j ≠ i).reverse

def getInFlightWrite (older_than : ℕ) : Option ℕ :=
  (m.rewind older_than).find? fun j => (m.frame j).access_type = .Store

def getInFlightAlloc (older_than : ℕ) : Option ℕ :=
  (m.rewind older_than).find? fun j => isAlloc (m.frame j).access_type

def getInFlightAddress (address older_than : ℕ) : Option ℕ :=
  (m.in_flight_block_addresses.find? fun e =>
    e.1 = address >>> m.log_block_size ∧ e.2 < older_than).map Prod.snd

def previous (i : ℕ) : Option ℕ := (m.rewind i).head?

/-- Loads join a load to the same block among the loads at the tail. -/
def coalesceLoad (address : ℕ) : List ℕ → Option ℕ
  | [] => none
  | j :: rest =>
    if (m.frame j).access_type ≠ .Load then none
    else if m.block j = address >>> m.log_block_size then some ((m.frame j).master_frame.getD j)
    else coalesceLoad address rest

/-- Stores join only the last access, while it has not started. -/
def coalesceLast (access_type : AccessType) (address : ℕ) : List ℕ → Option ℕ
  | [] => none
  | j :: _ =>
    if (m.frame j).access_type ≠ access_type then none
    else if m.block j ≠ address >>> m.log_block_size then none
    else if (m.frame j).port_locked then none
    else some ((m.frame j).master_frame.getD j)

def canCoalesce (access_type : AccessType) (address older_than : ℕ) : Option ℕ :=
  if m.getInFlightAddress address older_than = none then none else
  match access_type with
  | .Load => m.coalesceLoad address (m.rewind older_than)
  | .Store => m.coalesceLast .Store address (m.rewind older_than)
  | .NCStore => m.coalesceLast .NCStore address (m.rewind older_than)
  | _ => none

def Coalesce (master i : ℕ) : Module :=
  let m := m.put i { m.frame i with coalesced := true, master_frame := some master }
  { m with num_coalesced_accesses := m.num_coalesced_accesses + 1 }

/-- `older->queue.Wait(e)` of the access that runs. -/
def Wait (older i : ℕ) (e : Event) : Module :=
  let m := m.put older { m.frame older with queue := (m.frame older).queue ++ [(i, e)] }
  m.setStatus i .suspended

/-- Empty the queue of an access and schedule the events in it. -/
def WakeupAll (i : ℕ) : Module :=
  let m' := (m.frame i).queue.foldl (fun m w => m.setStatus w.1 (.scheduled w.2)) m
  m'.put i { m'.frame i with queue := [] }

/-- Take back a finished access from the accesses in flight that have it as master. -/
def dropMaster (i : ℕ) : Module :=
  { m with frame := fun j =>
      if j ∈ m.accesses ∧ (m.frame j).master_frame = some i then
        { m.frame j with master_frame := none }
      else m.frame j }

def removeAccess (i : ℕ) : Module :=
  { m with
    accesses := m.accesses.erase i
    write_accesses :=
      if (m.frame i).access_type = .Store then m.write_accesses.erase i else m.write_accesses
    alloc_accesses :=
      if isAlloc (m.frame i).access_type then m.alloc_accesses.erase i else m.alloc_accesses
    in_flight_block_addresses := m.in_flight_block_addresses.erase (m.block i, i)
    in_flight_access_ids := m.in_flight_access_ids.erase i
    num_coalesced_accesses :=
      if (m.frame i).coalesced then m.num_coalesced_accesses - 1 else m.num_coalesced_accesses }

/-- The end of an access; it panics if the hash table does not have it. -/
def FinishAccess (i : ℕ) : Option Module :=
  if (m.block i, i) ∈ m.in_flight_block_addresses then
    some (((m.removeAccess i).dropMaster i).WakeupAll i)
  else none

/-! The first event of each chain. -/

/-- Join an older access and wait for it to finish, or go on to the lock event. -/
def coalesceOrLock (i : ℕ) (access_type : AccessType) : Module :=
  match m.canCoalesce access_type (m.frame i).address i with
  | some master => (m.Coalesce master i).Wait master i .finish
  | none => m.setStatus i (.scheduled .lock)

def load (i place : ℕ) : Module := (m.StartAccess i .Load place).coalesceOrLock i .Load

def store (i place : ℕ) : Module := (m.StartAccess i .Store place).coalesceOrLock i .Store

def nc_store (i place : ℕ) : Module := (m.StartAccess i .NCStore place).coalesceOrLock i .NCStore

def local_load (i place : ℕ) : Module := (m.StartAccess i .Load place).coalesceOrLock i .Load

def local_store (i place : ℕ) : Module := (m.StartAccess i .Store place).coalesceOrLock i .Store

def lmstore_load (i place : ℕ) : Module :=
  (m.StartAccess i .Load place).setStatus i (.scheduled .lock)

def lmstore_store (i place : ℕ) : Module :=
  (m.StartAccess i .Store place).setStatus i (.scheduled .lock)

def lmstore_alloc (i place : ℕ) : Module :=
  (m.StartAccess i (m.frame i).access_type place).coalesceOrLock i (m.frame i).access_type

def lmstore_dealloc (i place : ℕ) : Module :=
  (m.StartAccess i (m.frame i).access_type place).setStatus i (.scheduled .lock)

def first (c : Chain) (i place : ℕ) : Module :=
  match c with
  | .load => m.load i place
  | .store => m.store i place
  | .nc_store => m.nc_store i place
  | .local_load => m.local_load i place
  | .local_store => m.local_store i place
  | .lmstore_load => m.lmstore_load i place
  | .lmstore_store => m.lmstore_store i place
  | .lmstore_alloc => m.lmstore_alloc i place
  | .lmstore_dealloc => m.lmstore_dealloc i place

/-! The lock event of each chain. -/

def waitOrGo (i : ℕ) : Option ℕ → Module
  | some older => m.Wait older i .lock
  | none => m.setStatus i .running

def load_lock (i : ℕ) : Module :=
  m.waitOrGo i (m.getInFlightWrite i <|> m.getInFlightAddress (m.frame i).address i)

def store_lock (i : ℕ) : Module := m.waitOrGo i (m.previous i)

def nc_store_lock (i : ℕ) : Module :=
  m.waitOrGo i (m.getInFlightWrite i <|> m.getInFlightAddress (m.frame i).address i)

def local_load_lock (i : ℕ) : Module :=
  m.waitOrGo i (m.getInFlightWrite i <|> m.getInFlightAddress (m.frame i).address i)

def local_store_lock (i : ℕ) : Module := m.waitOrGo i (m.previous i)

def lmstore_load_lock (i : ℕ) : Module :=
  m.waitOrGo i (m.getInFlightAlloc i <|> m.getInFlightWrite i <|>
    m.getInFlightAddress (m.frame i).address i)

def lmstore_store_lock (i : ℕ) : Module := m.waitOrGo i (m.previous i)

def lmstore_alloc_lock (i : ℕ) : Module :=
  m.waitOrGo i (m.getInFlightWrite i <|> m.getInFlightAddress (m.frame i).address i)

def lmstore_dealloc_lock (i : ℕ) : Module :=
  m.waitOrGo i (m.getInFlightWrite i <|> m.getInFlightAddress (m.frame i).address i)

def lock (c : Chain) (i : ℕ) : Module :=
  match c with
  | .load => m.load_lock i
  | .store => m.store_lock i
  | .nc_store => m.nc_store_lock i
  | .local_load => m.local_load_lock i
  | .local_store => m.local_store_lock i
  | .lmstore_load => m.lmstore_load_lock i
  | .lmstore_store => m.lmstore_store_lock i
  | .lmstore_alloc => m.lmstore_alloc_lock i
  | .lmstore_dealloc => m.lmstore_dealloc_lock i

def finish (i : ℕ) : Option Module := (m.FinishAccess i).map fun m => m.setStatus i .returned

end Module

/-- What can happen next: an access enters, its scheduled event runs, or its chain between the lock
and the finish event takes or gives back the port, goes back to the lock event or ends. -/
inductive Action
  | enter (i address : ℕ) (access_type : AccessType) (place : ℕ)
  | run (i : ℕ)
  | port (i : ℕ) (locked : Bool)
  | retry (i : ℕ)
  | complete (i : ℕ)
  deriving DecidableEq, Repr

/-- The module after an action. Accesses enter with growing identifiers. -/
def next (m : Module) : Action → Option Module
  | .enter i address access_type place =>
    if m.last_id < i then
      (initialEvent m.type access_type).map fun c =>
        ({ m with last_id := i }.put i (.new address access_type .running)).first c i place
    else none
  | .run i =>
    match (m.frame i).status with
    | .scheduled .lock =>
      (initialEvent m.type (m.frame i).access_type).map fun c => m.lock c i
    | .scheduled .finish => m.finish i
    | _ => none
  | .port i locked =>
    if (m.frame i).status = .running then
      some (m.put i { m.frame i with port_locked := locked })
    else none
  | .retry i =>
    if (m.frame i).status = .running then some (m.setStatus i (.scheduled .lock)) else none
  | .complete i =>
    if (m.frame i).status = .running then some (m.setStatus i (.scheduled .finish)) else none

end MMLMStore.AccessList
