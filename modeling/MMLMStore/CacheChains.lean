import MMLMStore.AccessList
import MMLMStore.CacheReplacement
import MMLMStore.LockLog

/-!
# Event chains of the cache hierarchy

The load, store, non-coherent store, find-and-lock, evict, write-request, read-request and message
handlers, one event at a time. A chain runs on a frame of its own and takes entries of one
directory: that of its module, or of the target module for the requests. Find-and-lock is part of
the chain that calls it; what other called chains return, what the lookup finds and whether the
entry is locked are answers from outside.
-/
namespace MMLMStore.CacheChains

open AccessList (ModuleType)
open CacheReplacement (BlockState)
open LockLog

inductive RequestDirection
  | Invalid
  | UpDown
  | DownUp
  deriving DecidableEq, Repr

inductive Chain
  | load
  | store
  | nc_store
  | find_and_lock
  | evict
  | write_request
  | read_request
  | invalidate
  | message
  deriving DecidableEq, Repr

inductive Event
  | load
  | load_lock
  | load_action
  | load_miss
  | load_unlock
  | load_finish
  | store
  | store_lock
  | store_action
  | store_unlock
  | store_finish
  | nc_store
  | nc_store_lock
  | nc_store_writeback
  | nc_store_action
  | nc_store_miss
  | nc_store_unlock
  | nc_store_finish
  | find_and_lock
  | find_and_lock_port
  | find_and_lock_action
  | find_and_lock_finish
  | evict
  | evict_invalid
  | evict_action
  | evict_receive
  | evict_process
  | evict_process_noncoherent
  | evict_reply
  | evict_reply_receive
  | evict_finish
  | write_request
  | write_request_receive
  | write_request_action
  | write_request_exclusive
  | write_request_updown
  | write_request_updown_finish
  | write_request_downup
  | write_request_downup_finish
  | write_request_reply
  | write_request_finish
  | read_request
  | read_request_receive
  | read_request_action
  | read_request_updown
  | read_request_updown_miss
  | read_request_updown_finish
  | read_request_downup
  | read_request_downup_finish
  | read_request_reply
  | read_request_finish
  | message
  | message_receive
  | message_action
  | message_reply
  | message_finish
  /-- The chain has returned. -/
  | returned
  deriving DecidableEq, Repr

/-- The frame of a chain; `witness` tells whether the pointer is set. -/
structure Frame where
  set : ℤ
  way : ℤ
  state : BlockState
  error : Bool
  block_not_found : Bool
  pending : ℕ
  request_direction : RequestDirection
  witness : Bool
  deriving DecidableEq, Repr

/-- The frame of find-and-lock, with the event of the calling chain to return to. -/
structure LockFrame where
  set : ℤ
  way : ℤ
  state : BlockState
  hit : Bool
  error : Bool
  eviction : Bool
  blocking : Bool
  write : Bool
  request_direction : RequestDirection
  witness : Bool
  return_event : Event
  deriving DecidableEq, Repr

/-- A chain under way: `called` is the chain it has called and waits for, with its witness, and
`witnessed` counts the increments of the witness. -/
structure Access where
  chain : Chain
  module_type : ModuleType
  lock_module_type : ModuleType
  event : Event
  frame : Frame
  lock_frame : LockFrame
  called : Option (Chain × Bool)
  log : List (Operation (ℤ × ℤ))
  witnessed : ℕ
  deriving DecidableEq, Repr

/-- What an event learns from outside: whether there is an older access to join or to wait for, what
the lookup finds, the way to replace, whether the entry is locked, whether the network takes a
message, the error of the chain that returns, and how many owners are asked. -/
structure Answer where
  older : Bool
  hit : Bool
  set : ℤ
  way : ℤ
  victim : ℤ
  state : BlockState
  locked : Bool
  sent : Bool
  error : Bool
  owners : ℕ
  deriving DecidableEq, Repr

namespace Access

variable (a : Access)

def Next (e : Event) : Access := { a with event := e }

def record (o : Operation (ℤ × ℤ)) : Access := { a with log := a.log ++ [o] }

def Call (c : Chain) (witness : Bool) (e : Event) : Access :=
  { a with called := some (c, witness), event := e }

def UnlockEntry : Access := a.record (.unlock (a.frame.set, a.frame.way))

def retry (e : Event) : Access := (a.record .retry).Next e

def Return : Access := (a.record .ret).Next .returned

def increment (witness : Bool) : Access :=
  if witness then { a with witnessed := a.witnessed + 1 } else a

def setError (error : Bool) : Access := { a with frame := { a.frame with error := error } }

def findAndLock (direction : RequestDirection) (blocking write witness : Bool) (e : Event) :
    Access :=
  { a with
    event := .find_and_lock
    lock_frame :=
      ⟨-1, -1, .BlockInvalid, false, false, false, blocking, write, direction, witness, e⟩ }

/-- A called chain returns: it leaves its error in the frame of its caller. A write request that was
given the witness has incremented it. -/
def resume (error : Bool) : Access :=
  match a.called with
  | none => a
  | some (.invalidate, _) => { a with called := none }
  | some (_, witness) =>
    let a := { a with called := none }
    let a := a.increment witness
    if a.event = .find_and_lock_finish then
      { a with lock_frame := { a.lock_frame with error := error } }
    else a.setError error

end Access

open Access

theorem increment_eq (b : Access) (w : Bool) : ∃ n, b.increment w = { b with witnessed := n } := by
  cases w
  · exact ⟨b.witnessed, rfl⟩
  · exact ⟨b.witnessed + 1, rfl⟩

/-- All that the return of a called chain can change. -/
theorem resume_eq (a : Access) (error : Bool) : ∃ frameError lockError witnessed,
    a.resume error =
      { a with
        called := none
        witnessed := witnessed
        frame := { a.frame with error := frameError }
        lock_frame := { a.lock_frame with error := lockError } } := by
  unfold Access.resume
  split
  · rename_i hcalled
    exact ⟨a.frame.error, a.lock_frame.error, a.witnessed, by rw [← hcalled]⟩
  · exact ⟨a.frame.error, a.lock_frame.error, a.witnessed, rfl⟩
  · rename_i witness _ hcalled
    obtain ⟨n, hn⟩ := increment_eq { a with called := none } witness
    dsimp only
    rw [hn]
    split_ifs
    · exact ⟨a.frame.error, error, n, rfl⟩
    · exact ⟨error, a.lock_frame.error, n, rfl⟩

theorem resume_called (a : Access) (error : Bool) : (a.resume error).called = none := by
  obtain ⟨_, _, _, heq⟩ := resume_eq a error
  rw [heq]

theorem resume_event (a : Access) (error : Bool) : (a.resume error).event = a.event := by
  obtain ⟨_, _, _, heq⟩ := resume_eq a error
  rw [heq]

theorem resume_none {a : Access} (h : a.called = none) (error : Bool) : a.resume error = a := by
  unfold Access.resume
  rw [h]

def EventLoadHandler (a : Access) (ans : Answer) : Option Access :=
  match a.event with
  | .load => some (if ans.older then a.Next .load_finish else a.Next .load_lock)
  | .load_lock =>
    some (if ans.older then a.Next .load_lock
      else a.findAndLock .UpDown true false false .load_action)
  | .load_action =>
    some (if a.frame.error then a.retry .load_lock
      else if a.frame.state ≠ .BlockInvalid then a.Next .load_unlock
      else a.Call .read_request false .load_miss)
  | .load_miss =>
    some (if a.frame.error then a.UnlockEntry.retry .load_lock else a.Next .load_unlock)
  | .load_unlock => some (a.UnlockEntry.Next .load_finish)
  | .load_finish => some (a.increment a.frame.witness).Return
  | _ => none

def EventStoreHandler (a : Access) (ans : Answer) : Option Access :=
  match a.event with
  | .store =>
    some (if ans.older then (a.increment a.frame.witness).Next .store_finish
      else a.Next .store_lock)
  | .store_lock =>
    some (if ans.older then a.Next .store_lock
      else a.findAndLock .UpDown true true a.frame.witness .store_action)
  | .store_action =>
    some (if a.frame.error then a.retry .store_lock
      else if a.frame.state = .BlockModified ∨ a.frame.state = .BlockExclusive then
        a.Next .store_unlock
      else a.Call .write_request a.frame.witness .store_unlock)
  | .store_unlock =>
    some (if a.frame.error then a.UnlockEntry.retry .store_lock
      else a.UnlockEntry.Next .store_finish)
  | .store_finish => some a.Return
  | _ => none

def EventNCStoreHandler (a : Access) (ans : Answer) : Option Access :=
  match a.event with
  | .nc_store => some (if ans.older then a.Next .nc_store_finish else a.Next .nc_store_lock)
  | .nc_store_lock =>
    some (if ans.older then a.Next .nc_store_lock
      else a.findAndLock .UpDown true false false .nc_store_writeback)
  | .nc_store_writeback =>
    some (if a.frame.error then a.retry .nc_store_lock
      else if a.frame.state = .BlockModified ∨ a.frame.state = .BlockOwned then
        a.Call .evict false .nc_store_action
      else a.Next .nc_store_action)
  | .nc_store_action =>
    -- here an error of the eviction retries without `UnlockEntry`
    some (if a.frame.error then a.retry .nc_store_lock
      else if a.module_type = .MainMemory then a.Next .nc_store_unlock
      else match a.frame.state with
        | .BlockShared | .BlockNonCoherent => a.Next .nc_store_unlock
        | .BlockExclusive => a.Call .message false .nc_store_miss
        | .BlockModified | .BlockOwned | .BlockInvalid => a.Call .read_request false .nc_store_miss)
  | .nc_store_miss =>
    some (if a.frame.error then a.UnlockEntry.retry .nc_store_lock else a.Next .nc_store_unlock)
  | .nc_store_unlock => some (a.UnlockEntry.Next .nc_store_finish)
  | .nc_store_finish => some (a.increment a.frame.witness).Return
  | _ => none

def lockError (a : Access) : Access := (a.setError true).Next a.lock_frame.return_event

def EventFindAndLockPort (a : Access) (ans : Answer) : Access :=
  let a := a.increment (a.lock_frame.write && ans.hit && a.lock_frame.witness)
  let way := if ans.hit then ans.way else ans.victim
  let a := { a with
    lock_frame :=
      { a.lock_frame with hit := ans.hit, set := ans.set, way := way, state := ans.state } }
  if ans.hit = false ∧ a.lock_frame.request_direction = .DownUp then
    { a with
      frame := { a.frame with block_not_found := true }
      event := a.lock_frame.return_event }
  else if ans.locked then
    if a.lock_frame.blocking then (a.record (.wait (ans.set, way))).Next .find_and_lock
    else lockError a
  else (a.record (.lock (ans.set, way))).Next .find_and_lock_action

/-- The last event: an eviction that failed gives the entry back. -/
def EventFindAndLockFinish (a : Access) (ans : Answer) : Access :=
  if a.lock_frame.error then
    lockError (a.record (.unlock (a.lock_frame.set, a.lock_frame.way)))
  else
    let state := if a.lock_frame.eviction then ans.state else a.lock_frame.state
    let state :=
      if a.lock_module_type = .MainMemory ∧ state = .BlockInvalid then .BlockExclusive else state
    { a with
      frame :=
        { a.frame with
          error := false, set := a.lock_frame.set, way := a.lock_frame.way, state := state }
      event := a.lock_frame.return_event }

def EventFindAndLockHandler (a : Access) (ans : Answer) : Option Access :=
  match a.event with
  | .find_and_lock =>
    let a := { a.setError false with lock_frame := { a.lock_frame with way := a.frame.way } }
    some ((a.record .search).Next .find_and_lock_port)
  | .find_and_lock_port => some (EventFindAndLockPort a ans)
  | .find_and_lock_action =>
    some (if a.lock_frame.hit = false ∧ a.lock_frame.state ≠ .BlockInvalid then
        { a with lock_frame := { a.lock_frame with eviction := true } }.Call .evict false
          .find_and_lock_finish
      else a.Next .find_and_lock_finish)
  | .find_and_lock_finish => some (EventFindAndLockFinish a ans)
  | _ => none

def EventEvictHandler (a : Access) (ans : Answer) : Option Access :=
  match a.event with
  | .evict =>
    some ({ a with frame := { a.frame with state := ans.state } }.Call .invalidate false
      .evict_invalid)
  | .evict_invalid =>
    let a := { a with frame := { a.frame with state := ans.state } }
    some (if a.module_type = .MainMemory then a.Next .evict_finish else a.Next .evict_action)
  | .evict_action =>
    some (if a.frame.state = .BlockInvalid then a.Next .evict_finish
      else if ans.sent then a.Next .evict_receive else a.Next .evict_action)
  | .evict_receive =>
    some (a.findAndLock .DownUp false true false
      (if a.frame.state = .BlockNonCoherent then .evict_process_noncoherent else .evict_process))
  | .evict_process =>
    some (if a.frame.error then a.Next .evict_reply else a.UnlockEntry.Next .evict_reply)
  | .evict_process_noncoherent =>
    some (if a.frame.error then a.Next .evict_reply else a.UnlockEntry.Next .evict_reply)
  | .evict_reply => some (if ans.sent then a.Next .evict_reply_receive else a.Next .evict_reply)
  | .evict_reply_receive => some (a.Next .evict_finish)
  | .evict_finish => some a.Return
  | _ => none

def EventWriteRequestHandler (a : Access) (ans : Answer) : Option Access :=
  match a.event with
  | .write_request =>
    some (if ans.sent then a.Next .write_request_receive else a.Next .write_request)
  | .write_request_receive =>
    some (a.findAndLock a.frame.request_direction
      (decide (a.frame.request_direction = .DownUp)) true false .write_request_action)
  | .write_request_action =>
    some (if a.frame.error then a.Next .write_request_reply
      else if a.frame.block_not_found then a.Next .write_request_reply
      else if a.module_type = .LMStore then a.Next .write_request_exclusive
      else a.Call .invalidate false .write_request_exclusive)
  | .write_request_exclusive =>
    some (if a.frame.request_direction = .UpDown then a.Next .write_request_updown
      else a.Next .write_request_downup)
  | .write_request_updown =>
    some (if a.frame.state = .BlockModified ∨ a.frame.state = .BlockExclusive then
        a.Next .write_request_updown_finish
      else a.Call .write_request false .write_request_updown_finish)
  | .write_request_updown_finish =>
    some (if a.frame.error then a.UnlockEntry.Next .write_request_reply
      else a.UnlockEntry.Next .write_request_reply)
  | .write_request_downup =>
    if a.frame.state = .BlockInvalid then none else some (a.Next .write_request_downup_finish)
  | .write_request_downup_finish => some (a.UnlockEntry.Next .write_request_reply)
  | .write_request_reply =>
    some (if ans.sent then a.Next .write_request_finish else a.Next .write_request_reply)
  | .write_request_finish =>
    some (a.increment (decide (a.frame.request_direction = .UpDown) && a.frame.witness)).Return
  | _ => none

/-- Count down the replies that are pending and go on after the last. -/
def pendingReply (a : Access) : Access :=
  let a := { a with frame := { a.frame with pending := a.frame.pending - 1 } }
  if a.frame.pending ≠ 0 then a else a.UnlockEntry.Next .read_request_reply

def EventReadRequestHandler (a : Access) (ans : Answer) : Option Access :=
  match a.event with
  | .read_request => some (if ans.sent then a.Next .read_request_receive else a.Next .read_request)
  | .read_request_receive =>
    some (a.findAndLock a.frame.request_direction
      (decide (a.frame.request_direction = .DownUp)) false false .read_request_action)
  | .read_request_action =>
    some (if a.frame.error then a.Next .read_request_reply
      else if a.frame.block_not_found then a.Next .read_request_reply
      else if a.frame.request_direction = .UpDown then a.Next .read_request_updown
      else a.Next .read_request_downup)
  | .read_request_updown =>
    some (if a.frame.state ≠ .BlockInvalid then
        { a with frame := { a.frame with pending := 1 + ans.owners } }.Next
          .read_request_updown_finish
      else
        { a with frame := { a.frame with pending := 1 } }.Call .read_request false
          .read_request_updown_miss)
  | .read_request_updown_miss =>
    some (if a.frame.error then a.UnlockEntry.Next .read_request_reply
      else a.Next .read_request_updown_finish)
  | .read_request_updown_finish => some (pendingReply a)
  | .read_request_downup =>
    some ({ a with frame := { a.frame with pending := 1 + ans.owners } }.Next
      .read_request_downup_finish)
  | .read_request_downup_finish => some (pendingReply a)
  | .read_request_reply =>
    some (if ans.sent then a.Next .read_request_finish else a.Next .read_request_reply)
  | .read_request_finish => some a.Return
  | _ => none

def EventMessageHandler (a : Access) (ans : Answer) : Option Access :=
  match a.event with
  | .message => some (if ans.sent then a.Next .message_receive else a.Next .message)
  | .message_receive => some (a.findAndLock .Invalid false false false .message_action)
  | .message_action =>
    some (if a.frame.error then a.Next .message_reply else a.UnlockEntry.Next .message_reply)
  | .message_reply => some (if ans.sent then a.Next .message_finish else a.Next .message_reply)
  | .message_finish => some a.Return
  | _ => none

def handler : Event → Option Chain
  | .load | .load_lock | .load_action | .load_miss | .load_unlock | .load_finish => some .load
  | .store | .store_lock | .store_action | .store_unlock | .store_finish => some .store
  | .nc_store | .nc_store_lock | .nc_store_writeback | .nc_store_action | .nc_store_miss
  | .nc_store_unlock | .nc_store_finish => some .nc_store
  | .find_and_lock | .find_and_lock_port | .find_and_lock_action | .find_and_lock_finish =>
    some .find_and_lock
  | .evict | .evict_invalid | .evict_action | .evict_receive | .evict_process
  | .evict_process_noncoherent | .evict_reply | .evict_reply_receive | .evict_finish => some .evict
  | .write_request | .write_request_receive | .write_request_action | .write_request_exclusive
  | .write_request_updown | .write_request_updown_finish | .write_request_downup
  | .write_request_downup_finish | .write_request_reply | .write_request_finish =>
    some .write_request
  | .read_request | .read_request_receive | .read_request_action | .read_request_updown
  | .read_request_updown_miss | .read_request_updown_finish | .read_request_downup
  | .read_request_downup_finish | .read_request_reply | .read_request_finish => some .read_request
  | .message | .message_receive | .message_action | .message_reply | .message_finish =>
    some .message
  | .returned => none

def next (a : Access) (ans : Answer) : Option Access :=
  match handler a.event with
  | some .load => EventLoadHandler (a.resume ans.error) ans
  | some .store => EventStoreHandler (a.resume ans.error) ans
  | some .nc_store => EventNCStoreHandler (a.resume ans.error) ans
  | some .find_and_lock => EventFindAndLockHandler (a.resume ans.error) ans
  | some .evict => EventEvictHandler (a.resume ans.error) ans
  | some .write_request => EventWriteRequestHandler (a.resume ans.error) ans
  | some .read_request => EventReadRequestHandler (a.resume ans.error) ans
  | some .message => EventMessageHandler (a.resume ans.error) ans
  | _ => none

/-- The first event of a chain. Find-and-lock runs inside another chain, and invalidation takes no
entry. -/
def firstEvent : Chain → Option Event
  | .load => some .load
  | .store => some .store
  | .nc_store => some .nc_store
  | .evict => some .evict
  | .write_request => some .write_request
  | .read_request => some .read_request
  | .message => some .message
  | .find_and_lock | .invalidate => none

/-- A chain on a new frame. -/
structure Starts (a : Access) : Prop where
  event : firstEvent a.chain = some a.event
  error : a.frame.error = false
  block_not_found : a.frame.block_not_found = false
  called : a.called = none
  log : a.log = []
  witnessed : a.witnessed = 0

end MMLMStore.CacheChains
