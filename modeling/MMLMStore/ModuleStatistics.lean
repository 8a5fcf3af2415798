import MMLMStore.CacheChains

/-!
# Statistics of the lookups of a module

Lookups are made by the chains of events with flags of their own. `Module::UpdateStats` counts a
lookup by its kind, and `Module::DumpReport` prints these counts beside the number of all accesses.
-/
namespace MMLMStore.ModuleStatistics

open AccessList (ModuleType)
open CacheChains (RequestDirection)

inductive Chain
  | find_and_lock
  | local_find_and_lock
  | lmstore_find_and_lock
  deriving DecidableEq, Repr

/-- What the caller sets in the frame of a lookup. -/
structure Lookup where
  chain : Chain
  request_direction : RequestDirection
  blocking : Bool
  read : Bool
  write : Bool
  nc_write : Bool
  retry : Bool
  deriving DecidableEq, Repr

inductive Caller
  | load
  | store
  | nc_store
  | evict
  | write_request (direction : RequestDirection)
  | read_request (direction : RequestDirection)
  | message
  | local_load
  | local_store
  | lmstore_load
  | lmstore_store
  deriving DecidableEq, Repr

/-- The lookup of a chain; `retry` is the flag of the chain's own frame. -/
def Caller.lookup (retry : Bool) : Caller → Lookup
  | .load => ⟨.find_and_lock, .UpDown, true, true, false, false, retry⟩
  | .store => ⟨.find_and_lock, .UpDown, true, false, true, false, retry⟩
  | .nc_store => ⟨.find_and_lock, .UpDown, true, false, false, true, retry⟩
  | .evict => ⟨.find_and_lock, .DownUp, false, false, true, false, false⟩
  | .write_request d => ⟨.find_and_lock, d, d = .DownUp, false, true, false, false⟩
  | .read_request d => ⟨.find_and_lock, d, d = .DownUp, true, false, false, false⟩
  | .message => ⟨.find_and_lock, .Invalid, false, false, false, false, false⟩
  | .local_load => ⟨.local_find_and_lock, .Invalid, true, true, false, false, retry⟩
  | .local_store => ⟨.local_find_and_lock, .Invalid, true, false, true, false, retry⟩
  | .lmstore_load => ⟨.lmstore_find_and_lock, .UpDown, true, true, false, false, retry⟩
  | .lmstore_store => ⟨.lmstore_find_and_lock, .UpDown, true, false, true, false, retry⟩

/-- The counters of reads, of writes or of non-coherent writes. -/
structure KindStats where
  num : ℕ
  hits : ℕ
  misses : ℕ
  retry : ℕ
  retry_hits : ℕ
  retry_misses : ℕ
  blocking : ℕ
  non_blocking : ℕ
  deriving DecidableEq, Repr

structure Stats where
  num_accesses : ℕ
  num_retry_accesses : ℕ
  num_directory_entry_conflicts : ℕ
  num_retry_directory_entry_conflicts : ℕ
  reads : KindStats
  writes : KindStats
  nc_writes : KindStats
  num_lmstore_reads : ℕ
  num_lmstore_writes : ℕ
  num_read_probes : ℕ
  num_write_probes : ℕ
  num_retry_read_probes : ℕ
  num_retry_write_probes : ℕ
  num_hlc_evictions : ℕ
  deriving DecidableEq, Repr

def KindStats.zero : KindStats := ⟨0, 0, 0, 0, 0, 0, 0, 0⟩

def Stats.zero : Stats := ⟨0, 0, 0, 0, .zero, .zero, .zero, 0, 0, 0, 0, 0, 0, 0⟩

def KindStats.count (k : KindStats) (l : Lookup) (hit : Bool) : KindStats where
  num := k.num + 1
  hits := if hit then k.hits + 1 else k.hits
  misses := if hit then k.misses else k.misses + 1
  retry := if l.retry then k.retry + 1 else k.retry
  retry_hits := if hit ∧ l.retry then k.retry_hits + 1 else k.retry_hits
  retry_misses := if ¬hit ∧ l.retry then k.retry_misses + 1 else k.retry_misses
  blocking := if l.blocking then k.blocking + 1 else k.blocking
  non_blocking := if l.blocking then k.non_blocking else k.non_blocking + 1

namespace Stats

variable (s : Stats)

def incAccesses (retry : Bool) : Stats :=
  { s with
    num_accesses := s.num_accesses + 1
    num_retry_accesses := if retry then s.num_retry_accesses + 1 else s.num_retry_accesses }

def incDirectoryEntryConflicts (retry : Bool) : Stats :=
  { s with
    num_directory_entry_conflicts := s.num_directory_entry_conflicts + 1
    num_retry_directory_entry_conflicts :=
      if retry then s.num_retry_directory_entry_conflicts + 1
      else s.num_retry_directory_entry_conflicts }

/-- It panics for an invalid type of operation, and asserts that down-up lookups hit. Lookups are
for no allocation or deallocation. -/
def UpdateStats (type : ModuleType) (l : Lookup) (hit : Bool) : Option Stats :=
  match l.request_direction with
  | .UpDown =>
    if l.read then
      some { s with
        reads := s.reads.count l hit
        num_lmstore_reads :=
          if type = .LMStore then s.num_lmstore_reads + 1 else s.num_lmstore_reads }
    else if l.nc_write then some { s with nc_writes := s.nc_writes.count l hit }
    else if l.write then
      some { s with
        writes := s.writes.count l hit
        num_lmstore_writes :=
          if type = .LMStore then s.num_lmstore_writes + 1 else s.num_lmstore_writes }
    else none
  | .DownUp =>
    if hit then
      if l.write then
        some { s with
          num_write_probes := s.num_write_probes + 1
          num_retry_write_probes :=
            if l.retry then s.num_retry_write_probes + 1 else s.num_retry_write_probes }
      else if l.read then
        some { s with
          num_read_probes := s.num_read_probes + 1
          num_retry_read_probes :=
            if l.retry then s.num_retry_read_probes + 1 else s.num_retry_read_probes }
      else none
    else none
  | .Invalid => some { s with num_hlc_evictions := s.num_hlc_evictions + 1 }

end Stats

structure Report where
  Accesses : ℤ
  Hits : ℤ
  Misses : ℤ
  Reads : ℤ
  ReadHits : ℤ
  ReadMisses : ℤ
  Writes : ℤ
  WriteHits : ℤ
  WriteMisses : ℤ
  NCWrites : ℤ
  NCWriteHits : ℤ
  NCWriteMisses : ℤ
  deriving DecidableEq, Repr

def Stats.DumpReport (s : Stats) : Report :=
  let num_hits : ℤ := s.reads.hits + s.writes.hits + s.nc_writes.hits
  { Accesses := s.num_accesses
    Hits := num_hits
    Misses := s.num_accesses - num_hits
    Reads := s.reads.num
    ReadHits := s.reads.hits
    ReadMisses := (s.reads.num : ℤ) - s.reads.hits
    Writes := s.writes.num
    WriteHits := s.writes.hits
    WriteMisses := (s.writes.num : ℤ) - s.writes.hits
    NCWrites := s.nc_writes.num
    NCWriteHits := s.nc_writes.hits
    NCWriteMisses := (s.nc_writes.num : ℤ) - s.nc_writes.hits }

/-- Lookups that are counted as reads, writes or non-coherent writes. -/
def Stats.num_counted (s : Stats) : ℕ := s.reads.num + s.writes.num + s.nc_writes.num

theorem incAccesses_eq (s : Stats) (retry : Bool) :
    (s.incAccesses retry).num_accesses = s.num_accesses + 1 ∧
      (s.incAccesses retry).num_counted = s.num_counted := ⟨rfl, rfl⟩

theorem incDirectoryEntryConflicts_eq (s : Stats) (retry : Bool) :
    (s.incDirectoryEntryConflicts retry).num_accesses = s.num_accesses ∧
      (s.incDirectoryEntryConflicts retry).num_counted = s.num_counted := ⟨rfl, rfl⟩

theorem updateStats_eq {s s' : Stats} {type : ModuleType} {l : Lookup} {hit : Bool}
    (h : s.UpdateStats type l hit = some s') :
    s'.num_accesses = s.num_accesses ∧
      s'.num_counted = s.num_counted + if l.request_direction = .UpDown then 1 else 0 := by
  unfold Stats.UpdateStats at h
  split at h
  · next hdir =>
    rw [hdir]
    split_ifs at h
    all_goals
      obtain rfl := Option.some.inj h
      refine ⟨rfl, ?_⟩
      simp only [Stats.num_counted, KindStats.count, if_true]
      omega
  · next hdir =>
    rw [hdir]
    split_ifs at h
    all_goals
      obtain rfl := Option.some.inj h
      exact ⟨rfl, rfl⟩
  · next hdir =>
    rw [hdir]
    obtain rfl := Option.some.inj h
    exact ⟨rfl, rfl⟩

/-- A lookup of one of the chains does not panic, unless it is a down-up one that misses. -/
theorem updateStats_isSome (s : Stats) (type : ModuleType) (c : Caller) (retry hit : Bool)
    (hhit : (c.lookup retry).request_direction = .DownUp → hit = true) :
    (s.UpdateStats type (c.lookup retry) hit).isSome = true := by
  cases c with
  | load => rfl
  | store => rfl
  | nc_store => rfl
  | evict => rw [hhit rfl]; rfl
  | write_request d =>
    cases d with
    | Invalid => rfl
    | UpDown => rfl
    | DownUp => rw [hhit rfl]; rfl
  | read_request d =>
    cases d with
    | Invalid => rfl
    | UpDown => rfl
    | DownUp => rw [hhit rfl]; rfl
  | message => rfl
  | local_load => rfl
  | local_store => rfl
  | lmstore_load => rfl
  | lmstore_store => rfl

end MMLMStore.ModuleStatistics
