import MMLMStore.EntryLocks
import MMLMStore.WaitingLocks
import MMLMStore.DirectoryEntries

/-!
# Locks of the directories

The locks of the directory entries and the chains that call them, in any order of events. Each chain
runs on a frame of its own with the directory of its module, or of its target module. What an event
is told about the lock of the entry it found is what the directory says; a chain that waits for an
entry has no event scheduled until the entry is given back.
-/
namespace MMLMStore.DirectoryLocks

open LockLog CacheChains EntryLocks StepRuns WaitingLocks

/-- A lock with the access that has it, or 0, and the frames that wait for it. -/
structure Lock (P : Type*) where
  access_id : ℤ
  queue : List P
  deriving DecidableEq, Repr

structure Directory (P : Type*) where
  num_sets : ℕ
  num_ways : ℕ
  locks : ℕ → Lock P

namespace Directory

variable {P : Type*} (d : Directory P) (k : ℤ × ℤ)

def new (num_sets num_ways : ℕ) : Directory P := ⟨num_sets, num_ways, fun _ => ⟨0, []⟩⟩

def InRange : Prop := (0 ≤ k.1 ∧ k.1 < d.num_sets) ∧ 0 ≤ k.2 ∧ k.2 < d.num_ways

instance : Decidable (d.InRange k) := inferInstanceAs (Decidable ((_ ∧ _) ∧ _ ∧ _))

def index : ℕ := k.1.toNat * d.num_ways + k.2.toNat

def lockAt : Lock P := d.locks (d.index k)

def putLock (lock : Lock P) : Directory P :=
  { d with locks := Function.update d.locks (d.index k) lock }

def LockEntry (event : P) (access_id : ℤ) : Option (Bool × Directory P) :=
  if 0 < access_id ∧ d.InRange k then
    let lock := d.lockAt k
    if lock.access_id ≠ 0 then
      some (false, d.putLock k { lock with queue := lock.queue ++ [event] })
    else some (true, d.putLock k { lock with access_id := access_id })
  else none

def UnlockEntry (access_id : ℤ) : Option (List P × Directory P) :=
  let lock := d.lockAt k
  if d.InRange k ∧ 0 < lock.access_id ∧ access_id = lock.access_id then
    some (lock.queue, d.putLock k ⟨0, []⟩)
  else none

def getEntryAccessId : Option ℤ := if d.InRange k then some (d.lockAt k).access_id else none

def isEntryLocked : Option Bool := (d.getEntryAccessId k).map fun id => decide (id ≠ 0)

variable {d k} {l : ℤ × ℤ} {lock : Lock P} {id : ℤ}

theorem index_inj (hk : d.InRange k) (hl : d.InRange l) (h : d.index k = d.index l) : k = l := by
  obtain ⟨⟨hk1, -⟩, hk2, hk3⟩ := hk
  obtain ⟨⟨hl1, -⟩, hl2, hl3⟩ := hl
  obtain ⟨hset, hway⟩ := DirectoryEntries.flat_inj (by omega) (by omega) h
  exact Prod.ext (by omega) (by omega)

theorem lockAt_putLock (hk : d.InRange k) (hl : d.InRange l) :
    (d.putLock k lock).lockAt l = if l = k then lock else d.lockAt l := by
  change Function.update d.locks (d.index k) lock (d.index l) = _
  by_cases h : l = k
  · simp [h]
  · have hne : d.index l ≠ d.index k := fun heq => h (index_inj hl hk heq)
    rw [Function.update_of_ne hne, if_neg h]
    rfl

@[simp] theorem inRange_putLock : (d.putLock k lock).InRange l ↔ d.InRange l := Iff.rfl

theorem isEntryLocked_eq {b : Bool} : d.isEntryLocked k = some b ↔
    d.InRange k ∧ decide ((d.lockAt k).access_id ≠ 0) = b := by
  unfold isEntryLocked getEntryAccessId
  split_ifs with h <;> simp [h]

theorem LockEntry_free (hid : 0 < id) (hk : d.InRange k) (hfree : (d.lockAt k).access_id = 0)
    (event : P) :
    d.LockEntry k event id = some (true, d.putLock k { d.lockAt k with access_id := id }) := by
  simp [LockEntry, hid, hk, hfree]

theorem LockEntry_locked (hid : 0 < id) (hk : d.InRange k) (hlocked : (d.lockAt k).access_id ≠ 0)
    (event : P) : d.LockEntry k event id =
      some (false, d.putLock k { d.lockAt k with queue := (d.lockAt k).queue ++ [event] }) := by
  simp [LockEntry, hid, hk, hlocked]

theorem UnlockEntry_own (hk : d.InRange k) (hid : 0 < id) (hown : (d.lockAt k).access_id = id) :
    d.UnlockEntry k id = some ((d.lockAt k).queue, d.putLock k ⟨0, []⟩) := by
  simp [UnlockEntry, hk, hown, hid]

end Directory

/-! What one event of a chain does to the entries. -/

def Quiet : Operation (ℤ × ℤ) → Prop
  | .search | .retry | .ret => True
  | .lock _ | .wait _ | .unlock _ => False

def found (ans : Answer) : ℤ × ℤ := (ans.set, if ans.hit then ans.way else ans.victim)

def AsksFor (a : Access) (ans : Answer) : Prop :=
  a.event = .find_and_lock_port ∧
    ¬(ans.hit = false ∧ a.lock_frame.request_direction = .DownUp)

instance (a : Access) (ans : Answer) : Decidable (AsksFor a ans) :=
  inferInstanceAs (Decidable (_ ∧ ¬_))

/-- An eviction comes to the lower module and does not find its block. -/
def MissedEviction (a : Access) : Prop :=
  (a.event = .evict_process ∨ a.event = .evict_process_noncoherent) ∧
    a.frame.error = false ∧ a.frame.block_not_found = true

instance (a : Access) : Decidable (MissedEviction a) := inferInstanceAs (Decidable (_ ∧ _ ∧ _))

inductive Calls (a : Access) (ans : Answer) : List (Operation (ℤ × ℤ)) → Prop
  | quiet {ops} : (∀ o ∈ ops, Quiet o) → Calls a ans ops
  | lock : AsksFor a ans → ans.locked = false → Calls a ans [.lock (found ans)]
  | wait : AsksFor a ans → ans.locked = true → Calls a ans [.wait (found ans)]
  | unlock {k ops} : Holding k a.log → (∀ o ∈ ops, Quiet o) → Calls a ans (.unlock k :: ops)

def Made (a : Access) (ans : Answer) (t : Access) : Prop :=
  ∃ ops, t.log = a.log ++ ops ∧ Calls a ans ops

variable {a b t : Access} {ans : Answer} {e : Event}

theorem made_same (h : t.log = b.log) : Made b ans t :=
  ⟨[], by simpa using h, .quiet (by simp)⟩

theorem made_quiet {o : Operation (ℤ × ℤ)} (ho : Quiet o) (h : t.log = b.log ++ [o]) :
    Made b ans t :=
  ⟨[o], h, .quiet (by simpa using ho)⟩

theorem made_unlock (hhold : Holding (entry b) b.log) : Made b ans (b.UnlockEntry.Next e) :=
  ⟨[.unlock (entry b)], rfl, .unlock hhold (by simp)⟩

theorem made_unlock_retry (hhold : Holding (entry b) b.log) :
    Made b ans (b.UnlockEntry.retry e) := by
  refine ⟨[.unlock (entry b), .retry], ?_, .unlock hhold (by simp [Quiet])⟩
  simp [Access.UnlockEntry, Access.retry, Access.record, Access.Next, entry]

@[simp] theorem made_next : Made b ans (b.Next e) := made_same rfl

@[simp] theorem made_call {c : Chain} {w : Bool} : Made b ans (b.Call c w e) := made_same rfl

@[simp] theorem made_findAndLock {d : RequestDirection} {blocking write w : Bool} :
    Made b ans (b.findAndLock d blocking write w e) := made_same rfl

@[simp] theorem made_retry : Made b ans (b.retry e) := made_quiet (o := .retry) trivial rfl

@[simp] theorem made_return : Made b ans b.Return := made_quiet (o := .ret) trivial rfl

@[simp] theorem made_frame_next {f : Frame} : Made b ans ({ b with frame := f }.Next e) :=
  made_same rfl

@[simp] theorem made_frame_call {f : Frame} {c : Chain} {w : Bool} :
    Made b ans ({ b with frame := f }.Call c w e) := made_same rfl

@[simp] theorem log_increment (w : Bool) : (b.increment w).log = b.log := by
  cases w <;> rfl

@[simp] theorem made_increment_next {w : Bool} : Made b ans ((b.increment w).Next e) :=
  made_same (log_increment w)

@[simp] theorem made_increment_return {w : Bool} : Made b ans (b.increment w).Return :=
  made_quiet (o := .ret) trivial (by simp [Access.Return, Access.record, Access.Next])

/-! In each handler the events that give the entry back are the only ones to call the directory. -/

theorem EventLoadHandler_made (hb : Sound b) (h : EventLoadHandler b ans = some t) :
    Made b ans t := by
  have hlog := hb.log
  unfold EventLoadHandler at h
  cases hevent : b.event with
  | load | load_lock | load_action =>
    simp only [hevent, Option.some.injEq] at h
    subst h
    split_ifs <;> simp
  | load_miss =>
    simp only [hevent, Option.some.injEq] at h hlog
    subst h
    split_ifs
    · exact made_unlock_retry hlog
    · exact made_next
  | load_unlock =>
    simp only [hevent, Option.some.injEq] at h hlog
    subst h
    exact made_unlock hlog
  | load_finish =>
    simp only [hevent, Option.some.injEq] at h
    subst h
    exact made_increment_return
  | _ => simp [hevent] at h

theorem EventStoreHandler_made (hb : Sound b) (h : EventStoreHandler b ans = some t) :
    Made b ans t := by
  have hlog := hb.log
  unfold EventStoreHandler at h
  cases hevent : b.event with
  | store | store_lock | store_action =>
    simp only [hevent, Option.some.injEq] at h
    subst h
    split_ifs <;> simp
  | store_unlock =>
    simp only [hevent, Option.some.injEq] at h hlog
    subst h
    split_ifs
    · exact made_unlock_retry hlog
    · exact made_unlock hlog
  | store_finish =>
    simp only [hevent, Option.some.injEq] at h
    subst h
    exact made_return
  | _ => simp [hevent] at h

theorem EventNCStoreHandler_made (hb : Sound b) (h : EventNCStoreHandler b ans = some t) :
    Made b ans t := by
  have hlog := hb.log
  unfold EventNCStoreHandler at h
  cases hevent : b.event with
  | nc_store | nc_store_lock | nc_store_writeback =>
    simp only [hevent, Option.some.injEq] at h
    subst h
    split_ifs <;> simp
  | nc_store_action =>
    simp only [hevent, Option.some.injEq] at h
    subst h
    split_ifs
    · exact made_retry
    · exact made_next
    · cases b.frame.state <;> simp
  | nc_store_miss =>
    simp only [hevent, Option.some.injEq] at h hlog
    subst h
    split_ifs
    · exact made_unlock_retry hlog
    · exact made_next
  | nc_store_unlock =>
    simp only [hevent, Option.some.injEq] at h hlog
    subst h
    exact made_unlock hlog
  | nc_store_finish =>
    simp only [hevent, Option.some.injEq] at h
    subst h
    exact made_increment_return
  | _ => simp [hevent] at h

theorem EventFindAndLockPort_made (hevent : b.event = .find_and_lock_port) :
    Made b ans (EventFindAndLockPort b ans) := by
  unfold EventFindAndLockPort
  obtain ⟨n, hn⟩ := increment_eq b (b.lock_frame.write && ans.hit && b.lock_frame.witness)
  rw [hn]
  have hfound : found ans = (ans.set, if ans.hit = true then ans.way else ans.victim) := rfl
  dsimp only
  generalize (if ans.hit = true then ans.way else ans.victim) = way at hfound ⊢
  rw [← hfound]
  split_ifs with hmiss hlocked hblocking
  · exact made_same rfl
  · exact ⟨_, rfl, .wait ⟨hevent, hmiss⟩ hlocked⟩
  · exact made_same rfl
  · exact ⟨_, rfl, .lock ⟨hevent, hmiss⟩ (Bool.eq_false_iff.mpr hlocked)⟩

theorem EventFindAndLockHandler_made (hb : Sound b) (h : EventFindAndLockHandler b ans = some t) :
    Made b ans t := by
  have hlog := hb.log
  unfold EventFindAndLockHandler at h
  cases hevent : b.event with
  | find_and_lock =>
    simp only [hevent, Option.some.injEq] at h
    subst h
    exact made_quiet (o := .search) trivial rfl
  | find_and_lock_port =>
    simp only [hevent, Option.some.injEq] at h
    subst h
    exact EventFindAndLockPort_made hevent
  | find_and_lock_action =>
    simp only [hevent, Option.some.injEq] at h
    subst h
    split_ifs
    · exact made_same rfl
    · exact made_next
  | find_and_lock_finish =>
    simp only [hevent, Option.some.injEq] at h hlog
    subst h
    unfold EventFindAndLockFinish
    by_cases herror : b.lock_frame.error = true
    · rw [if_pos herror]
      exact ⟨[.unlock (lockEntry b)], rfl, .unlock hlog (by simp)⟩
    · rw [if_neg herror]
      exact made_same rfl
  | _ => simp [hevent] at h

theorem evicted_holding (hlog : LogAt b .found) (hevent : b.event = e)
    (he : e = .evict_process ∨ e = .evict_process_noncoherent) (hok : ¬MissedEviction b)
    (herror : ¬b.frame.error = true) : Holding (entry b) b.log := by
  have herror' := Bool.eq_false_iff.mpr herror
  refine hlog.2.2 herror' (Bool.eq_false_iff.mpr fun hmissed => hok ⟨?_, herror', hmissed⟩)
  rw [hevent]
  exact he

theorem EventEvictHandler_made (hb : Sound b) (hok : ¬MissedEviction b)
    (h : EventEvictHandler b ans = some t) : Made b ans t := by
  have hlog := hb.log
  unfold EventEvictHandler at h
  cases hevent : b.event with
  | evict =>
    simp only [hevent, Option.some.injEq] at h
    subst h
    exact made_frame_call
  | evict_invalid =>
    simp only [hevent, Option.some.injEq] at h
    subst h
    split_ifs
    · exact made_frame_next
    · exact made_frame_next
  | evict_action | evict_reply =>
    simp only [hevent, Option.some.injEq] at h
    subst h
    split_ifs <;> simp
  | evict_receive =>
    simp only [hevent, Option.some.injEq] at h
    subst h
    exact made_findAndLock
  | evict_process =>
    simp only [hevent, Option.some.injEq] at h hlog
    subst h
    split_ifs with herror
    · exact made_next
    · exact made_unlock (evicted_holding hlog hevent (Or.inl rfl) hok herror)
  | evict_process_noncoherent =>
    simp only [hevent, Option.some.injEq] at h hlog
    subst h
    split_ifs with herror
    · exact made_next
    · exact made_unlock (evicted_holding hlog hevent (Or.inr rfl) hok herror)
  | evict_reply_receive =>
    simp only [hevent, Option.some.injEq] at h
    subst h
    exact made_next
  | evict_finish =>
    simp only [hevent, Option.some.injEq] at h
    subst h
    exact made_return
  | _ => simp [hevent] at h

theorem EventWriteRequestHandler_made (hb : Sound b)
    (h : EventWriteRequestHandler b ans = some t) : Made b ans t := by
  have hlog := hb.log
  unfold EventWriteRequestHandler at h
  cases hevent : b.event with
  | write_request | write_request_action | write_request_exclusive | write_request_updown
  | write_request_reply =>
    simp only [hevent, Option.some.injEq] at h
    subst h
    split_ifs <;> simp
  | write_request_receive =>
    simp only [hevent, Option.some.injEq] at h
    subst h
    exact made_findAndLock
  | write_request_updown_finish =>
    simp only [hevent, Option.some.injEq] at h hlog
    subst h
    split_ifs
    · exact made_unlock hlog
    · exact made_unlock hlog
  | write_request_downup =>
    simp only [hevent] at h
    split_ifs at h
    cases h
    exact made_next
  | write_request_downup_finish =>
    simp only [hevent, Option.some.injEq] at h hlog
    subst h
    exact made_unlock hlog
  | write_request_finish =>
    simp only [hevent, Option.some.injEq] at h
    subst h
    exact made_increment_return
  | _ => simp [hevent] at h

theorem pendingReply_made (hhold : Holding (entry b) b.log) : Made b ans (pendingReply b) := by
  unfold pendingReply
  dsimp only
  split_ifs
  · exact made_same rfl
  · exact ⟨[.unlock (entry b)], rfl, .unlock hhold (by simp)⟩

theorem EventReadRequestHandler_made (hb : Sound b)
    (h : EventReadRequestHandler b ans = some t) : Made b ans t := by
  have hlog := hb.log
  unfold EventReadRequestHandler at h
  cases hevent : b.event with
  | read_request | read_request_action | read_request_reply =>
    simp only [hevent, Option.some.injEq] at h
    subst h
    split_ifs <;> simp
  | read_request_updown =>
    simp only [hevent, Option.some.injEq] at h
    subst h
    split_ifs
    · exact made_frame_next
    · exact made_frame_call
  | read_request_receive =>
    simp only [hevent, Option.some.injEq] at h
    subst h
    exact made_findAndLock
  | read_request_updown_miss =>
    simp only [hevent, Option.some.injEq] at h hlog
    subst h
    split_ifs
    · exact made_unlock hlog
    · exact made_next
  | read_request_downup =>
    simp only [hevent, Option.some.injEq] at h
    subst h
    exact made_frame_next
  | read_request_updown_finish | read_request_downup_finish =>
    simp only [hevent, Option.some.injEq] at h hlog
    subst h
    exact pendingReply_made hlog
  | read_request_finish =>
    simp only [hevent, Option.some.injEq] at h
    subst h
    exact made_return
  | _ => simp [hevent] at h

theorem EventMessageHandler_made (hb : Sound b) (h : EventMessageHandler b ans = some t) :
    Made b ans t := by
  have hlog := hb.at_event (e := b.event) rfl
  unfold EventMessageHandler at h
  cases hevent : b.event with
  | message | message_reply =>
    simp only [hevent, Option.some.injEq] at h
    subst h
    split_ifs <;> simp
  | message_receive =>
    simp only [hevent, Option.some.injEq] at h
    subst h
    exact made_findAndLock
  | message_action =>
    simp only [hevent, Option.some.injEq] at h hlog
    subst h
    split_ifs with herror
    · exact made_next
    · exact made_unlock (found_holding hlog.1 hlog.2 herror rfl)
  | message_finish =>
    simp only [hevent, Option.some.injEq] at h
    subst h
    exact made_return
  | _ => simp [hevent] at h

theorem MissedEviction.stage_eq (h : MissedEviction a) : stage a.event = .found := by
  rcases h.1 with hevent | hevent <;> rw [hevent] <;> rfl

theorem Made.of_resume {error : Bool} (h : Made (a.resume error) ans t) : Made a ans t := by
  obtain ⟨ops, hlog, hcalls⟩ := h
  obtain ⟨frameError, lockError, n, heq⟩ := resume_eq a error
  rw [heq] at hlog hcalls
  refine ⟨ops, hlog, ?_⟩
  cases hcalls with
  | quiet hquiet => exact .quiet hquiet
  | lock hasks hlocked => exact .lock hasks hlocked
  | wait hasks hlocked => exact .wait hasks hlocked
  | unlock hhold hquiet => exact .unlock hhold hquiet

theorem next_made (ha : Sound a) (h : next a ans = some t) (hok : ¬FailedEviction a ans)
    (hfound : ¬MissedEviction a) : Made a ans t := by
  have hb := ha.resume hok
  have hfound' : ¬MissedEviction (a.resume ans.error) := by
    intro hmissed
    have hstage := hmissed.stage_eq
    rw [resume_event] at hstage
    rw [resume_none (ha.called hstage)] at hmissed
    exact hfound hmissed
  suffices hmade : Made (a.resume ans.error) ans t from hmade.of_resume
  unfold next at h
  split at h
  · exact EventLoadHandler_made hb h
  · exact EventStoreHandler_made hb h
  · exact EventNCStoreHandler_made hb h
  · exact EventFindAndLockHandler_made hb h
  · exact EventEvictHandler_made hb hfound' h
  · exact EventWriteRequestHandler_made hb h
  · exact EventReadRequestHandler_made hb h
  · exact EventMessageHandler_made hb h
  · cases h

/-! All chains together. -/

variable {D P : Type*}

/-- The access of each chain and the module whose directory it calls. -/
structure Setup (D P : Type*) where
  id : P → ℤ
  dir : P → D
  id_pos : ∀ p, 0 < id p

/-- `scheduled` tells of each chain whether it has an event to come. -/
structure System (D P : Type*) where
  directories : D → Directory P
  accesses : P → Access
  scheduled : P → Bool

variable [DecidableEq D] [DecidableEq P]

def perform (c : Setup D P) (p : P) (s : System D P) :
    Operation (ℤ × ℤ) → Option (System D P)
  | .lock k | .wait k =>
    ((s.directories (c.dir p)).LockEntry k p (c.id p)).map fun r =>
      { s with
        directories := Function.update s.directories (c.dir p) r.2
        scheduled := Function.update s.scheduled p r.1 }
  | .unlock k =>
    ((s.directories (c.dir p)).UnlockEntry k (c.id p)).map fun r =>
      { s with
        directories := Function.update s.directories (c.dir p) r.2
        scheduled := fun q => s.scheduled q || decide (q ∈ r.1) }
  | .search | .retry | .ret => some s

/-- What `find_and_lock_port` is told is what the directory says of the entry it found. -/
def Told (c : Setup D P) (s : System D P) (p : P) (ans : Answer) : Prop :=
  AsksFor (s.accesses p) ans →
    (s.directories (c.dir p)).isEntryLocked (found ans) = some ans.locked

instance (c : Setup D P) (s : System D P) (p : P) (ans : Answer) : Decidable (Told c s p ans) :=
  inferInstanceAs (Decidable (_ → _))

/-- One chain takes its next event. There is no such step when an assertion fails. -/
def step (c : Setup D P) (s : System D P) (x : P × Answer) : Option (System D P) :=
  if s.scheduled x.1 = true ∧ Told c s x.1 x.2 then
    (next (s.accesses x.1) x.2).bind fun t =>
      (t.log.drop (s.accesses x.1).log.length).foldlM (perform c x.1)
        { s with accesses := Function.update s.accesses x.1 t }
  else none

/-- A chain has an entry from when it takes it until it gives it back. -/
def Has (s : System D P) (p : P) (k : ℤ × ℤ) : Prop := ¬ReleasedKey k (s.accesses p).log

/-- Directories whose entries are free, and chains that have not begun. -/
structure Starting (s : System D P) : Prop where
  access : ∀ p, Starts (s.accesses p)
  directory : ∀ d i, (s.directories d).locks i = ⟨0, []⟩
  scheduled : ∀ p, s.scheduled p = true

/-- The two cases that the handlers do not provide for. -/
def Regular (s : System D P) (x : P × Answer) : Prop :=
  ¬FailedEviction (s.accesses x.1) x.2 ∧ ¬MissedEviction (s.accesses x.1)

instance (s : System D P) (x : P × Answer) : Decidable (Regular s x) :=
  inferInstanceAs (Decidable (_ ∧ _))

/-- The locks and the queues of the directories, as a table of who has what and who waits. -/
structure Represents (c : Setup D P) (s : System D P) (t : Table (D × ℤ × ℤ) P) : Prop where
  sound : ∀ p, Sound (s.accesses p)
  has : ∀ p d k, t.holder (d, k) = some p ↔ d = c.dir p ∧ Has s p k
  lock : ∀ d k, (s.directories d).InRange k →
    ((s.directories d).lockAt k).access_id = (t.holder (d, k)).elim 0 c.id ∧
      ((s.directories d).lockAt k).queue = t.waiting (d, k)
  range : ∀ d k, ¬(s.directories d).InRange k →
    t.holder (d, k) = none ∧ t.waiting (d, k) = []
  scheduled : ∀ p, s.scheduled p = true ↔ ¬t.Waits p
  dir : ∀ p d k, p ∈ t.waiting (d, k) → d = c.dir p

variable {c : Setup D P} {s s' : System D P} {t : Table (D × ℤ × ℤ) P} {p q : P} {k l : ℤ × ℤ}

/-- The system after chain `p` has taken its event, before its calls. -/
def moved (s : System D P) (p : P) (a : Access) : System D P :=
  { s with accesses := Function.update s.accesses p a }

omit [DecidableEq D] in
theorem has_moved : Has (moved s p a) q k ↔ if q = p then ¬ReleasedKey k a.log else Has s q k := by
  unfold Has moved
  by_cases h : q = p
  · simp [h]
  · simp [h]

theorem foldlM_quiet {ops : List (Operation (ℤ × ℤ))} (h : ∀ o ∈ ops, Quiet o) :
    ops.foldlM (perform c p) s = some s := by
  induction ops with
  | nil => rfl
  | cons o ops ih =>
    have ho : perform c p s o = some s := by
      have := h o List.mem_cons_self
      cases o <;> simp_all [Quiet, perform]
    rw [List.foldlM_cons, ho]
    exact ih fun o' ho' => h o' (List.mem_cons_of_mem o ho')

theorem releasedKey_quiet {log ops : List (Operation (ℤ × ℤ))} (h : ∀ o ∈ ops, Quiet o) :
    ReleasedKey k (log ++ ops) ↔ ReleasedKey k log := by
  induction ops generalizing log with
  | nil => simp
  | cons o ops ih =>
    have ho := h o List.mem_cons_self
    have hlock : o ≠ .lock k := fun heq => by simp [heq, Quiet] at ho
    have hunlock : o ≠ .unlock k := fun heq => by simp [heq, Quiet] at ho
    rw [List.append_cons, ih fun o' ho' => h o' (List.mem_cons_of_mem o ho'),
      releasedKey_concat hlock hunlock]

omit [DecidableEq D] in
theorem sound_moved (h : ∀ q, Sound (s.accesses q)) (ha : Sound a) (q : P) :
    Sound ((moved s p a).accesses q) := by
  unfold moved
  by_cases hq : q = p
  · simp [hq, ha]
  · simp [hq, h q]

omit [DecidableEq D] in
theorem Represents.keeps (h : Represents c s t) (ha : Sound a)
    (hlog : ∀ k, ReleasedKey k a.log ↔ ReleasedKey k (s.accesses p).log) :
    Represents c (moved s p a) t where
  sound := sound_moved h.sound ha
  has q d k := by
    rw [h.has, has_moved]
    by_cases hq : q = p
    · simp [hq, Has, hlog]
    · simp [hq]
  lock := h.lock
  range := h.range
  scheduled := h.scheduled
  dir := h.dir

def putLocks (s : System D P) (d : D) (k : ℤ × ℤ) (lock : Lock P) : D → Directory P :=
  Function.update s.directories d ((s.directories d).putLock k lock)

section
variable {d d' : D} {lock : Lock P}

omit [DecidableEq P] in
theorem inRange_putLocks :
    (putLocks s d k lock d').InRange l ↔ (s.directories d').InRange l := by
  unfold putLocks
  by_cases h : d' = d
  · subst h
    simp
  · simp [h]

omit [DecidableEq P] in
theorem lockAt_putLocks (hk : (s.directories d).InRange k) (hl : (s.directories d').InRange l) :
    (putLocks s d k lock d').lockAt l =
      if (d', l) = (d, k) then lock else (s.directories d').lockAt l := by
  unfold putLocks
  by_cases h : d' = d
  · subst h
    simp [Directory.lockAt_putLock hk hl]
  · simp [h]

end

omit [DecidableEq D] [DecidableEq P] in
theorem Represents.holder_eq_none (h : Represents c s t) {d : D}
    (hk : (s.directories d).InRange k) :
    t.holder (d, k) = none ↔ ((s.directories d).lockAt k).access_id = 0 := by
  rw [(h.lock d k hk).1]
  cases t.holder (d, k) with
  | none => simp
  | some q => simp [(c.id_pos q).ne']

omit [DecidableEq P] in
theorem Represents.put {t' : Table (D × ℤ × ℤ) P} {lock : Lock P} (h : Represents c s t)
    (hk : (s.directories (c.dir p)).InRange k)
    (hdirectories : s'.directories = putLocks s (c.dir p) k lock)
    (hsound : ∀ q, Sound (s'.accesses q))
    (hhas : ∀ q l, ¬(q = p ∧ l = k) → (Has s' q l ↔ Has s q l))
    (hown : ∀ q, c.dir q = c.dir p → (t'.holder (c.dir p, k) = some q ↔ Has s' q k))
    (hother : ∀ q, t'.holder (c.dir p, k) = some q → c.dir q = c.dir p)
    (hlock : lock.access_id = (t'.holder (c.dir p, k)).elim 0 c.id ∧
      lock.queue = t'.waiting (c.dir p, k))
    (hsame : ∀ key, key ≠ (c.dir p, k) →
      t'.holder key = t.holder key ∧ t'.waiting key = t.waiting key)
    (hscheduled : ∀ q, s'.scheduled q = true ↔ ¬t'.Waits q)
    (hdir : ∀ q, q ∈ t'.waiting (c.dir p, k) → c.dir p = c.dir q) : Represents c s' t' where
  sound := hsound
  has q d l := by
    by_cases hkey : (d, l) = (c.dir p, k)
    · obtain ⟨rfl, rfl⟩ := Prod.mk.inj hkey
      constructor
      · intro hq
        have hdirq := hother q hq
        exact ⟨hdirq.symm, (hown q hdirq).mp hq⟩
      · intro hq
        exact (hown q hq.1.symm).mpr hq.2
    · rw [(hsame _ hkey).1, h.has]
      refine and_congr_right fun hd => (hhas q l fun hpk => hkey ?_).symm
      rw [hd, hpk.1, hpk.2]
  lock d l hl := by
    rw [hdirectories] at hl ⊢
    have hl' := inRange_putLocks.mp hl
    rw [lockAt_putLocks hk hl']
    by_cases hkey : (d, l) = (c.dir p, k)
    · rw [if_pos hkey, hkey]
      exact hlock
    · rw [if_neg hkey, (hsame _ hkey).1, (hsame _ hkey).2]
      exact h.lock d l hl'
  range d l hl := by
    rw [hdirectories] at hl
    have hl' : ¬(s.directories d).InRange l := fun hin => hl (inRange_putLocks.mpr hin)
    have hkey : (d, l) ≠ (c.dir p, k) := by
      intro heq
      obtain ⟨rfl, rfl⟩ := Prod.mk.inj heq
      exact hl' hk
    rw [(hsame _ hkey).1, (hsame _ hkey).2]
    exact h.range d l hl'
  scheduled := hscheduled
  dir q d l hq := by
    by_cases hkey : (d, l) = (c.dir p, k)
    · obtain ⟨rfl, rfl⟩ := Prod.mk.inj hkey
      exact hdir q hq
    · rw [(hsame _ hkey).2] at hq
      exact h.dir q d l hq

omit [DecidableEq D] in
theorem has_moved_of_ne (hne : ¬(q = p ∧ l = k)) {o : Operation (ℤ × ℤ)}
    (ho : o = .lock k ∨ o = .wait k ∨ o = .unlock k)
    (hlog : ReleasedKey l a.log ↔ ReleasedKey l ((s.accesses p).log ++ [o])) :
    Has (moved s p a) q l ↔ Has s q l := by
  rw [has_moved]
  by_cases hq : q = p
  · have hl : k ≠ l := fun heq => hne ⟨hq, heq.symm⟩
    have hlock : o ≠ .lock l := by rcases ho with rfl | rfl | rfl <;> simp [hl]
    have hunlock : o ≠ .unlock l := by rcases ho with rfl | rfl | rfl <;> simp [hl]
    simp [hq, hlog, Has, releasedKey_concat hlock hunlock]
  · simp [hq]

theorem Represents.locks (h : Represents c s t) (ha : Sound a)
    (hlog : a.log = (s.accesses p).log ++ [.lock k])
    (hk : (s.directories (c.dir p)).InRange k)
    (hfree : ((s.directories (c.dir p)).lockAt k).access_id = 0) (hp : s.scheduled p = true) :
    ∃ s', perform c p (moved s p a) (.lock k) = some s' ∧
      Represents c s' (t.take p (c.dir p, k)) := by
  have hnone := (h.holder_eq_none hk).mpr hfree
  have hlock := Directory.LockEntry_free (c.id_pos p) hk hfree p
  refine ⟨_, congrArg (Option.map _) hlock, h.put hk rfl (sound_moved h.sound ha) ?_ ?_ ?_ ?_ ?_
    ?_ ?_⟩
  · intro q l hne
    exact has_moved_of_ne hne (Or.inl rfl) (by rw [hlog])
  · intro q hq
    change _ ↔ Has (moved s p a) q k
    rw [has_moved, Table.holder_take, if_pos rfl, Option.some.injEq]
    by_cases hpq : q = p
    · simp [hpq, hlog, not_releasedKey_concat_lock]
    · rw [if_neg hpq]
      have hnot : ¬Has s q k := by
        intro hhas
        have := (h.has q (c.dir p) k).mpr ⟨hq.symm, hhas⟩
        simp [hnone] at this
      simp [hnot, Ne.symm hpq]
  · intro q hq
    rw [Table.holder_take, if_pos rfl] at hq
    rw [Option.some.inj hq]
  · rw [Table.holder_take, if_pos rfl, Table.waiting_take]
    exact ⟨rfl, (h.lock _ _ hk).2⟩
  · intro key hkey
    rw [Table.holder_take, if_neg hkey]
    exact ⟨rfl, rfl⟩
  · intro q
    change Function.update s.scheduled p true q = true ↔ ¬t.Waits q
    rw [← h.scheduled]
    by_cases hq : q = p
    · simp [hq, hp]
    · simp [hq]
  · intro q hq
    exact h.dir q _ _ hq

theorem Represents.waits (h : Represents c s t) (ha : Sound a)
    (hlog : a.log = (s.accesses p).log ++ [.wait k])
    (hk : (s.directories (c.dir p)).InRange k)
    (hlocked : ((s.directories (c.dir p)).lockAt k).access_id ≠ 0) :
    ∃ s', perform c p (moved s p a) (.wait k) = some s' ∧
      Represents c s' (t.await p (c.dir p, k)) := by
  have hwait := Directory.LockEntry_locked (c.id_pos p) hk hlocked p
  refine ⟨_, congrArg (Option.map _) hwait, h.put hk rfl (sound_moved h.sound ha) ?_ ?_ ?_ ?_ ?_
    ?_ ?_⟩
  · intro q l hne
    exact has_moved_of_ne hne (Or.inr (Or.inl rfl)) (by rw [hlog])
  · intro q hq
    change _ ↔ Has (moved s p a) q k
    have hsame : Has (moved s p a) q k ↔ Has s q k := by
      rw [has_moved]
      by_cases hpq : q = p
      · simp [hpq, hlog, Has, releasedKey_concat]
      · simp [hpq]
    rw [Table.holder_await, h.has, hsame]
    simp [hq]
  · intro q hq
    rw [Table.holder_await, h.has] at hq
    exact hq.1.symm
  · rw [Table.holder_await, Table.waiting_await, if_pos rfl]
    obtain ⟨hid, hqueue⟩ := h.lock _ _ hk
    exact ⟨hid, by simp [hqueue]⟩
  · intro key hkey
    rw [Table.waiting_await, if_neg hkey]
    exact ⟨rfl, rfl⟩
  · intro q
    change Function.update s.scheduled p false q = true ↔ _
    rw [Table.waits_await]
    have := h.scheduled q
    by_cases hq : q = p
    · simp [hq]
    · simp [hq, this]
  · intro q hq
    rcases Table.mem_waiting_await.mp hq with hq | hq
    · exact h.dir q _ _ hq
    · rw [hq.2]

theorem Represents.unlocks (h : Represents c s t) (ht : Ordered t) (ha : Sound a)
    (hhas : Has s p k)
    (hlog : ∀ l, ReleasedKey l a.log ↔ ReleasedKey l ((s.accesses p).log ++ [.unlock k])) :
    ∃ s', perform c p (moved s p a) (.unlock k) = some s' ∧
      Represents c s' (t.release (c.dir p, k)) := by
  have hholder := (h.has p (c.dir p) k).mpr ⟨rfl, hhas⟩
  have hk : (s.directories (c.dir p)).InRange k := by
    by_contra hk
    simp [(h.range _ _ hk).1] at hholder
  obtain ⟨hid, hqueue⟩ := h.lock _ _ hk
  have hunlock := Directory.UnlockEntry_own hk (c.id_pos p) (by simp [hid, hholder])
  refine ⟨_, congrArg (Option.map _) hunlock, h.put hk rfl (sound_moved h.sound ha) ?_ ?_ ?_ ?_ ?_
    ?_ ?_⟩
  · intro q l hne
    exact has_moved_of_ne hne (Or.inr (Or.inr rfl)) (hlog l)
  · intro q hq
    change _ ↔ Has (moved s p a) q k
    rw [has_moved, Table.holder_release, if_pos rfl]
    by_cases hpq : q = p
    · simp [hpq, hlog, releasedKey_concat_unlock]
    · have hnot : ¬Has s q k := by
        intro hq'
        have := (h.has q (c.dir p) k).mpr ⟨hq.symm, hq'⟩
        rw [hholder] at this
        exact hpq (Option.some.inj this).symm
      simp [hpq, hnot]
  · intro q hq
    simp [Table.holder_release] at hq
  · rw [Table.holder_release, Table.waiting_release, if_pos rfl, if_pos rfl]
    exact ⟨rfl, rfl⟩
  · intro key hkey
    rw [Table.holder_release, Table.waiting_release, if_neg hkey, if_neg hkey]
    exact ⟨rfl, rfl⟩
  · intro q
    change (s.scheduled q || decide (q ∈ ((s.directories (c.dir p)).lockAt k).queue)) = true ↔ _
    rw [ht.waits_release, hqueue, Bool.or_eq_true, h.scheduled, decide_eq_true_eq]
    tauto
  · intro q hq
    simp [Table.waiting_release] at hq

/-- Every event of a chain that has one scheduled makes its calls without a failed assertion, and
the table takes the same action. -/
theorem Represents.advances (h : Represents c s t) (ht : Ordered t) {ans : Answer}
    (hreg : Regular s (p, ans)) (hp : s.scheduled p = true) (htold : Told c s p ans)
    (hnext : next (s.accesses p) ans = some a) :
    ∃ s' t', step c s (p, ans) = some s' ∧ Represents c s' t' ∧ Step t t' := by
  have ha := next_sound (h.sound p) hnext hreg.1
  obtain ⟨ops, hlog, hcalls⟩ := next_made (h.sound p) hnext hreg.1 hreg.2
  have hstep : step c s (p, ans) = ops.foldlM (perform c p) (moved s p a) := by
    unfold step
    rw [if_pos ⟨hp, htold⟩, hnext, Option.bind_some, hlog, List.drop_left]
    rfl
  have hwaits : ¬t.Waits p := (h.scheduled p).mp hp
  rw [hstep]
  cases hcalls with
  | quiet hquiet =>
    refine ⟨_, t, foldlM_quiet hquiet, h.keeps ha fun k => ?_, .stay⟩
    rw [hlog, releasedKey_quiet hquiet]
  | lock hasks hlocked =>
    obtain ⟨hk, hid⟩ := Directory.isEntryLocked_eq.mp (htold hasks)
    have hfree : ((s.directories (c.dir p)).lockAt (found ans)).access_id = 0 := by
      simpa [hlocked] using hid
    obtain ⟨s', hs', hrep⟩ := h.locks ha hlog hk hfree hp
    exact ⟨s', _, by simp [hs'], hrep, .take hwaits ((h.holder_eq_none hk).mpr hfree)⟩
  | wait hasks hlocked =>
    obtain ⟨hk, hid⟩ := Directory.isEntryLocked_eq.mp (htold hasks)
    have hne : ((s.directories (c.dir p)).lockAt (found ans)).access_id ≠ 0 := by
      simpa [hlocked] using hid
    obtain ⟨s', hs', hrep⟩ := h.waits ha hlog hk hne
    have hfree : Free (s.accesses p).log := ((h.sound p).at_event hasks.1).1
    have hempty : ¬t.Holds p := by
      intro hholds
      obtain ⟨key, hkey⟩ := hholds
      exact ((h.has p key.1 key.2).mp hkey).2 (hfree.releasedKey _)
    exact ⟨s', _, by simp [hs'], hrep,
      .await hwaits hempty fun hnone => hne ((h.holder_eq_none hk).mp hnone)⟩
  | @unlock k ops hhold hquiet =>
    have hhas : Has s p k := hhold.not_releasedKey
    obtain ⟨s', hs', hrep⟩ := h.unlocks ht ha hhas fun l => by
      rw [hlog, List.append_cons, releasedKey_quiet hquiet]
    refine ⟨s', _, ?_, hrep, .release ((h.has p _ k).mpr ⟨rfl, hhas⟩)⟩
    rw [List.foldlM_cons, hs']
    exact foldlM_quiet hquiet

/-- A state whose locks some orderly table represents. -/
def Orderly (c : Setup D P) (s : System D P) : Prop := ∃ t, Represents c s t ∧ Ordered t

omit [DecidableEq D] [DecidableEq P] in
theorem orderly_of_starting (h : Starting s) : Orderly c s := by
  have hlock : ∀ d k, (s.directories d).lockAt k = ⟨0, []⟩ := fun d k => h.directory d _
  refine ⟨Table.new, ?_, ordered_new⟩
  constructor
  · exact fun p => sound_of_starts (h.access p)
  · intro p d k
    have hreleased : ReleasedKey k (s.accesses p).log := by
      rw [(h.access p).log]
      exact free_nil.releasedKey k
    simp [Table.new, Has, hreleased]
  · intro d k _
    simp [hlock, Table.new]
  · intro d k _
    exact ⟨rfl, rfl⟩
  · intro p
    simp [h.scheduled, Table.new, Table.Waits]
  · intro p d k hp
    simp [Table.new] at hp

theorem Represents.step {x : P × Answer} (h : Represents c s t) (ht : Ordered t)
    (hstep : step c s x = some s') (hreg : Regular s x) :
    ∃ t', Represents c s' t' ∧ Step t t' := by
  have hcond : s.scheduled x.1 = true ∧ Told c s x.1 x.2 := by
    by_contra hnot
    simp [DirectoryLocks.step, hnot] at hstep
  obtain ⟨a, hnext⟩ : ∃ a, next (s.accesses x.1) x.2 = some a := by
    cases hnext : next (s.accesses x.1) x.2 with
    | none => simp [DirectoryLocks.step, hnext] at hstep
    | some a => exact ⟨a, rfl⟩
  obtain ⟨s'', t', hs'', hrep', ht'⟩ := h.advances ht hreg hcond.1 hcond.2 hnext
  rw [hstep] at hs''
  exact ⟨t', Option.some.inj hs'' ▸ hrep', ht'⟩

theorem orderly_run {run : List ((P × Answer) × System D P)} (hstart : Starting s)
    (hrun : IsRun (fun s x s' => step c s x = some s') s run)
    (hreg : ∀ x ∈ transitions s run, Regular x.1 x.2.1) : ∀ s' ∈ states s run, Orderly c s' := by
  refine StepRuns.invariant (C := fun s x _ => Regular s x) ?_ hrun (orderly_of_starting hstart)
    hreg
  intro s x s' h hstep hreg
  obtain ⟨t, hrep, ht⟩ := h
  obtain ⟨t', hrep', ht'⟩ := hrep.step ht hstep hreg
  exact ⟨t', hrep', ht.step ht'⟩

/-- What the directories say of an entry is what the chains did with it. -/
structure Guarded (c : Setup D P) (s : System D P) : Prop where
  free : ∀ d k, (s.directories d).getEntryAccessId k = some 0 →
    ∀ p, c.dir p = d → ¬Has s p k
  locked : ∀ d k id, (s.directories d).getEntryAccessId k = some id → id ≠ 0 →
    ∃ p, c.id p = id ∧ c.dir p = d ∧ Has s p k
  entry : ∀ p k, Has s p k → (s.directories (c.dir p)).getEntryAccessId k = some (c.id p)
  exclusive : ∀ p q k, c.dir p = c.dir q → Has s p k → Has s q k → p = q

omit [DecidableEq D] [DecidableEq P] in
theorem Orderly.guarded (h : Orderly c s) : Guarded c s := by
  obtain ⟨t, hrep, -⟩ := h
  have hin : ∀ p k, Has s p k → (s.directories (c.dir p)).InRange k ∧
      t.holder (c.dir p, k) = some p := by
    intro p k hp
    have hholder := (hrep.has p (c.dir p) k).mpr ⟨rfl, hp⟩
    refine ⟨?_, hholder⟩
    by_contra hk
    simp [(hrep.range _ _ hk).1] at hholder
  have hentry : ∀ p k, Has s p k →
      (s.directories (c.dir p)).getEntryAccessId k = some (c.id p) := by
    intro p k hp
    obtain ⟨hk, hholder⟩ := hin p k hp
    simp [Directory.getEntryAccessId, hk, (hrep.lock _ _ hk).1, hholder]
  constructor
  · intro d k hzero p hd hp
    have := hentry p k hp
    rw [hd, hzero] at this
    exact (c.id_pos p).ne (Option.some.inj this)
  · intro d k id hid hne
    by_cases hk : (s.directories d).InRange k
    · simp only [Directory.getEntryAccessId, hk, if_true, Option.some.injEq,
        (hrep.lock d k hk).1] at hid
      cases hholder : t.holder (d, k) with
      | none =>
        rw [hholder] at hid
        exact absurd hid.symm hne
      | some p =>
        rw [hholder] at hid
        obtain ⟨hd, hp⟩ := (hrep.has p d k).mp hholder
        exact ⟨p, hid, hd.symm, hp⟩
    · simp [Directory.getEntryAccessId, hk] at hid
  · exact hentry
  · intro p q k hd hp hq
    have hp' := (hin p k hp).2
    rw [hd, (hin q k hq).2] at hp'
    exact (Option.some.inj hp').symm

/-- In every order of events of any number of chains: an entry is locked by the access of exactly
one chain, the one that has taken it and not given it back, and is free when there is none. -/
theorem guarded_run {run : List ((P × Answer) × System D P)} (hstart : Starting s)
    (hrun : IsRun (fun s x s' => step c s x = some s') s run)
    (hreg : ∀ x ∈ transitions s run, Regular x.1 x.2.1) : ∀ s' ∈ states s run, Guarded c s' :=
  fun s' hs' => (orderly_run hstart hrun hreg s' hs').guarded

/-- No assertion of `LockEntry` and `UnlockEntry` fails: whatever chain has an event scheduled can
take it. -/
theorem assertions_run {run : List ((P × Answer) × System D P)} (hstart : Starting s)
    (hrun : IsRun (fun s x s' => step c s x = some s') s run)
    (hreg : ∀ x ∈ transitions s run, Regular x.1 x.2.1) :
    ∀ s' ∈ states s run, ∀ p ans, s'.scheduled p = true → Told c s' p ans →
      Regular s' (p, ans) → (next (s'.accesses p) ans).isSome = true →
        (step c s' (p, ans)).isSome = true := by
  intro s' hs' p ans hp htold hreg' hnext
  obtain ⟨t, hrep, ht⟩ := orderly_run hstart hrun hreg s' hs'
  obtain ⟨a, ha⟩ := Option.isSome_iff_exists.mp hnext
  obtain ⟨s'', -, hs'', -⟩ := hrep.advances ht hreg' hp htold ha
  simp [hs'']

def Awaits (c : Setup D P) (s : System D P) (p : P) (k : ℤ × ℤ) : Prop :=
  (s.directories (c.dir p)).InRange k ∧ p ∈ ((s.directories (c.dir p)).lockAt k).queue

instance : Decidable (Awaits c s p k) := inferInstanceAs (Decidable (_ ∧ _))

omit [DecidableEq D] [DecidableEq P] in
theorem Represents.awaits_iff (h : Represents c s t) :
    Awaits c s p k ↔ p ∈ t.waiting (c.dir p, k) := by
  unfold Awaits
  by_cases hk : (s.directories (c.dir p)).InRange k
  · simp [hk, (h.lock _ _ hk).2]
  · simp [hk, (h.range _ _ hk).2]

/-- No wake-up is lost. A chain without an event waits for an entry that another chain has which
itself can go on, and it goes on exactly with the step in which that chain gives the entry back. -/
theorem wakes_run {run : List ((P × Answer) × System D P)} (hstart : Starting s)
    (hrun : IsRun (fun s x s' => step c s x = some s') s run)
    (hreg : ∀ x ∈ transitions s run, Regular x.1 x.2.1) :
    (∀ s' ∈ states s run, ∀ p, s'.scheduled p = false →
      ∃ k q, Awaits c s' p k ∧ c.dir q = c.dir p ∧ Has s' q k ∧ s'.scheduled q = true ∧
        (s'.accesses q).event ≠ .returned) ∧
      ∀ x ∈ transitions s run, ∀ p q k, Awaits c x.1 p k → c.dir q = c.dir p → Has x.1 q k →
        (x.2.2.scheduled p = true ↔ ¬Has x.2.2 q k) := by
  constructor
  · intro s' hs' p hp
    obtain ⟨t, hrep, ht⟩ := orderly_run hstart hrun hreg s' hs'
    have hwaits : t.Waits p := by
      by_contra hnot
      rw [(hrep.scheduled p).mpr hnot] at hp
      cases hp
    obtain ⟨⟨d, k⟩, hk⟩ := hwaits
    obtain rfl := hrep.dir p d k hk
    obtain ⟨q, hholder, hgoes⟩ := ht.holder_goes_on hk
    obtain ⟨hd, hq⟩ := (hrep.has q _ k).mp hholder
    refine ⟨k, q, hrep.awaits_iff.mpr hk, hd.symm, hq, (hrep.scheduled q).mpr hgoes, ?_⟩
    intro hreturned
    have hfree : Free (s'.accesses q).log := ((hrep.sound q).at_event hreturned).1
    exact hq (hfree.releasedKey k)
  · intro x hx p q k hp hd hq
    have hs := orderly_run hstart hrun hreg x.1 (mem_states_of_transition hx)
    obtain ⟨t, hrep, ht⟩ := hs
    obtain ⟨t', hrep', ht'⟩ := hrep.step ht (step_of_transition hrun x hx) (hreg x hx)
    have hholder := (hrep.has q (c.dir p) k).mpr ⟨hd.symm, hq⟩
    rw [hrep'.scheduled, ht.waits_step_iff ht' (hrep.awaits_iff.mp hp), hholder, hrep'.has]
    simp [hd]

/-! Two loads of the same block. -/

def load : Access where
  chain := .load
  module_type := .Cache
  lock_module_type := .Cache
  event := .load
  frame := ⟨0, 0, .BlockInvalid, false, false, 0, .Invalid, true⟩
  lock_frame := ⟨-1, -1, .BlockInvalid, false, false, false, false, false, .Invalid, false, .load⟩
  called := none
  log := []
  witnessed := 0

def twoLoads : Setup Unit Bool where
  id p := if p then 2 else 1
  dir _ := ()
  id_pos p := by cases p <;> decide

def atRest : System Unit Bool where
  directories _ := Directory.new 4 2
  accesses _ := load
  scheduled _ := true

theorem starting_atRest : Starting atRest :=
  ⟨fun _ => ⟨rfl, rfl, rfl, rfl, rfl, rfl⟩, fun _ _ => rfl, fun _ => rfl⟩

def hitShared (locked : Bool) : Answer :=
  ⟨false, true, 3, 1, 0, .BlockShared, locked, true, false, 0⟩

/-- The first load takes the entry, the second waits for it, and the first gives it back. -/
def contention : List (Bool × Answer) :=
  List.replicate 4 (false, hitShared false) ++ List.replicate 4 (true, hitShared true) ++
    List.replicate 4 (false, hitShared false) ++ List.replicate 4 (true, hitShared false)

theorem guarded_contention :
    (∃ s ∈ states atRest (trace (step twoLoads) atRest contention), s.scheduled true = false) ∧
      ∀ s ∈ states atRest (trace (step twoLoads) atRest contention), Guarded twoLoads s :=
  ⟨by decide, guarded_run starting_atRest (isRun_trace (step twoLoads) atRest contention)
    (by decide)⟩

theorem assertions_contention :
    ∃ s ∈ states atRest (trace (step twoLoads) atRest contention),
      (s.accesses false).event = .load_unlock ∧
        (step twoLoads s (false, hitShared false)).isSome = true := by
  obtain ⟨s, hs, hevent, hscheduled, htold, hregular, hnext⟩ :
      ∃ s ∈ states atRest (trace (step twoLoads) atRest contention),
        (s.accesses false).event = .load_unlock ∧ s.scheduled false = true ∧
          Told twoLoads s false (hitShared false) ∧ Regular s (false, hitShared false) ∧
            (next (s.accesses false) (hitShared false)).isSome = true := by decide
  exact ⟨s, hs, hevent, assertions_run starting_atRest
    (isRun_trace (step twoLoads) atRest contention) (by decide) s hs false (hitShared false)
    hscheduled htold hregular hnext⟩

theorem wakes_contention :
    ∃ x ∈ transitions atRest (trace (step twoLoads) atRest contention),
      Awaits twoLoads x.1 true (3, 1) ∧ x.2.2.scheduled true = true ∧
        ∀ q, Has x.1 q (3, 1) → ¬Has x.2.2 q (3, 1) := by
  obtain ⟨x, hx, hawaits, hgoes⟩ :
      ∃ x ∈ transitions atRest (trace (step twoLoads) atRest contention),
        Awaits twoLoads x.1 true (3, 1) ∧ x.2.2.scheduled true = true := by decide
  refine ⟨x, hx, hawaits, hgoes, fun q hq => ?_⟩
  exact ((wakes_run starting_atRest (isRun_trace (step twoLoads) atRest contention)
    (by decide)).2 x hx true q (3, 1) hawaits rfl hq).mp hgoes

end MMLMStore.DirectoryLocks
