import MMLMStore.ModuleStatistics
import MMLMStore.SlotPool
import MMLMStore.StepRuns

/-!
# Ports of a module

The find-and-lock chains of caches, of local memories and of LMStores lock a port of their module,
look the block up, and give the port back. What the cache and the directory answer is left open, as
is the order in which the port queue keeps the events that wait in it.
-/
namespace MMLMStore.ModulePorts

open AccessList (ModuleType)
open CacheChains (RequestDirection)
open ModuleStatistics SlotPool StepRuns

/-- Where a chain is: not called yet, at its first event, in the port queue, at the event after
locking the port, at its action event, in the queue of the directory entry, at the event after
giving the port back, returned. -/
inductive Stage
  | absent
  | called
  | waiting
  | port
  | action
  | suspended
  | finish
  | returned
  deriving DecidableEq, Repr

/-- The frame of a chain; `port_locked` is the flag in the frame of its caller. -/
structure Frame where
  lookup : Lookup
  hit : Bool
  port : Option ℕ
  port_locked : Bool
  stage : Stage
  deriving DecidableEq, Repr

structure Module where
  type : ModuleType
  num_ports : ℕ
  num_locked_ports : ℕ
  ports : List (Option ℕ)
  port_queue : List ℕ
  frame : ℕ → Frame
  stats : Stats
  log : List (Entry ℕ)

def Module.new (type : ModuleType) (num_ports : ℕ) : Module where
  type := type
  num_ports := num_ports
  num_locked_ports := 0
  ports := List.replicate num_ports none
  port_queue := []
  frame := fun _ => ⟨Caller.message.lookup false, false, none, false, .absent⟩
  stats := .zero
  log := []

namespace Module

variable (Wait : Bool → ℕ → List ℕ → List ℕ) (m : Module)

def put (i : ℕ) (f : Frame) : Module :=
  { m with frame := fun j => if j = i then f else m.frame j }

def isInQueue (i : ℕ) : Prop := i ∈ m.port_queue ∨ (m.frame i).stage = .suspended

instance (i : ℕ) : Decidable (m.isInQueue i) := inferInstanceAs (Decidable (_ ∨ _))

def grant (p i : ℕ) : Module :=
  { m.put i { m.frame i with port := some p, stage := .port } with
    ports := m.ports.set p (some i)
    num_locked_ports := m.num_locked_ports + 1
    log := m.log ++ [Entry.take i p] }

def LockPort (i : ℕ) : Option Module :=
  if m.num_ports ≤ m.num_locked_ports then
    if m.isInQueue i then none
    else
      some { m.put i { m.frame i with stage := .waiting } with
        port_queue :=
          Wait ((m.frame i).lookup.request_direction = .DownUp) i m.port_queue }
  else (m.ports.findIdx? (·.isNone)).map (m.grant · i)

/-- Lock a port with an access that waits for one. -/
def lockWaiting (p : ℕ) : Module :=
  match m.port_queue with
  | [] => m
  | i :: queue => { m with port_queue := queue }.grant p i

def unlocked (p i : ℕ) : Module :=
  { m.put i { m.frame i with port := none } with
    ports := m.ports.set p none
    num_locked_ports := m.num_locked_ports - 1
    log := m.log ++ [Entry.give i p] }

def UnlockPort (p i : ℕ) : Option Module :=
  if 0 < m.num_locked_ports ∧ (m.frame i).port = some p ∧ m.ports[p]? = some (some i) then
    some ((m.unlocked p i).lockWaiting p)
  else none

def setStage (i : ℕ) (s : Stage) : Module := m.put i { m.frame i with stage := s }

def release (p i : ℕ) (s : Stage) : Option Module :=
  (m.UnlockPort p i).map fun m => m.put i { m.frame i with port_locked := false, stage := s }

/-- A conflict at the entry of the directory: the port is given back. -/
def conflict (p i : ℕ) (s : Stage) : Option Module :=
  (m.release p i s).map fun m =>
    { m with stats := m.stats.incDirectoryEntryConflicts (m.frame i).lookup.retry }

def incAccesses (i : ℕ) : Module :=
  { m with stats := m.stats.incAccesses (m.frame i).lookup.retry }

def UpdateStats (i : ℕ) : Option Module :=
  (m.stats.UpdateStats m.type (m.frame i).lookup (m.frame i).hit).map fun s =>
    { m with stats := s }

/-- The cache says if the block is found, and the directory if another access has locked its
entry, or that of the victim. -/
def find_and_lock_port (p i : ℕ) (hit locked : Bool) : Option Module :=
  let m := m.incAccesses i
  let m := m.put i { m.frame i with hit := hit, port_locked := true }
  if ¬hit ∧ (m.frame i).lookup.request_direction = .DownUp then m.release p i .returned
  else if locked ∧ ¬(m.frame i).lookup.blocking then m.conflict p i .returned
  else if locked then m.conflict p i .suspended
  else (m.UpdateStats i).map (·.setStage i .action)

def local_find_and_lock_port (i : ℕ) : Option Module :=
  let m := m.put i { m.frame i with port_locked := true }
  ((m.incAccesses i).UpdateStats i).map (·.setStage i .action)

def lmstore_find_and_lock_port (i : ℕ) (hit : Bool) : Option Module :=
  let m := m.put i { m.frame i with hit := hit, port_locked := true }
  let m := m.incAccesses i
  if (m.frame i).lookup.read ∨ (m.frame i).lookup.write then
    (m.UpdateStats i).map (·.setStage i .action)
  else some (m.setStage i .action)

end Module

inductive Action
  | call (i : ℕ) (c : Caller) (retry : Bool)
  | find_and_lock (i : ℕ)
  | find_and_lock_port (i : ℕ) (hit locked : Bool)
  | find_and_lock_action (i : ℕ)
  | find_and_lock_finish (i : ℕ)
  | wakeup (i : ℕ)
  deriving DecidableEq, Repr

def Action.chain : Action → ℕ
  | .call i _ _ => i
  | .find_and_lock i => i
  | .find_and_lock_port i _ _ => i
  | .find_and_lock_action i => i
  | .find_and_lock_finish i => i
  | .wakeup i => i

/-- Where a chain has to be for an event of it. -/
def Action.stage : Action → Stage
  | .call _ _ _ => .absent
  | .find_and_lock _ => .called
  | .find_and_lock_port _ _ _ => .port
  | .find_and_lock_action _ => .action
  | .find_and_lock_finish _ => .finish
  | .wakeup _ => .suspended

def handle (Wait : Bool → ℕ → List ℕ → List ℕ) (m : Module) : Action → Option Module
  | .call i c retry => some (m.put i ⟨c.lookup retry, false, none, false, .called⟩)
  | .find_and_lock i => m.LockPort Wait i
  | .find_and_lock_port i hit locked =>
    (m.frame i).port.bind fun p =>
      match (m.frame i).lookup.chain with
      | .find_and_lock => m.find_and_lock_port p i hit locked
      | .local_find_and_lock => m.local_find_and_lock_port i
      | .lmstore_find_and_lock => m.lmstore_find_and_lock_port i hit
  | .find_and_lock_action i => (m.frame i).port.bind fun p => m.release p i .finish
  | .find_and_lock_finish i => some (m.setStage i .returned)
  | .wakeup i => some (m.setStage i .called)

def next (Wait : Bool → ℕ → List ℕ → List ℕ) (m : Module) (a : Action) : Option Module :=
  if (m.frame a.chain).stage = a.stage then handle Wait m a else none

/-! The ports as a pool of slots. -/

def pool (m : Module) : Pool ℕ where
  slots := m.ports
  used := m.num_locked_ports
  held := fun i => (m.frame i).port
  queue := m.port_queue
  log := m.log

structure Ported (m : Module) : Prop where
  kept : Kept (pool m)
  size : m.ports.length = m.num_ports
  waiting : ∀ i, i ∈ m.port_queue ↔ (m.frame i).stage = .waiting
  holding : ∀ i, (m.frame i).port.isSome = true ↔
    (m.frame i).stage = .port ∨ (m.frame i).stage = .action
  flag : ∀ i, (m.frame i).port_locked = true → (m.frame i).port.isSome = true
  asked : ∀ i, ∃ c retry, (m.frame i).lookup = Caller.lookup retry c

variable {m : Module}

@[simp] theorem put_frame (i j : ℕ) (f : Frame) :
    (m.put i f).frame j = if j = i then f else m.frame j := rfl

@[simp] theorem grant_frame (p i j : ℕ) :
    (m.grant p i).frame j =
      if j = i then { m.frame i with port := some p, stage := .port } else m.frame j := rfl

theorem pool_grant (p i : ℕ) : pool (m.grant p i) = (pool m).take i p := by
  have hheld : (fun j => ((m.grant p i).frame j).port) =
      fun j => if j = i then some p else (m.frame j).port := by
    funext j
    rw [grant_frame]
    split_ifs <;> rfl
  simp only [pool, Pool.take, hheld]
  rfl

theorem pool_lockWaiting (p : ℕ) : pool (m.lockWaiting p) = (pool m).hand p := by
  unfold Module.lockWaiting Pool.hand
  cases hqueue : m.port_queue with
  | nil => simp [pool, hqueue]
  | cons i queue =>
    rw [pool_grant]
    simp [pool, hqueue]

/-- Who waited in front has the port now. -/
theorem lockWaiting_frame (p j : ℕ) :
    (m.lockWaiting p).frame j =
      if m.port_queue.head? = some j then { m.frame j with port := some p, stage := .port }
      else m.frame j := by
  unfold Module.lockWaiting
  cases hqueue : m.port_queue with
  | nil => simp
  | cons i queue =>
    by_cases hj : j = i
    · subst hj
      simp [Module.grant]
    · simp [Module.grant, hj, Ne.symm hj]

theorem lockWaiting_rest (p : ℕ) :
    (m.lockWaiting p).port_queue = m.port_queue.tail ∧
      (m.lockWaiting p).ports.length = m.ports.length ∧
      (m.lockWaiting p).num_ports = m.num_ports := by
  unfold Module.lockWaiting
  cases hqueue : m.port_queue with
  | nil => simp [hqueue]
  | cons i queue => simp [Module.grant, Module.put]

theorem Ported.put (h : Ported m) {i : ℕ} {f : Frame} (hport : f.port = (m.frame i).port)
    (hwaiting : f.stage = .waiting ↔ (m.frame i).stage = .waiting)
    (hholding : f.port.isSome = true ↔ f.stage = .port ∨ f.stage = .action)
    (hflag : f.port_locked = true → f.port.isSome = true)
    (hasked : ∃ c retry, f.lookup = Caller.lookup retry c) : Ported (m.put i f) := by
  have hpool : pool (m.put i f) = pool m := by
    have hheld : (fun j => ((m.put i f).frame j).port) = fun j => (m.frame j).port := by
      funext j
      rw [put_frame]
      split_ifs with hj
      · rw [hport, hj]
      · rfl
    simp only [pool, hheld]
    rfl
  refine ⟨hpool ▸ h.kept, h.size, fun j => ?_, fun j => ?_, fun j => ?_, fun j => ?_⟩
  all_goals
    rw [put_frame]
    split_ifs with hj
  · subst hj
    exact (h.waiting j).trans hwaiting.symm
  · exact h.waiting j
  · exact hholding
  · exact h.holding j
  · exact hflag
  · exact h.flag j
  · exact hasked
  · exact h.asked j

theorem Ported.stats (h : Ported m) (s : Stats) : Ported { m with stats := s } :=
  ⟨h.kept, h.size, h.waiting, h.holding, h.flag, h.asked⟩

theorem pool_unlocked (p i : ℕ) : pool (m.unlocked p i) = (pool m).give i p := by
  have hheld : (fun j => ((m.unlocked p i).frame j).port) =
      fun j => if j = i then none else (m.frame j).port := by
    funext j
    simp only [Module.unlocked, put_frame]
    split_ifs <;> rfl
  simp only [pool, Pool.give, hheld]
  rfl

theorem Ported.unlockPort (h : Ported m) {i p : ℕ} (hport : (m.frame i).port = some p) :
    m.UnlockPort p i = some ((m.unlocked p i).lockWaiting p) := by
  have hslot : m.ports[p]? = some (some i) := (h.kept.inverse i p).mpr hport
  have hused : 0 < m.num_locked_ports := by
    rw [show m.num_locked_ports = m.ports.countP Option.isSome from h.kept.counted]
    exact List.countP_pos_iff.mpr ⟨some i, List.mem_of_getElem? hslot, rfl⟩
  unfold Module.UnlockPort
  rw [if_pos ⟨hused, hport, hslot⟩]

/-- A chain that has a port does not wait for one. -/
theorem Ported.not_mem_queue (h : Ported m) {i p : ℕ} (hport : (m.frame i).port = some p) :
    i ∉ m.port_queue := by
  intro hi
  have hnone : (m.frame i).port = none := h.kept.apart i hi
  rw [hnone] at hport
  cases hport

/-- The frames after a port was given back: that of the chain, and that of the access that waited
in front. -/
theorem Ported.released_frame (h : Ported m) {i p : ℕ} (hport : (m.frame i).port = some p)
    (j : ℕ) :
    ((m.unlocked p i).lockWaiting p).frame j =
      if j = i then { m.frame i with port := none }
      else if m.port_queue.head? = some j then { m.frame j with port := some p, stage := .port }
      else m.frame j := by
  have hhead : m.port_queue.head? ≠ some i := fun hhead =>
    h.not_mem_queue hport (List.mem_of_mem_head? hhead)
  have hqueue : (m.unlocked p i).port_queue = m.port_queue := rfl
  rw [lockWaiting_frame, hqueue]
  by_cases hj : j = i
  · subst hj
    simp [hhead, Module.unlocked]
  · simp [hj, Module.unlocked]

/-- The port of a chain can be given back, to the access that waits in front if there is one. -/
theorem Ported.release (h : Ported m) {i p : ℕ} (hport : (m.frame i).port = some p) {s : Stage}
    (hs : s ≠ .waiting ∧ s ≠ .port ∧ s ≠ .action) :
    ∃ m', m.release p i s = some m' ∧ Ported m' := by
  obtain ⟨hwaits, hports, hactions⟩ := hs
  have hrelease : m.release p i s = some (((m.unlocked p i).lockWaiting p).put i
      { m.frame i with port := none, port_locked := false, stage := s }) := by
    rw [Module.release, h.unlockPort hport, Option.map_some, h.released_frame hport, if_pos rfl]
  obtain ⟨htail, hlength, hnum⟩ := lockWaiting_rest (m := m.unlocked p i) p
  refine ⟨_, hrelease, ?_, ?_, fun j => ?_, fun j => ?_, fun j => ?_, fun j => ?_⟩
  · have hheld : (fun j => ((((m.unlocked p i).lockWaiting p).put i
        { m.frame i with port := none, port_locked := false, stage := s }).frame j).port) =
        fun j => (((m.unlocked p i).lockWaiting p).frame j).port := by
      funext j
      rw [put_frame]
      split_ifs with hj
      · rw [h.released_frame hport, if_pos hj]
      · rfl
    have hkept := h.kept.release hport
    rw [← pool_unlocked, ← pool_lockWaiting] at hkept
    unfold pool
    rw [hheld]
    exact hkept
  · have hunlocked : (m.unlocked p i).ports.length = m.ports.length := by
      simp [Module.unlocked]
    exact (hlength.trans hunlocked).trans (h.size.trans hnum.symm)
  · have hmem : j ∈ m.port_queue.tail ↔ j ∈ m.port_queue ∧ m.port_queue.head? ≠ some j :=
      mem_tail_iff h.kept.nodup
    change j ∈ ((m.unlocked p i).lockWaiting p).port_queue ↔ _
    rw [htail]
    change j ∈ m.port_queue.tail ↔ _
    rw [hmem, put_frame, h.released_frame hport]
    by_cases hj : j = i
    · subst hj
      simp [hwaits, h.not_mem_queue hport]
    · rw [if_neg hj, if_neg hj, h.waiting j]
      split_ifs with hh <;> simp [hh]
  all_goals
    rw [put_frame, h.released_frame hport]
    by_cases hj : j = i
  · simp [hj, hports, hactions]
  · rw [if_neg hj, if_neg hj]
    split_ifs
    · simp
    · exact h.holding j
  · simp [hj]
  · rw [if_neg hj, if_neg hj]
    split_ifs
    · simp
    · exact h.flag j
  · rw [if_pos hj]
    exact h.asked i
  · rw [if_neg hj, if_neg hj]
    split_ifs <;> exact h.asked j

theorem Ported.port_none (h : Ported m) {i : ℕ} (hport : (m.frame i).stage ≠ .port)
    (haction : (m.frame i).stage ≠ .action) : (m.frame i).port = none := by
  have hnot := mt (h.holding i).mp (by simp [hport, haction])
  simpa using hnot

theorem Ported.wait (h : Ported m) {i : ℕ} (hi : (m.frame i).stage = .called)
    (hfull : m.num_ports ≤ m.num_locked_ports) {queue : List ℕ}
    (hperm : queue.Perm (i :: m.port_queue)) :
    Ported { m.put i { m.frame i with stage := .waiting } with port_queue := queue } := by
  have hport : (m.frame i).port = none := h.port_none (by simp [hi]) (by simp [hi])
  have hqueue : i ∉ m.port_queue := by
    rw [h.waiting i, hi]
    simp
  refine ⟨?_, h.size, fun j => ?_, fun j => ?_, fun j => ?_, fun j => ?_⟩
  · have hheld : (fun j => ((m.put i { m.frame i with stage := .waiting }).frame j).port) =
        fun j => (m.frame j).port := by
      funext j
      rw [put_frame]
      split_ifs with hj
      · rw [hj]
      · rfl
    have hput : pool (m.put i { m.frame i with stage := .waiting }) = pool m := by
      unfold pool
      rw [hheld]
      rfl
    have hkept := h.kept.wait hperm hport hqueue (h.size.trans_le hfull)
    rw [← hput] at hkept
    exact hkept
  · change j ∈ queue ↔ _
    rw [hperm.mem_iff, List.mem_cons, h.waiting j, put_frame]
    by_cases hj : j = i <;> simp [hj]
  all_goals
    rw [put_frame]
    by_cases hj : j = i
  · simp [hj, hport]
  · simpa [hj] using h.holding j
  · have hflag := mt (h.flag i) (by simp [hport])
    simpa [hj, hport] using hflag
  · simpa [hj] using h.flag j
  · simpa [hj] using h.asked i
  · simpa [hj] using h.asked j

theorem Ported.grant (h : Ported m) {i p : ℕ} (hi : (m.frame i).stage = .called)
    (hfree : m.ports[p]? = some none) (hqueue : m.port_queue = []) : Ported (m.grant p i) := by
  have hport : (m.frame i).port = none := h.port_none (by simp [hi]) (by simp [hi])
  refine ⟨?_, ?_, fun j => ?_, fun j => ?_, fun j => ?_, fun j => ?_⟩
  · rw [pool_grant]
    exact h.kept.take hfree hport hqueue
  · exact (List.length_set ..).trans h.size
  · change j ∈ m.port_queue ↔ _
    rw [h.waiting j, grant_frame]
    by_cases hj : j = i <;> simp [hj, hi]
  all_goals
    rw [grant_frame]
    by_cases hj : j = i
  · simp [hj]
  · simpa [hj] using h.holding j
  · simp [hj]
  · simpa [hj] using h.flag j
  · simpa [hj] using h.asked i
  · simpa [hj] using h.asked j

variable {Wait : Bool → ℕ → List ℕ → List ℕ}

theorem Ported.lockPort (hWait : ∀ front i queue, (Wait front i queue).Perm (i :: queue))
    (h : Ported m) {i : ℕ} (hi : (m.frame i).stage = .called) :
    ∃ m', m.LockPort Wait i = some m' ∧ Ported m' := by
  by_cases hfull : m.num_ports ≤ m.num_locked_ports
  · have hnot : ¬m.isInQueue i := by
      rintro (hmem | hs)
      · rw [h.waiting i, hi] at hmem
        cases hmem
      · rw [hi] at hs
        cases hs
    exact ⟨_, by rw [Module.LockPort, if_pos hfull, if_neg hnot], h.wait hi hfull (hWait _ _ _)⟩
  · have hqueue : m.port_queue = [] := by
      by_contra hne
      have hused : m.num_locked_ports = m.ports.length := h.kept.busy hne
      have hsize := h.size
      omega
    have hcount : m.ports.countP Option.isSome < m.ports.length := by
      have hcounted : m.num_locked_ports = m.ports.countP Option.isSome := h.kept.counted
      have hsize := h.size
      omega
    cases hfind : m.ports.findIdx? (·.isNone) with
    | none =>
      -- every port is locked, against the count
      rw [List.findIdx?_eq_none_iff] at hfind
      have hall : m.ports.countP Option.isSome = m.ports.length :=
        List.countP_eq_length.mpr fun x hx => by simpa using hfind x hx
      omega
    | some p =>
      obtain ⟨hlt, hnone, -⟩ := List.findIdx?_eq_some_iff_getElem.mp hfind
      have hfree : m.ports[p]? = some none := by
        rw [List.getElem?_eq_getElem hlt, Option.isNone_iff_eq_none.mp hnone]
      refine ⟨m.grant p i, ?_, h.grant hi hfree hqueue⟩
      rw [Module.LockPort, if_neg hfull, hfind, Option.map_some]

/-! The events of the chains. -/

theorem Ported.conflict (h : Ported m) {i p : ℕ} (hport : (m.frame i).port = some p) {s : Stage}
    (hs : s ≠ .waiting ∧ s ≠ .port ∧ s ≠ .action) :
    ∃ m', m.conflict p i s = some m' ∧ Ported m' := by
  obtain ⟨m', hrelease, hm'⟩ := h.release hport hs
  exact ⟨_, by rw [Module.conflict, hrelease, Option.map_some], hm'.stats _⟩

theorem Ported.entered (h : Ported m) {i : ℕ} (hi : (m.frame i).stage = .port) (hit : Bool) :
    Ported (m.put i { m.frame i with hit := hit, port_locked := true }) := by
  have hport : (m.frame i).port.isSome = true := (h.holding i).mpr (Or.inl hi)
  exact h.put rfl Iff.rfl (h.holding i) (fun _ => hport) (h.asked i)

theorem Ported.acts (h : Ported m) {i : ℕ} (hi : (m.frame i).stage = .port) :
    Ported (m.setStage i .action) := by
  have hport : (m.frame i).port.isSome = true := (h.holding i).mpr (Or.inl hi)
  exact h.put rfl (by simp [hi]) (by simpa using hport) (h.flag i) (h.asked i)

theorem Ported.updateStats (h : Ported m) {i : ℕ} (hi : (m.frame i).stage = .port)
    (hhit : (m.frame i).lookup.request_direction = .DownUp → (m.frame i).hit = true) :
    ∃ m', (m.UpdateStats i).map (·.setStage i .action) = some m' ∧ Ported m' := by
  obtain ⟨c, retry, hlookup⟩ := h.asked i
  have hsome : (m.stats.UpdateStats m.type (m.frame i).lookup (m.frame i).hit).isSome = true := by
    rw [hlookup] at hhit ⊢
    exact updateStats_isSome _ _ _ _ _ hhit
  obtain ⟨stats, hstats⟩ := Option.isSome_iff_exists.mp hsome
  refine ⟨Module.setStage { m with stats := stats } i .action, ?_, (h.stats stats).acts hi⟩
  rw [Module.UpdateStats, hstats, Option.map_some, Option.map_some]

theorem Ported.find_and_lock_port (h : Ported m) {i p : ℕ} (hi : (m.frame i).stage = .port)
    (hport : (m.frame i).port = some p) (hit locked : Bool) :
    ∃ m', m.find_and_lock_port p i hit locked = some m' ∧ Ported m' := by
  have hentered := (h.stats (m.stats.incAccesses (m.frame i).lookup.retry)).entered hi hit
  have hport' : (((m.incAccesses i).put i
      { (m.incAccesses i).frame i with hit := hit, port_locked := true }).frame i).port =
      some p := by
    rw [put_frame, if_pos rfl]
    exact hport
  simp only [Module.find_and_lock_port]
  split_ifs with hmiss hblock hwait
  · exact hentered.release hport' (by decide)
  · exact hentered.conflict hport' (by decide)
  · exact hentered.conflict hport' (by decide)
  · refine hentered.updateStats (by simpa using hi) fun hdir => ?_
    have hhit : hit = true := by
      by_contra hno
      exact hmiss ⟨by simpa using hno, hdir⟩
    simp [hhit]

theorem lookup_direction (c : Caller) (retry : Bool)
    (hchain : (c.lookup retry).chain ≠ .find_and_lock) :
    (c.lookup retry).request_direction ≠ .DownUp := by
  cases c with
  | local_load | local_store | lmstore_load | lmstore_store => simp [Caller.lookup]
  | _ => simp [Caller.lookup] at hchain

theorem Ported.not_downUp (h : Ported m) {i : ℕ}
    (hchain : (m.frame i).lookup.chain ≠ .find_and_lock) :
    (m.frame i).lookup.request_direction ≠ .DownUp := by
  obtain ⟨c, retry, hlookup⟩ := h.asked i
  rw [hlookup] at hchain ⊢
  exact lookup_direction c retry hchain

theorem Ported.local_find_and_lock_port (h : Ported m) {i : ℕ} (hi : (m.frame i).stage = .port)
    (hchain : (m.frame i).lookup.chain = .local_find_and_lock) :
    ∃ m', m.local_find_and_lock_port i = some m' ∧ Ported m' := by
  have hentered := h.entered hi (m.frame i).hit
  refine (hentered.stats _).updateStats ?_ fun hdir => ?_
  · simpa using hi
  · simp only [put_frame, if_true] at hdir
    exact absurd hdir (h.not_downUp (by simp [hchain]))

theorem Ported.lmstore_find_and_lock_port (h : Ported m) {i : ℕ}
    (hi : (m.frame i).stage = .port)
    (hchain : (m.frame i).lookup.chain = .lmstore_find_and_lock) (hit : Bool) :
    ∃ m', m.lmstore_find_and_lock_port i hit = some m' ∧ Ported m' := by
  have hentered := h.entered hi hit
  simp only [Module.lmstore_find_and_lock_port]
  split_ifs with hcounted
  · refine (hentered.stats _).updateStats ?_ fun hdir => ?_
    · simpa using hi
    · simp only [put_frame, if_true] at hdir
      exact absurd hdir (h.not_downUp (by simp [hchain]))
  · refine ⟨_, rfl, (hentered.stats _).acts ?_⟩
    simpa using hi

/-- Every event of a chain that is at it runs through, and keeps the invariant. -/
theorem Ported.handle (hWait : ∀ front i queue, (Wait front i queue).Perm (i :: queue))
    (h : Ported m) (a : Action) (ha : (m.frame a.chain).stage = a.stage) :
    ∃ m', handle Wait m a = some m' ∧ Ported m' := by
  cases a with
  | call i c retry =>
    have hi : (m.frame i).stage = .absent := ha
    have hport : (m.frame i).port = none := h.port_none (by simp [hi]) (by simp [hi])
    exact ⟨_, rfl, h.put hport.symm (by simp [hi]) (by simp) (by simp) ⟨c, retry, rfl⟩⟩
  | find_and_lock i => exact h.lockPort hWait ha
  | find_and_lock_port i hit locked =>
    have hi : (m.frame i).stage = .port := ha
    obtain ⟨p, hport⟩ := Option.isSome_iff_exists.mp ((h.holding i).mpr (Or.inl hi))
    simp only [ModulePorts.handle, hport, Option.bind_some]
    cases hchain : (m.frame i).lookup.chain with
    | find_and_lock => exact h.find_and_lock_port hi hport hit locked
    | local_find_and_lock => exact h.local_find_and_lock_port hi hchain
    | lmstore_find_and_lock => exact h.lmstore_find_and_lock_port hi hchain hit
  | find_and_lock_action i =>
    have hi : (m.frame i).stage = .action := ha
    obtain ⟨p, hport⟩ := Option.isSome_iff_exists.mp ((h.holding i).mpr (Or.inr hi))
    simp only [ModulePorts.handle, hport, Option.bind_some]
    exact h.release hport (by decide)
  | find_and_lock_finish i =>
    have hi : (m.frame i).stage = .finish := ha
    have hport : (m.frame i).port = none := h.port_none (by simp [hi]) (by simp [hi])
    refine ⟨_, rfl, h.put rfl (by simp [hi]) (by simp [hport]) (h.flag i) (h.asked i)⟩
  | wakeup i =>
    have hi : (m.frame i).stage = .suspended := ha
    have hport : (m.frame i).port = none := h.port_none (by simp [hi]) (by simp [hi])
    refine ⟨_, rfl, h.put rfl (by simp [hi]) (by simp [hport]) (h.flag i) (h.asked i)⟩

theorem ported_next (hWait : ∀ front i queue, (Wait front i queue).Perm (i :: queue))
    {a : Action} {m' : Module} (h : Ported m) (hnext : next Wait m a = some m') : Ported m' := by
  unfold next at hnext
  split_ifs at hnext with ha
  obtain ⟨m₁, hhandle, hm₁⟩ := h.handle hWait a ha
  obtain rfl := Option.some.inj (hhandle.symm.trans hnext)
  exact hm₁

theorem ported_new (type : ModuleType) (n : ℕ) : Ported (Module.new type n) where
  kept := by
    refine ⟨⟨?_, fun x p => ?_, List.nodup_nil, by simp [pool, Module.new], fun x => .nil⟩, ?_⟩
    · change 0 = (List.replicate n none).countP Option.isSome
      simp [List.countP_replicate]
    · change (List.replicate n none)[p]? = some (some x) ↔ none = some p
      rw [List.getElem?_replicate]
      split_ifs <;> simp
    · exact fun hne => absurd rfl hne
  size := List.length_replicate
  waiting i := by simp [Module.new]
  holding i := by simp [Module.new]
  flag i := by simp [Module.new]
  asked i := ⟨.message, false, rfl⟩

/-- How the ports of a module, its frames and its port queue belong together. -/
structure PortsAgree (m : Module) : Prop where
  counted : m.num_locked_ports = m.ports.countP Option.isSome
  bounded : m.num_locked_ports ≤ m.num_ports
  inverse : ∀ p i, m.ports[p]? = some (some i) ↔ (m.frame i).port = some p
  full : m.port_queue ≠ [] → m.num_locked_ports = m.num_ports ∧ none ∉ m.ports
  /-- Each chain unlocks the port it locked once before it locks one again. -/
  inTurn : ∀ i, InTurn i m.log (m.frame i).port
  released : ∀ i, (m.frame i).stage = .returned ∨ (m.frame i).stage = .suspended →
    (m.frame i).port = none

theorem Ported.portsAgree (h : Ported m) : PortsAgree m where
  counted := h.kept.counted
  bounded := h.kept.used_le.trans_eq h.size
  inverse p i := h.kept.inverse i p
  full hne := by
    have hused : m.num_locked_ports = m.ports.length := h.kept.busy hne
    refine ⟨hused.trans h.size, fun hmem => ?_⟩
    have hcounted : m.num_locked_ports = m.ports.countP Option.isSome := h.kept.counted
    have hall := List.countP_eq_length.mp (hcounted.symm.trans hused) none hmem
    cases hall
  inTurn := h.kept.turns
  released i hi := by
    rcases hi with hi | hi <;> exact h.port_none (by simp [hi]) (by simp [hi])

/-- Throughout every run of find-and-lock chains on a module the ports agree, and no event of a
chain fails. -/
theorem portsAgree_run (hWait : ∀ front i queue, (Wait front i queue).Perm (i :: queue))
    (type : ModuleType) (num_ports : ℕ) {run : List (Action × Module)}
    (hrun : IsRun (fun m a m' => next Wait m a = some m') (Module.new type num_ports) run) :
    ∀ m ∈ states (Module.new type num_ports) run, PortsAgree m ∧
      ∀ a : Action, (m.frame a.chain).stage = a.stage → (next Wait m a).isSome = true := by
  have hall : ∀ m ∈ states (Module.new type num_ports) run, Ported m :=
    invariant_all (I := Ported) (fun _ _ _ => ported_next hWait) hrun
      (ported_new type num_ports)
  intro m hm
  refine ⟨(hall m hm).portsAgree, fun a ha => ?_⟩
  obtain ⟨m', hhandle, -⟩ := (hall m hm).handle hWait a ha
  rw [next, if_pos ha, hhandle]
  rfl

/-- A queue that takes events at its tail, or at its head. -/
def inOrder (front : Bool) (i : ℕ) (queue : List ℕ) : List ℕ :=
  if front then i :: queue else queue ++ [i]

theorem inOrder_perm (front : Bool) (i : ℕ) (queue : List ℕ) :
    (inOrder front i queue).Perm (i :: queue) := by
  cases front
  · exact List.perm_append_singleton i queue
  · exact List.Perm.refl _

/-- A load, a store and a probe want the only port. The load has to wait for its entry, the probe
overtakes the store and does not find its block. -/
def contention : List Action :=
  [Action.call 0 .load false, Action.find_and_lock 0, Action.call 1 .store false,
    Action.find_and_lock 1, Action.call 2 (.write_request .DownUp) false,
    Action.find_and_lock 2, Action.find_and_lock_port 0 false true,
    Action.find_and_lock_port 2 false false, Action.find_and_lock_port 1 true false,
    Action.wakeup 0, Action.find_and_lock 0, Action.find_and_lock_action 1,
    Action.find_and_lock_finish 1, Action.find_and_lock_port 0 false false,
    Action.find_and_lock_action 0, Action.find_and_lock_finish 0]

theorem portsAgree_contention :
    (trace (next inOrder) (Module.new .Cache 1) contention).length = contention.length ∧
      ∀ m ∈ states (Module.new .Cache 1) (trace (next inOrder) (Module.new .Cache 1) contention),
        PortsAgree m ∧ ∀ a : Action, (m.frame a.chain).stage = a.stage →
          (next inOrder m a).isSome = true :=
  ⟨by decide, portsAgree_run inOrder_perm .Cache 1 (isRun_trace _ _ _)⟩

end MMLMStore.ModulePorts
