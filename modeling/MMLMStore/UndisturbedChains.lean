import MMLMStore.CacheChains
import MMLMStore.ModuleHierarchy

/-!
# Chains that nothing disturbs

A chain of the cache hierarchy that finds no older access, no locked entry and no busy network, and
whose called chains return without an error. It runs to its end and calls the chains that the
hierarchy of modules runs for it, in that order.
-/
namespace MMLMStore.UndisturbedChains
open AccessList (ModuleType)
open CacheChains
open CacheReplacement (BlockState)
open LockLog
open ModuleHierarchy (Hierarchy Copies makeRoom)

/-- What the events of such a chain learn; each of them happens once, up to the replies to the
requests that one event has sent. -/
structure Undisturbed (ans : Event → Answer) : Prop where
  older : ∀ e, (ans e).older = false
  locked : ∀ e, (ans e).locked = false
  sent : ∀ e, (ans e).sent = true
  error : ∀ e, (ans e).error = false
  /-- A lookup hits only valid blocks. -/
  valid : (ans .find_and_lock_port).hit = true → (ans .find_and_lock_port).state ≠ .BlockInvalid

/-- The chain runs to its end and calls these chains. -/
inductive Calls (ans : Event → Answer) : Access → List Chain → Prop
  | returned {a : Access} (h : a.event = .returned) : Calls ans a []
  | step {a b : Access} {l : List Chain} (h : next a (ans a.event) = some b)
      (hcalls : Calls ans b l) : Calls ans a (b.called.toList.map Prod.fst ++ l)

/-- Find-and-lock gives up a block. -/
def Evicts (ans : Event → Answer) : Prop :=
  (ans .find_and_lock_port).hit = false ∧ (ans .find_and_lock_port).state ≠ .BlockInvalid

instance (ans : Event → Answer) : Decidable (Evicts ans) := inferInstanceAs (Decidable (_ ∧ _))

def evictions (ans : Event → Answer) : List Chain := if Evicts ans then [.evict] else []

/-- The state that find-and-lock leaves in the frame of its caller. -/
def foundState (ans : Event → Answer) (type : ModuleType) : BlockState :=
  let state := if Evicts ans then (ans .find_and_lock_finish).state
    else (ans .find_and_lock_port).state
  if type = .MainMemory ∧ state = .BlockInvalid then .BlockExclusive else state

variable {ans : Event → Answer} {a b : Access} {l : List Chain}

theorem evictions_of_hit (h : (ans .find_and_lock_port).hit = true) : evictions ans = [] := by
  simp [evictions, Evicts, h]

theorem foundState_of_hit (hans : Undisturbed ans) (h : (ans .find_and_lock_port).hit = true)
    {type : ModuleType} : foundState ans type = (ans .find_and_lock_port).state := by
  simp [foundState, Evicts, h, hans.valid h]

theorem Calls.unique {l' : List Chain} (h : Calls ans a l) (h' : Calls ans a l') : l = l' := by
  induction h generalizing l' with
  | returned hevent =>
    cases h' with
    | returned => rfl
    | step hnext => simp [next, hevent, handler] at hnext
  | step hnext hcalls ih =>
    cases h' with
    | returned hevent => simp [next, hevent, handler] at hnext
    | step hnext' hcalls' =>
      cases Option.some.inj (hnext.symm.trans hnext')
      rw [ih hcalls']

theorem Calls.next {e : Event} (he : a.event = e) (h : CacheChains.next a (ans e) = some b)
    (hcalled : b.called = none) (hcalls : Calls ans b l) : Calls ans a l := by
  subst he
  have hstep := Calls.step h hcalls
  rwa [hcalled] at hstep

theorem Calls.call {e : Event} {c : Chain} {witness : Bool} (he : a.event = e)
    (h : CacheChains.next a (ans e) = some b) (hcalled : b.called = some (c, witness))
    (hcalls : Calls ans b l) : Calls ans a (c :: l) := by
  subst he
  have hstep := Calls.step h hcalls
  rwa [hcalled] at hstep

structure Between (a : Access) (e : Event) : Prop where
  event : a.event = e
  called : a.called = none
  error : a.frame.error = false

/-- What is left of the caller's frame after find-and-lock has returned. -/
structure Locked (ans : Event → Answer) (a b : Access) (e : Event) : Prop where
  between : Between b e
  state : b.frame.state = foundState ans a.lock_module_type
  block_not_found : b.frame.block_not_found = a.frame.block_not_found
  request_direction : b.frame.request_direction = a.frame.request_direction
  module_type : b.module_type = a.module_type

/-- The frame of find-and-lock before and after the lookup. -/
structure Looking (a b : Access) (e : Event) (direction : RequestDirection) : Prop where
  called : b.called = none
  error : b.frame.error = false
  lock_error : b.lock_frame.error = false
  request_direction : b.lock_frame.request_direction = direction
  return_event : b.lock_frame.return_event = e
  frame : b.frame = { a.frame with error := false }
  module_type : b.module_type = a.module_type
  lock_module_type : b.lock_module_type = a.lock_module_type

/-- The handlers by chain. -/
def handle : Chain → Access → Answer → Option Access
  | .load => EventLoadHandler
  | .store => EventStoreHandler
  | .nc_store => EventNCStoreHandler
  | .find_and_lock => EventFindAndLockHandler
  | .evict => EventEvictHandler
  | .write_request => EventWriteRequestHandler
  | .read_request => EventReadRequestHandler
  | .message => EventMessageHandler
  | .invalidate => fun _ _ => none

theorem next_eq {c : Chain} (h : handler a.event = some c) (x : Answer) :
    next a x = handle c (a.resume x.error) x := by
  unfold next
  rw [h]
  cases c <;> rfl

theorem next_eq_of_called {c : Chain} (h : handler a.event = some c) (hcalled : a.called = none)
    (x : Answer) : next a x = handle c a x := by
  rw [next_eq h, resume_none hcalled]

/-- The last event of find-and-lock, `b` being the chain after the return of an eviction. -/
theorem calls_finish (direction : RequestDirection) {a₃ : Access} {e : Event}
    (hevent : a₃.event = .find_and_lock_finish)
    (hb : a₃.resume (ans .find_and_lock_finish).error = b) (hlooking : Looking a b e direction)
    (hstate : (if b.lock_frame.eviction then (ans .find_and_lock_finish).state
      else b.lock_frame.state) = if Evicts ans then (ans .find_and_lock_finish).state
      else (ans .find_and_lock_port).state)
    (hnext : ∀ b, Locked ans a b e → Calls ans b l) : Calls ans a₃ l := by
  have hevent' : b.event = .find_and_lock_finish := by rw [← hb, resume_event, hevent]
  have h : next a₃ (ans .find_and_lock_finish) =
      some (EventFindAndLockFinish b (ans .find_and_lock_finish)) := by
    rw [next_eq (c := .find_and_lock) (by rw [hevent]; rfl), hb]
    simp only [handle, EventFindAndLockHandler, hevent']
  unfold EventFindAndLockFinish at h
  rw [hlooking.lock_error, if_neg Bool.false_ne_true] at h
  refine Calls.next hevent h hlooking.called (hnext _ ?_)
  constructor
  · exact ⟨hlooking.return_event, hlooking.called, rfl⟩
  · dsimp only
    rw [hstate, hlooking.lock_module_type]
    rfl
  · simp [hlooking.frame]
  · simp [hlooking.frame]
  · exact hlooking.module_type

theorem looking_findAndLock (ans : Event → Answer) {e : Event} (h : a.called = none) (direction : RequestDirection)
    (blocking write witness : Bool) :
    ∃ b, next (a.findAndLock direction blocking write witness e) (ans .find_and_lock) = some b ∧
      b.event = .find_and_lock_port ∧ Looking a b e direction ∧
      b.lock_frame.eviction = false := by
  rw [next_eq_of_called (a := a.findAndLock direction blocking write witness e)
    (c := .find_and_lock) rfl h]
  exact ⟨_, rfl, rfl, ⟨h, rfl, rfl, rfl, rfl, rfl, rfl, rfl⟩, rfl⟩

/-- The port event, which takes the entry. -/
theorem locked_port (hans : Undisturbed ans) {e : Event} {direction : RequestDirection}
    (hevent : a.event = .find_and_lock_port) {a₀ : Access} (hlooking : Looking a₀ a e direction)
    (heviction : a.lock_frame.eviction = false)
    (hup : direction ≠ .DownUp ∨ (ans .find_and_lock_port).hit = true) :
    ∃ b, next a (ans .find_and_lock_port) = some b ∧ b.event = .find_and_lock_action ∧
      Looking a₀ b e direction ∧ b.lock_frame.eviction = false ∧
      b.lock_frame.hit = (ans .find_and_lock_port).hit ∧
      b.lock_frame.state = (ans .find_and_lock_port).state := by
  have hmiss : ¬((ans .find_and_lock_port).hit = false ∧
      a.lock_frame.request_direction = .DownUp) := by
    rw [hlooking.request_direction]
    rcases hup with hup | hup <;> simp [hup]
  rw [next_eq_of_called (c := .find_and_lock) (by rw [hevent]; rfl) hlooking.called]
  simp only [handle, EventFindAndLockHandler, hevent]
  unfold EventFindAndLockPort
  obtain ⟨n, hn⟩ := increment_eq a
    (a.lock_frame.write && (ans .find_and_lock_port).hit && a.lock_frame.witness)
  simp only [hn, hmiss, if_false, hans.locked, Bool.false_eq_true]
  exact ⟨_, rfl, rfl, ⟨hlooking.called, hlooking.error, hlooking.lock_error,
    hlooking.request_direction, hlooking.return_event, hlooking.frame, hlooking.module_type,
    hlooking.lock_module_type⟩, heviction, rfl, rfl⟩

theorem calls_findAndLock (hans : Undisturbed ans) {e : Event} (h : a.called = none)
    {direction : RequestDirection} {blocking write witness : Bool}
    (hup : direction ≠ .DownUp ∨ (ans .find_and_lock_port).hit = true)
    (hnext : ∀ b, Locked ans a b e → Calls ans b l) :
    Calls ans (a.findAndLock direction blocking write witness e) (evictions ans ++ l) := by
  obtain ⟨a₁, h₁, hevent₁, hlooking₁, heviction₁⟩ := looking_findAndLock ans (e := e) h
    direction blocking write witness
  obtain ⟨a₂, h₂, hevent₂, hlooking₂, heviction₂, hhit, hstate⟩ :=
    locked_port hans hevent₁ hlooking₁ heviction₁ hup
  have herror : (ans .find_and_lock_finish).error = false := hans.error _
  have hgoes : a₂.lock_frame.hit = false ∧ a₂.lock_frame.state ≠ .BlockInvalid ↔ Evicts ans := by
    rw [hhit, hstate]
    rfl
  refine Calls.next rfl h₁ hlooking₁.called (Calls.next hevent₁ h₂ hlooking₂.called ?_)
  by_cases hevicts : Evicts ans
  · have h₃ : next a₂ (ans .find_and_lock_action) = some
        ({ a₂ with lock_frame := { a₂.lock_frame with eviction := true } }.Call .evict false
          .find_and_lock_finish) := by
      rw [next_eq_of_called (c := .find_and_lock) (by rw [hevent₂]; rfl) hlooking₂.called]
      simp only [handle, EventFindAndLockHandler, hevent₂]
      rw [if_pos (hgoes.mpr hevicts)]
    rw [evictions, if_pos hevicts, List.singleton_append]
    refine Calls.call hevent₂ h₃ rfl (calls_finish direction rfl rfl ?_ ?_ hnext)
    · rw [herror]
      exact ⟨rfl, hlooking₂.error, rfl, hlooking₂.request_direction, hlooking₂.return_event,
        hlooking₂.frame, hlooking₂.module_type, hlooking₂.lock_module_type⟩
    · rw [if_pos hevicts]
      rfl
  · have h₃ : next a₂ (ans .find_and_lock_action) = some (a₂.Next .find_and_lock_finish) := by
      rw [next_eq_of_called (c := .find_and_lock) (by rw [hevent₂]; rfl) hlooking₂.called]
      simp only [handle, EventFindAndLockHandler, hevent₂]
      rw [if_neg (mt hgoes.mp hevicts)]
    rw [evictions, if_neg hevicts, List.nil_append]
    refine Calls.next hevent₂ h₃ hlooking₂.called
      (calls_finish direction rfl
        (resume_none (a := a₂.Next .find_and_lock_finish) hlooking₂.called _) ?_ ?_ hnext)
    · exact ⟨hlooking₂.called, hlooking₂.error, hlooking₂.lock_error, hlooking₂.request_direction,
        hlooking₂.return_event, hlooking₂.frame, hlooking₂.module_type,
        hlooking₂.lock_module_type⟩
    · rw [if_neg hevicts]
      change (if a₂.lock_frame.eviction then _ else a₂.lock_frame.state) = _
      rw [heviction₂, hstate, if_neg Bool.false_ne_true]

/-- A request for a block that the module has. -/
theorem calls_hit (hans : Undisturbed ans) {e : Event} (h : a.called = none)
    {direction : RequestDirection} {blocking write witness : Bool}
    (hhit : (ans .find_and_lock_port).hit = true)
    (hnext : ∀ b, Locked ans a b e → b.frame.state ≠ .BlockInvalid → Calls ans b l) :
    Calls ans (a.findAndLock direction blocking write witness e) l := by
  have hcalls : Calls ans (a.findAndLock direction blocking write witness e)
      (evictions ans ++ l) := by
    refine calls_findAndLock hans h (Or.inr hhit) fun b hb => hnext b hb ?_
    rw [hb.state, foundState_of_hit hans hhit]
    exact hans.valid hhit
  rwa [evictions_of_hit hhit] at hcalls

/-- A request from below for a block that the module does not have. -/
theorem calls_missing {e : Event} (h : a.called = none) {blocking write witness : Bool}
    (hhit : (ans .find_and_lock_port).hit = false)
    (hnext : ∀ b, Between b e → b.frame.block_not_found = true → Calls ans b l) :
    Calls ans (a.findAndLock .DownUp blocking write witness e) l := by
  obtain ⟨a₁, h₁, hevent₁, hlooking₁, -⟩ := looking_findAndLock ans (e := e) h .DownUp
    blocking write witness
  obtain ⟨b, h₂, hb, hfound⟩ : ∃ b, next a₁ (ans .find_and_lock_port) = some b ∧
      Between b e ∧ b.frame.block_not_found = true := by
    rw [next_eq_of_called (c := .find_and_lock) (by rw [hevent₁]; rfl) hlooking₁.called]
    simp only [handle, EventFindAndLockHandler, hevent₁]
    unfold EventFindAndLockPort
    obtain ⟨n, hn⟩ := increment_eq a₁
      (a₁.lock_frame.write && (ans .find_and_lock_port).hit && a₁.lock_frame.witness)
    have hup : (ans .find_and_lock_port).hit = false ∧
        a₁.lock_frame.request_direction = .DownUp := ⟨hhit, hlooking₁.request_direction⟩
    simp only [hn]
    rw [if_pos hup]
    exact ⟨_, rfl, ⟨hlooking₁.return_event, hlooking₁.called, hlooking₁.error⟩, rfl⟩
  exact Calls.next rfl h₁ hlooking₁.called (Calls.next hevent₁ h₂ hb.called (hnext b hb hfound))

theorem Calls.between {e : Event} {c : Chain} (h : Between a e) (he : handler e = some c)
    (hb : handle c a (ans e) = some b) (hcalled : b.called = none) (hcalls : Calls ans b l) :
    Calls ans a l :=
  Calls.next h.event ((next_eq_of_called (by rw [h.event, he]) h.called _).trans hb) hcalled hcalls

structure Resumed (a b : Access) (e : Event) : Prop where
  between : Between b e
  frame : b.frame = a.frame
  module_type : b.module_type = a.module_type

theorem resume_error (h : a.frame.error = false) : (a.resume false).frame.error = false := by
  unfold Access.resume
  split
  · exact h
  · exact h
  · rename_i witness _ hcalled
    obtain ⟨n, hn⟩ := increment_eq { a with called := none } witness
    dsimp only
    rw [hn]
    split_ifs
    · exact h
    · rfl

theorem resumed (h : a.frame.error = false) : Resumed a (a.resume false) a.event := by
  have herror := resume_error h
  obtain ⟨frameError, lockError, n, hresume⟩ := resume_eq a false
  rw [hresume] at herror ⊢
  obtain rfl : frameError = false := herror
  refine ⟨⟨rfl, rfl, rfl⟩, ?_, rfl⟩
  dsimp only
  rw [← h]

theorem next_resume (a : Access) (x : Answer) : next (a.resume x.error) x = next a x := by
  unfold next
  rw [resume_event, resume_none (resume_called a x.error)]

/-- A chain that waits for another one goes on when that one has returned. -/
theorem Calls.resume (hans : Undisturbed ans) (h : a.frame.error = false)
    (hevent : a.event ≠ .returned) (hcalls : ∀ b, Resumed a b a.event → Calls ans b l) :
    Calls ans a l := by
  have hresumed := hcalls _ (resumed h)
  cases hresumed with
  | returned hreturned => exact absurd (by rwa [resume_event] at hreturned) hevent
  | step hnext hrest =>
    rw [resume_event, ← hans.error a.event, next_resume] at hnext
    exact Calls.step hnext hrest

/-- An event that calls a chain, and what follows the return of that. -/
theorem Calls.calling (hans : Undisturbed ans) {e e' : Event} {c d : Chain} {witness : Bool}
    {a' : Access} (h : Between a e) (he : handler e = some c)
    (hb : handle c a (ans e) = some (a'.Call d witness e')) (herror : a'.frame.error = false)
    (hevent : e' ≠ .returned)
    (hcalls : ∀ b, Between b e' → b.frame = a'.frame → b.module_type = a'.module_type →
      Calls ans b l) : Calls ans a (d :: l) := by
  refine Calls.call h.event ((next_eq_of_called (by rw [h.event, he]) h.called _).trans hb) rfl ?_
  exact Calls.resume hans herror hevent fun b hb => hcalls b hb.between hb.frame hb.module_type

theorem Calls.last {e : Event} {c : Chain} (h : Between a e) (he : handler e = some c)
    (hb : handle c a (ans e) = some b) (hcalled : b.called = none) (hevent : b.event = .returned) :
    Calls ans a [] :=
  Calls.between h he hb hcalled (Calls.returned hevent)

theorem increment_called (a : Access) (witness : Bool) :
    (a.increment witness).called = a.called := by
  cases witness <;> rfl

/-! Loads and stores. -/

theorem calls_load_unlock (h : Between a .load_unlock) : Calls ans a [] := by
  have hfinish : Between (a.UnlockEntry.Next .load_finish) .load_finish := ⟨rfl, h.called, h.error⟩
  refine Calls.between h rfl (b := a.UnlockEntry.Next .load_finish) ?_ h.called ?_
  · simp only [handle, EventLoadHandler, h.event]
  · exact Calls.last hfinish rfl rfl ((increment_called _ _).trans h.called) rfl

theorem calls_load_action (hans : Undisturbed ans) (h : Between a .load_action) :
    Calls ans a (if a.frame.state = .BlockInvalid then [.read_request] else []) := by
  by_cases hstate : a.frame.state = .BlockInvalid
  · have hcall : handle .load a (ans .load_action) =
        some (a.Call .read_request false .load_miss) := by
      simp [handle, EventLoadHandler, h.event, h.error, hstate]
    rw [if_pos hstate]
    refine Calls.calling hans h rfl hcall h.error (by simp) fun b hb _ _ => ?_
    refine Calls.between hb rfl (b := b.Next .load_unlock) ?_ hb.called
      (calls_load_unlock ⟨rfl, hb.called, hb.error⟩)
    simp [handle, EventLoadHandler, hb.event, hb.error]
  · rw [if_neg hstate]
    refine Calls.between h rfl (b := a.Next .load_unlock) ?_ h.called
      (calls_load_unlock ⟨rfl, h.called, h.error⟩)
    simp [handle, EventLoadHandler, h.event, h.error, hstate]

theorem calls_load (hans : Undisturbed ans) (h : Between a .load) :
    Calls ans a (evictions ans ++
      if foundState ans a.lock_module_type = .BlockInvalid then [.read_request] else []) := by
  have hlock : Between (a.Next .load_lock) .load_lock := ⟨rfl, h.called, h.error⟩
  refine Calls.between h rfl (b := a.Next .load_lock) ?_ h.called
    (Calls.between hlock rfl (b := (a.Next .load_lock).findAndLock .UpDown true false false
      .load_action) ?_ h.called ?_)
  · simp [handle, EventLoadHandler, h.event, hans.older]
  · simp [handle, EventLoadHandler, hlock.event, hans.older]
  · refine calls_findAndLock hans hlock.called (Or.inl (by simp)) fun b hb => ?_
    have haction := calls_load_action hans hb.between
    rwa [hb.state] at haction

theorem calls_store_unlock (h : Between a .store_unlock) : Calls ans a [] := by
  have hfinish : Between (a.UnlockEntry.Next .store_finish) .store_finish :=
    ⟨rfl, h.called, h.error⟩
  refine Calls.between h rfl (b := a.UnlockEntry.Next .store_finish) ?_ h.called ?_
  · simp [handle, EventStoreHandler, h.event, h.error]
  · exact Calls.last hfinish rfl rfl h.called rfl

theorem calls_store_action (hans : Undisturbed ans) (h : Between a .store_action) :
    Calls ans a (if a.frame.state = .BlockModified ∨ a.frame.state = .BlockExclusive then []
      else [.write_request]) := by
  by_cases hstate : a.frame.state = .BlockModified ∨ a.frame.state = .BlockExclusive
  · rw [if_pos hstate]
    refine Calls.between h rfl (b := a.Next .store_unlock) ?_ h.called
      (calls_store_unlock ⟨rfl, h.called, h.error⟩)
    simp [handle, EventStoreHandler, h.event, h.error, hstate]
  · have hcall : handle .store a (ans .store_action) =
        some (a.Call .write_request a.frame.witness .store_unlock) := by
      simp [handle, EventStoreHandler, h.event, h.error, hstate]
    rw [if_neg hstate]
    exact Calls.calling hans h rfl hcall h.error (by simp) fun b hb _ _ => calls_store_unlock hb

theorem calls_store (hans : Undisturbed ans) (h : Between a .store) :
    Calls ans a (evictions ans ++
      if foundState ans a.lock_module_type = .BlockModified ∨
        foundState ans a.lock_module_type = .BlockExclusive then [] else [.write_request]) := by
  have hlock : Between (a.Next .store_lock) .store_lock := ⟨rfl, h.called, h.error⟩
  refine Calls.between h rfl (b := a.Next .store_lock) ?_ h.called
    (Calls.between hlock rfl (b := (a.Next .store_lock).findAndLock .UpDown true true
      a.frame.witness .store_action) ?_ h.called ?_)
  · simp [handle, EventStoreHandler, h.event, hans.older]
  · simp only [handle, EventStoreHandler, hlock.event, hans.older, Bool.false_eq_true, if_false]
    rfl
  · refine calls_findAndLock hans hlock.called (Or.inl (by simp)) fun b hb => ?_
    have haction := calls_store_action hans hb.between
    rwa [hb.state] at haction

/-! Non-coherent stores. -/

def ncRequests (type : ModuleType) (state : BlockState) : List Chain :=
  if type = .MainMemory then [] else match state with
    | .BlockShared | .BlockNonCoherent => []
    | .BlockExclusive => [.message]
    | .BlockModified | .BlockOwned | .BlockInvalid => [.read_request]

theorem calls_nc_store_unlock (h : Between a .nc_store_unlock) : Calls ans a [] := by
  have hfinish : Between (a.UnlockEntry.Next .nc_store_finish) .nc_store_finish :=
    ⟨rfl, h.called, h.error⟩
  refine Calls.between h rfl (b := a.UnlockEntry.Next .nc_store_finish) ?_ h.called ?_
  · simp only [handle, EventNCStoreHandler, h.event]
  · exact Calls.last hfinish rfl rfl ((increment_called _ _).trans h.called) rfl

theorem calls_nc_store_miss (h : Between a .nc_store_miss) : Calls ans a [] := by
  refine Calls.between h rfl (b := a.Next .nc_store_unlock) ?_ h.called
    (calls_nc_store_unlock ⟨rfl, h.called, h.error⟩)
  simp [handle, EventNCStoreHandler, h.event, h.error]

theorem calls_nc_store_action (hans : Undisturbed ans) (h : Between a .nc_store_action) :
    Calls ans a (ncRequests a.module_type a.frame.state) := by
  have hdirect : (a.module_type = .MainMemory ∨ a.frame.state = .BlockShared ∨
      a.frame.state = .BlockNonCoherent) → Calls ans a [] := by
    intro hcase
    refine Calls.between h rfl (b := a.Next .nc_store_unlock) ?_ h.called
      (calls_nc_store_unlock ⟨rfl, h.called, h.error⟩)
    rcases hcase with hcase | hcase | hcase <;>
      simp [handle, EventNCStoreHandler, h.event, h.error, hcase]
  have hcall : ∀ c, handle .nc_store a (ans .nc_store_action) =
      some (a.Call c false .nc_store_miss) → Calls ans a [c] := fun c hc =>
    Calls.calling hans h rfl hc h.error (by simp) fun b hb _ _ => calls_nc_store_miss hb
  unfold ncRequests
  by_cases hmain : a.module_type = .MainMemory
  · rw [if_pos hmain]
    exact hdirect (Or.inl hmain)
  · rw [if_neg hmain]
    cases hstate : a.frame.state with
    | BlockShared => exact hdirect (Or.inr (Or.inl hstate))
    | BlockNonCoherent => exact hdirect (Or.inr (Or.inr hstate))
    | BlockExclusive | BlockModified | BlockOwned | BlockInvalid =>
      apply hcall
      simp [handle, EventNCStoreHandler, h.event, h.error, hmain, hstate]

theorem calls_nc_store_writeback (hans : Undisturbed ans) (h : Between a .nc_store_writeback) :
    Calls ans a ((if a.frame.state = .BlockModified ∨ a.frame.state = .BlockOwned then [.evict]
      else []) ++ ncRequests a.module_type a.frame.state) := by
  by_cases hstate : a.frame.state = .BlockModified ∨ a.frame.state = .BlockOwned
  · have hcall : handle .nc_store a (ans .nc_store_writeback) =
        some (a.Call .evict false .nc_store_action) := by
      simp [handle, EventNCStoreHandler, h.event, h.error, hstate]
    rw [if_pos hstate]
    refine Calls.calling hans h rfl hcall h.error (by simp) fun b hb hframe htype => ?_
    have haction := calls_nc_store_action hans hb
    rwa [hframe, htype] at haction
  · rw [if_neg hstate]
    refine Calls.between h rfl (b := a.Next .nc_store_action) ?_ h.called
      (calls_nc_store_action hans ⟨rfl, h.called, h.error⟩)
    simp [handle, EventNCStoreHandler, h.event, h.error, hstate]

theorem calls_nc_store (hans : Undisturbed ans) (h : Between a .nc_store) :
    Calls ans a (evictions ans ++
      ((if foundState ans a.lock_module_type = .BlockModified ∨
        foundState ans a.lock_module_type = .BlockOwned then [.evict] else []) ++
        ncRequests a.module_type (foundState ans a.lock_module_type))) := by
  have hlock : Between (a.Next .nc_store_lock) .nc_store_lock := ⟨rfl, h.called, h.error⟩
  refine Calls.between h rfl (b := a.Next .nc_store_lock) ?_ h.called
    (Calls.between hlock rfl (b := (a.Next .nc_store_lock).findAndLock .UpDown true false false
      .nc_store_writeback) ?_ h.called ?_)
  · simp [handle, EventNCStoreHandler, h.event, hans.older]
  · simp [handle, EventNCStoreHandler, hlock.event, hans.older]
  · refine calls_findAndLock hans hlock.called (Or.inl (by simp)) fun b hb => ?_
    have hwriteback := calls_nc_store_writeback hans hb.between
    rwa [hb.state, hb.module_type] at hwriteback

/-! Evictions and messages. -/

theorem calls_evict_reply (hans : Undisturbed ans) (h : Between a .evict_reply) :
    Calls ans a [] := by
  have hreceive : Between (a.Next .evict_reply_receive) .evict_reply_receive :=
    ⟨rfl, h.called, h.error⟩
  have hfinish : Between (a.Next .evict_finish) .evict_finish := ⟨rfl, h.called, h.error⟩
  refine Calls.between h rfl (b := a.Next .evict_reply_receive) ?_ h.called
    (Calls.between hreceive rfl (b := a.Next .evict_finish) rfl h.called
      (Calls.last hfinish rfl rfl h.called rfl))
  simp [handle, EventEvictHandler, h.event, hans.sent]

theorem calls_evict_receive (hans : Undisturbed ans) (h : Between a .evict_receive)
    (hhit : (ans .find_and_lock_port).hit = true) : Calls ans a [] := by
  refine Calls.between (b := a.findAndLock .DownUp false true false
    (if a.frame.state = .BlockNonCoherent then .evict_process_noncoherent else .evict_process))
    h rfl ?_ h.called (calls_hit hans h.called hhit fun b hb _ => ?_)
  · simp only [handle, EventEvictHandler, h.event]
  · have hreply : Calls ans (b.UnlockEntry.Next .evict_reply) [] :=
      calls_evict_reply hans ⟨rfl, hb.between.called, hb.between.error⟩
    have hbetween := hb.between
    split_ifs at hbetween with hstate
    · refine Calls.between hbetween rfl (b := b.UnlockEntry.Next .evict_reply) ?_
        hbetween.called hreply
      simp [handle, EventEvictHandler, hbetween.event, hbetween.error]
    · refine Calls.between hbetween rfl (b := b.UnlockEntry.Next .evict_reply) ?_
        hbetween.called hreply
      simp [handle, EventEvictHandler, hbetween.event, hbetween.error]

/-- An eviction finds its block in the module below. -/
theorem calls_evict (hans : Undisturbed ans) (h : Between a .evict)
    (hhit : (ans .find_and_lock_port).hit = true) : Calls ans a [.invalidate] := by
  have hcall : handle .evict a (ans .evict) =
      some ({ a with frame := { a.frame with state := (ans .evict).state } }.Call .invalidate false
        .evict_invalid) := by
    simp [handle, EventEvictHandler, h.event]
  refine Calls.calling hans h rfl hcall h.error (by simp) fun b hb _ _ => ?_
  have hfinish : ∀ b, Between b .evict_finish → Calls ans b [] := fun b hb =>
    Calls.last (b := b.Return) hb rfl (by simp [handle, EventEvictHandler, hb.event]) hb.called rfl
  let b' : Access := { b with frame := { b.frame with state := (ans .evict_invalid).state } }
  by_cases hmain : b.module_type = .MainMemory
  · refine Calls.between hb rfl (b := b'.Next .evict_finish) ?_ hb.called
      (hfinish _ ⟨rfl, hb.called, hb.error⟩)
    simp [handle, EventEvictHandler, hb.event, hmain, b']
  · have haction : Between (b'.Next .evict_action) .evict_action := ⟨rfl, hb.called, hb.error⟩
    refine Calls.between hb rfl (b := b'.Next .evict_action) ?_ hb.called ?_
    · simp [handle, EventEvictHandler, hb.event, hmain, b']
    · by_cases hstate : (ans .evict_invalid).state = .BlockInvalid
      · refine Calls.between haction rfl (b := b'.Next .evict_finish) ?_ hb.called
          (hfinish _ ⟨rfl, hb.called, hb.error⟩)
        simp [handle, EventEvictHandler, Access.Next, b', hstate]
      · refine Calls.between haction rfl (b := b'.Next .evict_receive) ?_ hb.called
          (calls_evict_receive hans ⟨rfl, hb.called, hb.error⟩ hhit)
        simp [handle, EventEvictHandler, Access.Next, b', hstate, hans.sent]

theorem calls_message (hans : Undisturbed ans) (h : Between a .message) :
    Calls ans a (evictions ans) := by
  have hreceive : Between (a.Next .message_receive) .message_receive := ⟨rfl, h.called, h.error⟩
  refine Calls.between h rfl (b := a.Next .message_receive) ?_ h.called
    (Calls.between hreceive rfl (b := (a.Next .message_receive).findAndLock .Invalid false false
      false .message_action) rfl h.called ?_)
  · simp [handle, EventMessageHandler, h.event, hans.sent]
  · rw [← List.append_nil (evictions ans)]
    refine calls_findAndLock hans h.called (Or.inl (by simp)) fun b hb => ?_
    have hreply : Between (b.UnlockEntry.Next .message_reply) .message_reply :=
      ⟨rfl, hb.between.called, hb.between.error⟩
    have hfinish : Between (b.UnlockEntry.Next .message_finish) .message_finish :=
      ⟨rfl, hb.between.called, hb.between.error⟩
    refine Calls.between hb.between rfl (b := b.UnlockEntry.Next .message_reply) ?_
      hb.between.called (Calls.between hreply rfl (b := b.UnlockEntry.Next .message_finish) ?_
        hb.between.called (Calls.last hfinish rfl rfl hb.between.called rfl))
    · simp [handle, EventMessageHandler, hb.between.event, hb.between.error]
    · simp [handle, EventMessageHandler, hans.sent, Access.Next]

/-! Write requests. -/

theorem calls_write_request_reply (hans : Undisturbed ans) (h : Between a .write_request_reply) :
    Calls ans a [] := by
  have hfinish : Between (a.Next .write_request_finish) .write_request_finish :=
    ⟨rfl, h.called, h.error⟩
  refine Calls.between h rfl (b := a.Next .write_request_finish) ?_ h.called
    (Calls.last hfinish rfl rfl ((increment_called _ _).trans h.called) rfl)
  simp [handle, EventWriteRequestHandler, h.event, hans.sent]

theorem calls_write_request_updown (hans : Undisturbed ans)
    (h : Between a .write_request_updown) :
    Calls ans a (if a.frame.state = .BlockModified ∨ a.frame.state = .BlockExclusive then []
      else [.write_request]) := by
  have hfinish : ∀ b, Between b .write_request_updown_finish → Calls ans b [] := by
    intro b hb
    refine Calls.between hb rfl (b := b.UnlockEntry.Next .write_request_reply) ?_ hb.called
      (calls_write_request_reply hans ⟨rfl, hb.called, hb.error⟩)
    simp [handle, EventWriteRequestHandler, hb.event]
  by_cases hstate : a.frame.state = .BlockModified ∨ a.frame.state = .BlockExclusive
  · rw [if_pos hstate]
    refine Calls.between h rfl (b := a.Next .write_request_updown_finish) ?_ h.called
      (hfinish _ ⟨rfl, h.called, h.error⟩)
    simp [handle, EventWriteRequestHandler, h.event, hstate]
  · have hcall : handle .write_request a (ans .write_request_updown) =
        some (a.Call .write_request false .write_request_updown_finish) := by
      simp [handle, EventWriteRequestHandler, h.event, hstate]
    rw [if_neg hstate]
    exact Calls.calling hans h rfl hcall h.error (by simp) fun b hb _ _ => hfinish b hb

theorem calls_write_request_downup (hans : Undisturbed ans) (h : Between a .write_request_downup)
    (hstate : a.frame.state ≠ .BlockInvalid) : Calls ans a [] := by
  have hfinish : Between (a.Next .write_request_downup_finish) .write_request_downup_finish :=
    ⟨rfl, h.called, h.error⟩
  have hreply : Calls ans
      ((a.Next .write_request_downup_finish).UnlockEntry.Next .write_request_reply) [] :=
    calls_write_request_reply hans ⟨rfl, h.called, h.error⟩
  refine Calls.between h rfl (b := a.Next .write_request_downup_finish) ?_ h.called
    (Calls.between hfinish rfl rfl h.called hreply)
  simp [handle, EventWriteRequestHandler, h.event, hstate]

/-- What a write request asks the module below for. -/
def writeRequests (direction : RequestDirection) (state : BlockState) : List Chain :=
  if direction = .UpDown then
    if state = .BlockModified ∨ state = .BlockExclusive then [] else [.write_request]
  else []

theorem calls_write_request_exclusive (hans : Undisturbed ans)
    (h : Between a .write_request_exclusive)
    (hstate : a.frame.request_direction = .UpDown ∨ a.frame.state ≠ .BlockInvalid) :
    Calls ans a (writeRequests a.frame.request_direction a.frame.state) := by
  by_cases hdirection : a.frame.request_direction = .UpDown
  · rw [writeRequests, if_pos hdirection]
    refine Calls.between h rfl (b := a.Next .write_request_updown) ?_ h.called
      (calls_write_request_updown (a := a.Next .write_request_updown) hans
        ⟨rfl, h.called, h.error⟩)
    simp [handle, EventWriteRequestHandler, h.event, hdirection]
  · rw [writeRequests, if_neg hdirection]
    refine Calls.between h rfl (b := a.Next .write_request_downup) ?_ h.called
      (calls_write_request_downup hans ⟨rfl, h.called, h.error⟩
        (hstate.resolve_left hdirection))
    simp [handle, EventWriteRequestHandler, h.event, hdirection]

theorem calls_write_request_action (hans : Undisturbed ans) (h : Between a .write_request_action)
    (hfound : a.frame.block_not_found = false)
    (hstate : a.frame.request_direction = .UpDown ∨ a.frame.state ≠ .BlockInvalid) :
    Calls ans a ((if a.module_type = .LMStore then [] else [.invalidate]) ++
      writeRequests a.frame.request_direction a.frame.state) := by
  by_cases htype : a.module_type = .LMStore
  · rw [if_pos htype]
    refine Calls.between h rfl (b := a.Next .write_request_exclusive) ?_ h.called
      (calls_write_request_exclusive (a := a.Next .write_request_exclusive) hans
        ⟨rfl, h.called, h.error⟩ hstate)
    simp [handle, EventWriteRequestHandler, h.event, h.error, hfound, htype]
  · have hcall : handle .write_request a (ans .write_request_action) =
        some (a.Call .invalidate false .write_request_exclusive) := by
      simp [handle, EventWriteRequestHandler, h.event, h.error, hfound, htype]
    rw [if_neg htype]
    refine Calls.calling hans h rfl hcall h.error (by simp) fun b hb hframe _ => ?_
    have hexclusive := calls_write_request_exclusive hans hb (by rwa [hframe])
    rwa [hframe] at hexclusive

structure Asking (a : Access) (e : Event) (direction : RequestDirection) : Prop where
  between : Between a e
  block_not_found : a.frame.block_not_found = false
  request_direction : a.frame.request_direction = direction

theorem calls_write_request (hans : Undisturbed ans) (h : Asking a .write_request .UpDown) :
    Calls ans a (evictions ans ++ ((if a.module_type = .LMStore then [] else [.invalidate]) ++
      writeRequests .UpDown (foundState ans a.lock_module_type))) := by
  have hreceive : Between (a.Next .write_request_receive) .write_request_receive :=
    ⟨rfl, h.between.called, h.between.error⟩
  refine Calls.between h.between rfl (b := a.Next .write_request_receive) ?_ h.between.called
    (Calls.between hreceive rfl (b := (a.Next .write_request_receive).findAndLock
      a.frame.request_direction (decide (a.frame.request_direction = .DownUp)) true false
      .write_request_action) rfl h.between.called ?_)
  · simp [handle, EventWriteRequestHandler, h.between.event, hans.sent]
  · refine calls_findAndLock hans hreceive.called (Or.inl (by simp [h.request_direction]))
      fun b hb => ?_
    have hdirection : b.frame.request_direction = .UpDown :=
      hb.request_direction.trans h.request_direction
    have haction := calls_write_request_action hans hb.between
      (hb.block_not_found.trans h.block_not_found) (Or.inl hdirection)
    rwa [hdirection, hb.state, hb.module_type] at haction

/-! Read requests. -/

theorem calls_read_request_reply (hans : Undisturbed ans) (h : Between a .read_request_reply) :
    Calls ans a [] := by
  have hfinish : Between (a.Next .read_request_finish) .read_request_finish :=
    ⟨rfl, h.called, h.error⟩
  refine Calls.between h rfl (b := a.Next .read_request_finish) ?_ h.called
    (Calls.last hfinish rfl rfl h.called rfl)
  simp [handle, EventReadRequestHandler, h.event, hans.sent]

/-- The event that waits for the replies happens once for each of them. -/
theorem calls_pendingReply (hans : Undisturbed ans) {e : Event}
    (he : handler e = some .read_request)
    (hhandle : ∀ b, Between b e → handle .read_request b (ans e) = some (pendingReply b)) :
    ∀ n a, Between a e → a.frame.pending = 1 + n → Calls ans a [] := by
  intro n
  induction n with
  | zero =>
    intro a h hpending
    have hreply : pendingReply a =
        ({ a with frame := { a.frame with pending := 0 } } : Access).UnlockEntry.Next
          .read_request_reply := by
      simp [pendingReply, hpending]
    refine Calls.between h he ((hhandle a h).trans (congrArg some hreply)) h.called
      (calls_read_request_reply hans ⟨rfl, h.called, h.error⟩)
  | succ n ih =>
    intro a h hpending
    have hwaits : pendingReply a = { a with frame := { a.frame with pending := 1 + n } } := by
      simp [pendingReply, hpending, ← Nat.add_assoc]
    exact Calls.between h he ((hhandle a h).trans (congrArg some hwaits)) h.called
      (ih _ ⟨h.event, h.called, h.error⟩ rfl)

theorem calls_read_request_updown_finish (hans : Undisturbed ans) {n : ℕ}
    (h : Between a .read_request_updown_finish) (hpending : a.frame.pending = 1 + n) :
    Calls ans a [] := by
  refine calls_pendingReply hans rfl (fun b hb => ?_) n a h hpending
  simp only [handle, EventReadRequestHandler, hb.event]

theorem calls_read_request_updown (hans : Undisturbed ans) (h : Between a .read_request_updown) :
    Calls ans a (if a.frame.state = .BlockInvalid then [.read_request] else []) := by
  by_cases hstate : a.frame.state = .BlockInvalid
  · have hcall : handle .read_request a (ans .read_request_updown) =
        some ({ a with frame := { a.frame with pending := 1 } }.Call .read_request false
          .read_request_updown_miss) := by
      simp [handle, EventReadRequestHandler, h.event, hstate]
    rw [if_pos hstate]
    refine Calls.calling hans h rfl hcall h.error (by simp) fun b hb hframe _ => ?_
    refine Calls.between hb rfl (b := b.Next .read_request_updown_finish) ?_ hb.called
      (calls_read_request_updown_finish (n := 0) hans ⟨rfl, hb.called, hb.error⟩ ?_)
    · simp [handle, EventReadRequestHandler, hb.event, hb.error]
    · exact congrArg Frame.pending hframe
  · rw [if_neg hstate]
    refine Calls.between h rfl (b := Access.Next
      { a with frame := { a.frame with pending := 1 + (ans .read_request_updown).owners } }
      .read_request_updown_finish) ?_ h.called
      (calls_read_request_updown_finish hans ⟨rfl, h.called, h.error⟩ rfl)
    simp [handle, EventReadRequestHandler, h.event, hstate]

theorem calls_read_request (hans : Undisturbed ans) (h : Asking a .read_request .UpDown) :
    Calls ans a (evictions ans ++
      if foundState ans a.lock_module_type = .BlockInvalid then [.read_request] else []) := by
  have hreceive : Between (a.Next .read_request_receive) .read_request_receive :=
    ⟨rfl, h.between.called, h.between.error⟩
  refine Calls.between h.between rfl (b := a.Next .read_request_receive) ?_ h.between.called
    (Calls.between hreceive rfl (b := (a.Next .read_request_receive).findAndLock
      a.frame.request_direction (decide (a.frame.request_direction = .DownUp)) false false
      .read_request_action) rfl h.between.called ?_)
  · simp [handle, EventReadRequestHandler, h.between.event, hans.sent]
  · refine calls_findAndLock hans hreceive.called (Or.inl (by simp [h.request_direction]))
      fun b hb => ?_
    have hdirection : b.frame.request_direction = .UpDown :=
      hb.request_direction.trans h.request_direction
    have hfound : b.frame.block_not_found = false := hb.block_not_found.trans h.block_not_found
    have hupdown := calls_read_request_updown (a := b.Next .read_request_updown) hans
      ⟨rfl, hb.between.called, hb.between.error⟩
    refine Calls.between hb.between rfl (b := b.Next .read_request_updown) ?_ hb.between.called ?_
    · simp [handle, EventReadRequestHandler, hb.between.event, hb.between.error, hfound,
        hdirection]
    · have hstate : b.frame.state = foundState ans a.lock_module_type := hb.state
      rw [← hstate]
      exact hupdown

/-! Requests from a module below. -/

theorem calls_write_request_above (hans : Undisturbed ans)
    (h : Asking a .write_request .DownUp) :
    Calls ans a (if (ans .find_and_lock_port).hit ∧ a.module_type ≠ .LMStore then [.invalidate]
      else []) := by
  have hreceive : Between (a.Next .write_request_receive) .write_request_receive :=
    ⟨rfl, h.between.called, h.between.error⟩
  refine Calls.between h.between rfl (b := a.Next .write_request_receive) ?_ h.between.called
    (Calls.between hreceive rfl (b := (a.Next .write_request_receive).findAndLock .DownUp true true
      false .write_request_action) ?_ h.between.called ?_)
  · simp [handle, EventWriteRequestHandler, h.between.event, hans.sent]
  · simp [handle, EventWriteRequestHandler, h.request_direction, Access.Next]
  · cases hhit : (ans .find_and_lock_port).hit with
    | false =>
      rw [if_neg (by simp)]
      refine calls_missing hreceive.called hhit fun b hb hfound => ?_
      refine Calls.between hb rfl (b := b.Next .write_request_reply) ?_ hb.called
        (calls_write_request_reply hans ⟨rfl, hb.called, hb.error⟩)
      simp [handle, EventWriteRequestHandler, hb.event, hb.error, hfound]
    | true =>
      refine calls_hit hans hreceive.called hhit fun b hb hstate => ?_
      have hdirection : b.frame.request_direction = .DownUp :=
        hb.request_direction.trans h.request_direction
      have haction := calls_write_request_action hans hb.between
        (hb.block_not_found.trans h.block_not_found) (Or.inr hstate)
      rw [hdirection, hb.module_type] at haction
      by_cases htype : a.module_type = .LMStore <;>
        simpa [writeRequests, Access.Next, htype] using haction

theorem calls_read_request_above (hans : Undisturbed ans)
    (h : Asking a .read_request .DownUp) : Calls ans a [] := by
  have hreceive : Between (a.Next .read_request_receive) .read_request_receive :=
    ⟨rfl, h.between.called, h.between.error⟩
  refine Calls.between h.between rfl (b := a.Next .read_request_receive) ?_ h.between.called
    (Calls.between hreceive rfl (b := (a.Next .read_request_receive).findAndLock .DownUp true false
      false .read_request_action) ?_ h.between.called ?_)
  · simp [handle, EventReadRequestHandler, h.between.event, hans.sent]
  · simp [handle, EventReadRequestHandler, h.request_direction, Access.Next]
  · cases hhit : (ans .find_and_lock_port).hit with
    | false =>
      refine calls_missing hreceive.called hhit fun b hb hfound => ?_
      refine Calls.between hb rfl (b := b.Next .read_request_reply) ?_ hb.called
        (calls_read_request_reply hans ⟨rfl, hb.called, hb.error⟩)
      simp [handle, EventReadRequestHandler, hb.event, hb.error, hfound]
    | true =>
      refine calls_hit hans hreceive.called hhit fun b hb _ => ?_
      have hdirection : b.frame.request_direction = .DownUp :=
        hb.request_direction.trans h.request_direction
      have hfound : b.frame.block_not_found = false := hb.block_not_found.trans h.block_not_found
      have hdownup : Between (b.Next .read_request_downup) .read_request_downup :=
        ⟨rfl, hb.between.called, hb.between.error⟩
      refine Calls.between hb.between rfl (b := b.Next .read_request_downup) ?_ hb.between.called
        (Calls.between (b := Access.Next
          { b with frame := { b.frame with pending := 1 + (ans .read_request_downup).owners } }
          .read_request_downup_finish) hdownup rfl rfl hb.between.called ?_)
      · simp [handle, EventReadRequestHandler, hb.between.event, hb.between.error, hfound,
          hdirection]
      · refine calls_pendingReply (e := .read_request_downup_finish) hans rfl (fun b hb => ?_) _ _
          ⟨rfl, hb.between.called, hb.between.error⟩ rfl
        simp only [handle, EventReadRequestHandler, hb.event]

/-! The chains of the module hierarchy. -/

section Hierarchy

variable {A ι : Type} [DecidableEq A] [DecidableEq ι]
variable {h : Hierarchy A ι} {victim : ι → Option A} {block : A} {module : ι} {σ : A → Copies ι}

/-- The state of the block that a module would give up. -/
def victimState (victim : ι → Option A) (module : ι) (σ : A → Copies ι) : BlockState :=
  match victim module with
  | none => .BlockInvalid
  | some v => (σ v module).state

/-- Find-and-lock learns what the modules hold. -/
structure Reports (h : Hierarchy A ι) (victim : ι → Option A) (block : A) (module : ι)
    (σ : A → Copies ι) (ans : Event → Answer) : Prop where
  hit : (ans .find_and_lock_port).hit = decide ((σ block module).state ≠ .BlockInvalid)
  state : (ans .find_and_lock_port).state =
    if (σ block module).state ≠ .BlockInvalid then (σ block module).state
    else victimState victim module σ
  finish : ∀ room, makeRoom h victim module σ = some room →
    (ans .find_and_lock_finish).state = room.1

theorem Reports.evicts_iff (hreports : Reports h victim block module σ ans) :
    Evicts ans ↔ (σ block module).state = .BlockInvalid ∧
      victimState victim module σ ≠ .BlockInvalid := by
  unfold Evicts
  rw [hreports.hit, hreports.state]
  by_cases hstate : (σ block module).state = .BlockInvalid <;> simp [hstate]

theorem makeRoom_empty (hvictim : victimState victim module σ = .BlockInvalid) :
    makeRoom h victim module σ = some (.BlockInvalid, σ) := by
  unfold victimState at hvictim
  unfold makeRoom
  cases hv : victim module with
  | none => rfl
  | some v =>
    rw [hv] at hvictim
    exact if_pos hvictim

theorem Reports.foundState_eq (hreports : Reports h victim block module σ ans) {type : ModuleType}
    (htype : type = .MainMemory ↔ h.mainMemory module = true)
    {found : BlockState × (A → Copies ι)}
    (hfound : ModuleHierarchy.findAndLock h victim block module σ = some found) :
    foundState ans type = found.1 := by
  have hevicts := hreports.evicts_iff
  unfold ModuleHierarchy.findAndLock at hfound
  by_cases hstate : (σ block module).state = .BlockInvalid
  · rw [if_neg (not_not.mpr hstate)] at hfound
    obtain ⟨_, _, hfound⟩ := Option.bind_eq_some_iff.mp hfound
    obtain ⟨room, hroom, hfound⟩ := Option.bind_eq_some_iff.mp hfound
    have hleft : (if Evicts ans then (ans .find_and_lock_finish).state
        else (ans .find_and_lock_port).state) = room.1 := by
      by_cases hvictim : victimState victim module σ = .BlockInvalid
      · rw [makeRoom_empty hvictim] at hroom
        cases hroom
        rw [if_neg (fun hc => (hevicts.mp hc).2 hvictim), hreports.state,
          if_neg (not_not.mpr hstate), hvictim]
      · rw [if_pos (hevicts.mpr ⟨hstate, hvictim⟩), hreports.finish room hroom]
    unfold foundState
    rw [hleft]
    by_cases hmain : h.mainMemory module = true ∧ room.1 = .BlockInvalid
    · rw [if_pos hmain] at hfound
      cases hfound
      simp [htype, hmain]
    · rw [if_neg hmain] at hfound
      cases hfound
      simp [htype, hmain]
  · rw [if_pos hstate] at hfound
    cases hfound
    simp [foundState, hevicts, hstate, hreports.state]

/-- The eviction that makes room for a block. -/
def room (victim : ι → Option A) (block : A) (module : ι) (σ : A → Copies ι) : List Chain :=
  if (σ block module).state = .BlockInvalid ∧ victimState victim module σ ≠ .BlockInvalid then
    [.evict]
  else []

/-- The chains that a chain of the hierarchy runs once it has its entry. -/
def chains (type : ModuleType) (state : BlockState) : Chain → List Chain
  | .load | .read_request => if state = .BlockInvalid then [.read_request] else []
  | .store => writeRequests .UpDown state
  | .nc_store =>
    (if state = .BlockModified ∨ state = .BlockOwned then [.evict] else []) ++
      ncRequests type state
  | .write_request => .invalidate :: writeRequests .UpDown state
  | .find_and_lock | .evict | .invalidate | .message => []

/-- A chain of the hierarchy as it starts; the requests are those to a module below. -/
inductive Starts : Chain → Access → Prop
  | load {a : Access} (h : Between a .load) : Starts .load a
  | store {a : Access} (h : Between a .store) : Starts .store a
  | nc_store {a : Access} (h : Between a .nc_store) : Starts .nc_store a
  | read_request {a : Access} (h : Asking a .read_request .UpDown) : Starts .read_request a
  | write_request {a : Access} (h : Asking a .write_request .UpDown) : Starts .write_request a
  | message {a : Access} (h : Between a .message) : Starts .message a

theorem Reports.evictions_eq (hreports : Reports h victim block module σ ans) :
    evictions ans = room victim block module σ := by
  unfold evictions room
  simp only [hreports.evicts_iff]

/-- Undisturbed, the chains of a module of the hierarchy go where the hierarchy's own go: they make
room under the same condition and send the same requests. -/
theorem calls_run (hans : Undisturbed ans) (hreports : Reports h victim block module σ ans)
    {c : Chain} (hstart : Starts c a) (hcache : a.module_type ≠ .LMStore)
    (htype : a.lock_module_type = .MainMemory ↔ h.mainMemory module = true)
    {found : BlockState × (A → Copies ι)}
    (hfound : ModuleHierarchy.findAndLock h victim block module σ = some found) :
    Calls ans a (room victim block module σ ++ chains a.module_type found.1 c) := by
  have hstate := hreports.foundState_eq htype hfound
  rw [← hreports.evictions_eq, ← hstate]
  cases hstart with
  | load hload => exact calls_load hans hload
  | store hstore => exact calls_store hans hstore
  | nc_store hstore => exact calls_nc_store hans hstore
  | read_request hread => exact calls_read_request hans hread
  | write_request hwrite =>
    have hcalls := calls_write_request hans hwrite
    rwa [if_neg hcache] at hcalls
  | message hmessage =>
    rw [chains, List.append_nil]
    exact calls_message hans hmessage

end Hierarchy

end MMLMStore.UndisturbedChains
