import MMLMStore.CacheChains

/-!
# Entries locked by an event chain

What the log of locks of a chain looks like at each event. Every handler keeps it, but for one case:
a non-coherent store whose eviction returns an error goes back to its lock event with the entry
locked.
-/
namespace MMLMStore.EntryLocks

open LockLog CacheChains StepRuns

/-- Where an event stands: before the entry is locked, in find-and-lock with the entry locked, at
the event find-and-lock returns to, with the entry in hand, after it was given back, returned. -/
inductive Stage
  | before
  | searching
  | found
  | inside
  | after
  | closed
  deriving DecidableEq, Repr

def stage : Event → Stage
  | .load | .load_lock | .store | .store_lock | .nc_store | .nc_store_lock => .before
  | .find_and_lock | .find_and_lock_port => .before
  | .evict | .evict_invalid | .evict_action | .evict_receive => .before
  | .write_request | .write_request_receive | .read_request | .read_request_receive => .before
  | .message | .message_receive => .before
  | .find_and_lock_action | .find_and_lock_finish => .searching
  | .load_action | .store_action | .nc_store_writeback => .found
  | .evict_process | .evict_process_noncoherent => .found
  | .write_request_action | .read_request_action | .message_action => .found
  | .load_miss | .load_unlock | .store_unlock => .inside
  | .nc_store_action | .nc_store_miss | .nc_store_unlock => .inside
  | .write_request_exclusive | .write_request_updown | .write_request_updown_finish => .inside
  | .write_request_downup | .write_request_downup_finish => .inside
  | .read_request_updown | .read_request_updown_miss | .read_request_updown_finish => .inside
  | .read_request_downup | .read_request_downup_finish => .inside
  | .load_finish | .store_finish | .nc_store_finish => .after
  | .evict_reply | .evict_reply_receive | .evict_finish => .after
  | .write_request_reply | .write_request_finish => .after
  | .read_request_reply | .read_request_finish => .after
  | .message_reply | .message_finish => .after
  | .returned => .closed

/-- Events a chain can be at after its block was not found. -/
def mayMiss : Event → Bool
  | .evict_process | .evict_process_noncoherent => true
  | .evict_reply | .evict_reply_receive | .evict_finish => true
  | .write_request_action | .write_request_reply | .write_request_finish => true
  | .read_request_action | .read_request_reply | .read_request_finish => true
  | .returned => true
  | _ => false

def entry (a : Access) : ℤ × ℤ := (a.frame.set, a.frame.way)

def lockEntry (a : Access) : ℤ × ℤ := (a.lock_frame.set, a.lock_frame.way)

def LogAt (a : Access) : Stage → Prop
  | .before => Free a.log
  | .searching => Holding (lockEntry a) a.log
  | .found =>
    (a.frame.error = true → Over a.log) ∧
      (a.frame.error = false → a.frame.block_not_found = true → Free a.log) ∧
      (a.frame.error = false → a.frame.block_not_found = false → Holding (entry a) a.log)
  | .inside => Holding (entry a) a.log
  | .after => Over a.log
  | .closed => Free a.log

structure Sound (a : Access) : Prop where
  log : LogAt a (stage a.event)
  missed : a.frame.block_not_found = true → mayMiss a.event = true
  called : stage a.event = .found → a.called = none
  locking : handler a.event = some .find_and_lock →
    stage a.lock_frame.return_event = .found ∧
      (a.lock_frame.request_direction = .DownUp → mayMiss a.lock_frame.return_event = true)
  evicted : a.event = .nc_store_action →
    a.called = some (.evict, false) ∨ a.called = none ∧ a.frame.error = false

/-- The chain that a non-coherent store called to evict its block returns an error. -/
def FailedEviction (a : Access) (ans : Answer) : Prop :=
  a.event = .nc_store_action ∧ a.called.isSome = true ∧ ans.error = true

/-! What the steps of the handlers have in common. -/

variable {a b t : Access} {ans : Answer} {e : Event}

theorem handler_of_found (h : stage e = .found) : handler e ≠ some .find_and_lock := by
  cases e <;> simp [stage, handler] at h ⊢

theorem Sound.at_event (hb : Sound b) (hevent : b.event = e) :
    LogAt b (stage e) ∧ (b.frame.block_not_found = true → mayMiss e = true) :=
  ⟨hevent ▸ hb.log, hevent ▸ hb.missed⟩

/-- Events at which a chain owes nothing to the frame of find-and-lock or to an eviction. -/
def IsPlain (e : Event) : Prop := handler e ≠ some .find_and_lock ∧ e ≠ .nc_store_action

instance (e : Event) : Decidable (IsPlain e) := inferInstanceAs (Decidable (_ ∧ _))

theorem sound_next (hlog : LogAt b (stage e))
    (hmiss : b.frame.block_not_found = true → mayMiss e = true) (hcalled : b.called = none)
    (he : IsPlain e) : Sound (b.Next e) where
  log := hlog
  missed := hmiss
  called _ := hcalled
  locking h := absurd h he.1
  evicted h := absurd h he.2

theorem sound_call {c : Chain} {w : Bool} (hlog : LogAt b (stage e))
    (hmiss : b.frame.block_not_found = true → mayMiss e = true)
    (he : stage e ≠ .found ∧ IsPlain e) : Sound (b.Call c w e) where
  log := hlog
  missed := hmiss
  called h := absurd h he.1
  locking h := absurd h he.2.1
  evicted h := absurd h he.2.2

theorem sound_locking (hevent : handler t.event = some .find_and_lock)
    (hlog : LogAt t (stage t.event)) (hmiss : t.frame.block_not_found = true → False)
    (hfound : stage t.lock_frame.return_event = .found)
    (hdirection : t.lock_frame.request_direction = .DownUp →
      mayMiss t.lock_frame.return_event = true) : Sound t where
  log := hlog
  missed h := (hmiss h).elim
  called h := absurd hevent (handler_of_found h)
  locking _ := ⟨hfound, hdirection⟩
  evicted h := by
    rw [h] at hevent
    cases hevent

theorem sound_found (hlog : LogAt b .found)
    (hmiss : b.frame.block_not_found = true → mayMiss e = true) (hcalled : b.called = none)
    (hfound : stage e = .found) : Sound (b.Next e) := by
  refine sound_next ?_ hmiss hcalled ⟨handler_of_found hfound, ?_⟩
  · rw [hfound]
    exact hlog
  · intro h
    rw [h] at hfound
    cases hfound

theorem sound_findAndLock {e' : Event} {direction : RequestDirection}
    {blocking write witness : Bool} (hfree : Free b.log)
    (hmiss : b.frame.block_not_found = true → mayMiss e' = true) (hfound : stage e = .found)
    (hdirection : direction = .DownUp → mayMiss e = true) (he' : mayMiss e' = false) :
    Sound (b.findAndLock direction blocking write witness e) := by
  refine sound_locking rfl hfree ?_ hfound hdirection
  intro h
  have := hmiss h
  simp [he'] at this

theorem sound_retry (hover : Over b.log)
    (hmiss : b.frame.block_not_found = true → mayMiss e = true) (hcalled : b.called = none)
    (hbefore : stage e = .before) (he : IsPlain e) : Sound (b.retry e) := by
  refine sound_next (b := b.record .retry) ?_ hmiss hcalled he
  rw [hbefore]
  exact hover.ends trivial

theorem sound_return (hover : Over b.log) (hcalled : b.called = none) : Sound b.Return := by
  refine sound_next (b := b.record .ret) ?_ (fun _ => rfl) hcalled (by decide)
  exact hover.ends trivial

/-! A called chain returns. -/

theorem resume_evict (h : a.called = some (.evict, false)) (he : a.event = .nc_store_action)
    (error : Bool) : (a.resume error).frame.error = error := by
  unfold Access.resume
  rw [h]
  simp [he, Access.increment, Access.setError]

/-- What the log is like does not depend on the errors, but for the event after find-and-lock. -/
theorem logAt_of_eq {s : Stage} (hs : s ≠ .found) (hlog : LogAt a s) (heq : b.log = a.log)
    (hentry : entry b = entry a) (hlock : lockEntry b = lockEntry a) : LogAt b s := by
  cases s with
  | found => exact absurd rfl hs
  | searching =>
    unfold LogAt at *
    rw [heq, hlock]
    exact hlog
  | inside =>
    unfold LogAt at *
    rw [heq, hentry]
    exact hlog
  | before | after | closed =>
    unfold LogAt at *
    rw [heq]
    exact hlog

/-- The chain is sound after the return, unless a non-coherent store learns of a failed eviction. -/
theorem Sound.resume (h : Sound a) (hok : ¬FailedEviction a ans) : Sound (a.resume ans.error) := by
  by_cases hfound : stage a.event = .found
  · rw [resume_none (h.called hfound)]
    exact h
  · obtain ⟨frameError, lockError, witnessed, heq⟩ := resume_eq a ans.error
    have hevicted : a.event = .nc_store_action → (a.resume ans.error).frame.error = false := by
      intro hevent
      rcases h.evicted hevent with hcalled | ⟨hcalled, herror⟩
      · rw [resume_evict hcalled hevent]
        refine Bool.eq_false_iff.mpr fun herror => hok ⟨hevent, ?_, herror⟩
        rw [hcalled]
        rfl
      · rw [resume_none hcalled]
        exact herror
    rw [heq] at hevicted ⊢
    exact {
      log := logAt_of_eq hfound h.log rfl rfl rfl
      missed := h.missed
      called := fun _ => rfl
      locking := h.locking
      evicted := fun hevent => Or.inr ⟨rfl, hevicted hevent⟩ }

/-! One handler after the other. -/

/-- An event after find-and-lock whose block cannot have been missed. -/
theorem found_holding (hlog : LogAt b .found)
    (hmiss : b.frame.block_not_found = true → mayMiss e = true) (herror : ¬b.frame.error = true)
    (he : mayMiss e = false) : Holding (entry b) b.log := by
  refine hlog.2.2 (Bool.eq_false_iff.mpr herror) (Bool.eq_false_iff.mpr fun h => ?_)
  have := hmiss h
  simp [he] at this

theorem found_unlock (hlog : LogAt b .found) (herror : ¬b.frame.error = true) :
    Over b.UnlockEntry.log := by
  have herror' := Bool.eq_false_iff.mpr herror
  cases hmissed : b.frame.block_not_found with
  | true =>
    refine Or.inl ((hlog.2.1 herror' hmissed).concat ?_)
    intro key h
    cases h
  | false => exact (hlog.2.2 herror' hmissed).unlock

theorem EventLoadHandler_sound (hb : Sound b) (hcalled : b.called = none)
    (h : EventLoadHandler b ans = some t) : Sound t := by
  unfold EventLoadHandler at h
  split at h
  · -- load
    rename_i hevent
    obtain ⟨hlog, hmiss⟩ := hb.at_event hevent
    obtain rfl := Option.some.inj h
    split_ifs
    · exact sound_next (Or.inl hlog) hmiss hcalled (by decide)
    · exact sound_next hlog hmiss hcalled (by decide)
  · -- load_lock
    rename_i hevent
    obtain ⟨hlog, hmiss⟩ := hb.at_event hevent
    obtain rfl := Option.some.inj h
    split_ifs
    · exact sound_next hlog hmiss hcalled (by decide)
    · exact sound_findAndLock hlog hmiss rfl (fun hd => by cases hd) rfl
  · -- load_action
    rename_i hevent
    obtain ⟨hlog, hmiss⟩ := hb.at_event hevent
    obtain rfl := Option.some.inj h
    split_ifs with herror hstate
    · exact sound_retry (hlog.1 herror) hmiss hcalled rfl (by decide)
    · exact sound_next (found_holding hlog hmiss herror rfl) hmiss hcalled (by decide)
    · exact sound_call (found_holding hlog hmiss herror rfl) hmiss (by decide)
  · -- load_miss
    rename_i hevent
    obtain ⟨hlog, hmiss⟩ := hb.at_event hevent
    obtain rfl := Option.some.inj h
    split_ifs
    · exact sound_retry (b := b.UnlockEntry) hlog.unlock hmiss hcalled rfl (by decide)
    · exact sound_next hlog hmiss hcalled (by decide)
  · -- load_unlock
    rename_i hevent
    obtain ⟨hlog, hmiss⟩ := hb.at_event hevent
    obtain rfl := Option.some.inj h
    exact sound_next (b := b.UnlockEntry) hlog.unlock hmiss hcalled (by decide)
  · -- load_finish
    rename_i hevent
    obtain ⟨hlog, hmiss⟩ := hb.at_event hevent
    obtain rfl := Option.some.inj h
    obtain ⟨n, hn⟩ := increment_eq b b.frame.witness
    rw [hn]
    exact sound_return hlog hcalled
  · cases h

theorem EventStoreHandler_sound (hb : Sound b) (hcalled : b.called = none)
    (h : EventStoreHandler b ans = some t) : Sound t := by
  unfold EventStoreHandler at h
  split at h
  · -- store
    rename_i hevent
    obtain ⟨hlog, hmiss⟩ := hb.at_event hevent
    obtain rfl := Option.some.inj h
    split_ifs
    · obtain ⟨n, hn⟩ := increment_eq b b.frame.witness
      rw [hn]
      exact sound_next (Or.inl hlog) hmiss hcalled (by decide)
    · exact sound_next hlog hmiss hcalled (by decide)
  · -- store_lock
    rename_i hevent
    obtain ⟨hlog, hmiss⟩ := hb.at_event hevent
    obtain rfl := Option.some.inj h
    split_ifs
    · exact sound_next hlog hmiss hcalled (by decide)
    · exact sound_findAndLock hlog hmiss rfl (fun hd => by cases hd) rfl
  · -- store_action
    rename_i hevent
    obtain ⟨hlog, hmiss⟩ := hb.at_event hevent
    obtain rfl := Option.some.inj h
    split_ifs with herror hstate
    · exact sound_retry (hlog.1 herror) hmiss hcalled rfl (by decide)
    · exact sound_next (found_holding hlog hmiss herror rfl) hmiss hcalled (by decide)
    · exact sound_call (found_holding hlog hmiss herror rfl) hmiss (by decide)
  · -- store_unlock
    rename_i hevent
    obtain ⟨hlog, hmiss⟩ := hb.at_event hevent
    obtain rfl := Option.some.inj h
    split_ifs
    · exact sound_retry (b := b.UnlockEntry) hlog.unlock hmiss hcalled rfl (by decide)
    · exact sound_next (b := b.UnlockEntry) hlog.unlock hmiss hcalled (by decide)
  · -- store_finish
    rename_i hevent
    obtain ⟨hlog, hmiss⟩ := hb.at_event hevent
    obtain rfl := Option.some.inj h
    exact sound_return hlog hcalled
  · cases h

theorem EventNCStoreHandler_sound (hb : Sound b) (hcalled : b.called = none)
    (h : EventNCStoreHandler b ans = some t) : Sound t := by
  unfold EventNCStoreHandler at h
  split at h
  · -- nc_store
    rename_i hevent
    obtain ⟨hlog, hmiss⟩ := hb.at_event hevent
    obtain rfl := Option.some.inj h
    split_ifs
    · exact sound_next (Or.inl hlog) hmiss hcalled (by decide)
    · exact sound_next hlog hmiss hcalled (by decide)
  · -- nc_store_lock
    rename_i hevent
    obtain ⟨hlog, hmiss⟩ := hb.at_event hevent
    obtain rfl := Option.some.inj h
    split_ifs
    · exact sound_next hlog hmiss hcalled (by decide)
    · exact sound_findAndLock hlog hmiss rfl (fun hd => by cases hd) rfl
  · -- nc_store_writeback
    rename_i hevent
    obtain ⟨hlog, hmiss⟩ := hb.at_event hevent
    obtain rfl := Option.some.inj h
    split_ifs with herror hstate
    · exact sound_retry (hlog.1 herror) hmiss hcalled rfl (by decide)
    · exact {
        log := found_holding hlog hmiss herror rfl
        missed := hmiss
        called := fun hfound => by cases hfound
        locking := fun hlock => by cases hlock
        evicted := fun _ => Or.inl rfl }
    · exact {
        log := found_holding hlog hmiss herror rfl
        missed := hmiss
        called := fun hfound => by cases hfound
        locking := fun hlock => by cases hlock
        evicted := fun _ => Or.inr ⟨hcalled, Bool.eq_false_iff.mpr herror⟩ }
  · -- nc_store_action
    rename_i hevent
    obtain ⟨hlog, hmiss⟩ := hb.at_event hevent
    obtain rfl := Option.some.inj h
    have hnoerror : b.frame.error = false := by
      rcases hb.evicted hevent with hsome | ⟨-, hnoerror⟩
      · rw [hcalled] at hsome
        cases hsome
      · exact hnoerror
    rw [hnoerror, if_neg (by decide)]
    split_ifs
    · exact sound_next hlog hmiss hcalled (by decide)
    · split
      · exact sound_next hlog hmiss hcalled (by decide)
      · exact sound_next hlog hmiss hcalled (by decide)
      · exact sound_call hlog hmiss (by decide)
      · exact sound_call hlog hmiss (by decide)
      · exact sound_call hlog hmiss (by decide)
      · exact sound_call hlog hmiss (by decide)
  · -- nc_store_miss
    rename_i hevent
    obtain ⟨hlog, hmiss⟩ := hb.at_event hevent
    obtain rfl := Option.some.inj h
    split_ifs
    · exact sound_retry (b := b.UnlockEntry) hlog.unlock hmiss hcalled rfl (by decide)
    · exact sound_next hlog hmiss hcalled (by decide)
  · -- nc_store_unlock
    rename_i hevent
    obtain ⟨hlog, hmiss⟩ := hb.at_event hevent
    obtain rfl := Option.some.inj h
    exact sound_next (b := b.UnlockEntry) hlog.unlock hmiss hcalled (by decide)
  · -- nc_store_finish
    rename_i hevent
    obtain ⟨hlog, hmiss⟩ := hb.at_event hevent
    obtain rfl := Option.some.inj h
    obtain ⟨n, hn⟩ := increment_eq b b.frame.witness
    rw [hn]
    exact sound_return hlog hcalled
  · cases h

theorem lockError_sound (hover : Over b.log) (hmiss : b.frame.block_not_found = true → False)
    (hcalled : b.called = none) (hfound : stage b.lock_frame.return_event = .found) :
    Sound (lockError b) := by
  refine sound_found (b := b.setError true) ?_ (fun h => (hmiss h).elim) hcalled hfound
  exact ⟨fun _ => hover, fun herror => (by cases herror), fun herror => (by cases herror)⟩

theorem EventFindAndLockPort_sound (hfree : Free b.log)
    (hmiss : b.frame.block_not_found = true → False) (hcalled : b.called = none)
    (hfound : stage b.lock_frame.return_event = .found)
    (hdirection : b.lock_frame.request_direction = .DownUp →
      mayMiss b.lock_frame.return_event = true) : Sound (EventFindAndLockPort b ans) := by
  unfold EventFindAndLockPort
  obtain ⟨n, hn⟩ := increment_eq b (b.lock_frame.write && ans.hit && b.lock_frame.witness)
  rw [hn]
  dsimp only
  generalize (if ans.hit = true then ans.way else ans.victim) = way
  split_ifs with hmissed hlocked hblocking
  · -- the block is not found
    refine sound_found (b := { b with
      witnessed := n
      frame := { b.frame with block_not_found := true }
      lock_frame := _ }) ?_ (fun _ => hdirection hmissed.2) hcalled hfound
    exact ⟨fun _ => Or.inl hfree, fun _ _ => hfree, fun _ h => (by cases h)⟩
  · -- wait for the entry
    refine sound_locking rfl (hfree.concat ?_) hmiss hfound hdirection
    intro key h
    cases h
  · exact lockError_sound (Or.inl hfree) hmiss hcalled hfound
  · exact sound_locking rfl (hfree.lock _) hmiss hfound hdirection

theorem EventFindAndLockFinish_sound (hlog : Holding (lockEntry b) b.log)
    (hmiss : b.frame.block_not_found = true → False) (hcalled : b.called = none)
    (hfound : stage b.lock_frame.return_event = .found) : Sound (EventFindAndLockFinish b ans) := by
  unfold EventFindAndLockFinish
  by_cases herror : b.lock_frame.error = true
  · rw [if_pos herror]
    exact lockError_sound hlog.unlock hmiss hcalled hfound
  · rw [if_neg herror]
    refine sound_found (b := { b with
      frame := { b.frame with
        error := false, set := b.lock_frame.set, way := b.lock_frame.way, state := _ } }) ?_
      (fun h => (hmiss h).elim) hcalled hfound
    exact ⟨fun h => (by cases h), fun _ h => (hmiss h).elim, fun _ _ => hlog⟩

theorem EventFindAndLockHandler_sound (hb : Sound b) (hcalled : b.called = none)
    (h : EventFindAndLockHandler b ans = some t) : Sound t := by
  unfold EventFindAndLockHandler at h
  split at h
  · -- find_and_lock
    rename_i hevent
    obtain ⟨hlog, hmiss⟩ := hb.at_event hevent
    obtain ⟨hfound, hdirection⟩ := hb.locking (by rw [hevent]; rfl)
    obtain rfl := Option.some.inj h
    refine sound_locking rfl (hlog.concat ?_) (fun h => by cases hmiss h) hfound hdirection
    intro key h
    cases h
  · -- find_and_lock_port
    rename_i hevent
    obtain ⟨hlog, hmiss⟩ := hb.at_event hevent
    obtain ⟨hfound, hdirection⟩ := hb.locking (by rw [hevent]; rfl)
    obtain rfl := Option.some.inj h
    exact EventFindAndLockPort_sound hlog (fun h => by cases hmiss h) hcalled hfound hdirection
  · -- find_and_lock_action
    rename_i hevent
    obtain ⟨hlog, hmiss⟩ := hb.at_event hevent
    obtain ⟨hfound, hdirection⟩ := hb.locking (by rw [hevent]; rfl)
    obtain rfl := Option.some.inj h
    split_ifs
    · exact sound_locking rfl hlog (fun h => by cases hmiss h) hfound hdirection
    · exact sound_locking rfl hlog (fun h => by cases hmiss h) hfound hdirection
  · -- find_and_lock_finish
    rename_i hevent
    obtain ⟨hlog, hmiss⟩ := hb.at_event hevent
    obtain ⟨hfound, hdirection⟩ := hb.locking (by rw [hevent]; rfl)
    obtain rfl := Option.some.inj h
    exact EventFindAndLockFinish_sound hlog (fun h => by cases hmiss h) hcalled hfound
  · cases h

theorem EventEvictHandler_sound (hb : Sound b) (hcalled : b.called = none)
    (h : EventEvictHandler b ans = some t) : Sound t := by
  unfold EventEvictHandler at h
  split at h
  · -- evict
    rename_i hevent
    obtain ⟨hlog, hmiss⟩ := hb.at_event hevent
    obtain rfl := Option.some.inj h
    exact sound_call (b := { b with frame := { b.frame with state := ans.state } }) hlog hmiss
      (by decide)
  · -- evict_invalid
    rename_i hevent
    obtain ⟨hlog, hmiss⟩ := hb.at_event hevent
    obtain rfl := Option.some.inj h
    split_ifs
    · exact sound_next (b := { b with frame := { b.frame with state := ans.state } })
        (Or.inl hlog) (fun _ => rfl) hcalled (by decide)
    · exact sound_next (b := { b with frame := { b.frame with state := ans.state } })
        hlog hmiss hcalled (by decide)
  · -- evict_action
    rename_i hevent
    obtain ⟨hlog, hmiss⟩ := hb.at_event hevent
    obtain rfl := Option.some.inj h
    split_ifs
    · exact sound_next (Or.inl hlog) (fun _ => rfl) hcalled (by decide)
    · exact sound_next hlog hmiss hcalled (by decide)
    · exact sound_next hlog hmiss hcalled (by decide)
  · -- evict_receive
    rename_i hevent
    obtain ⟨hlog, hmiss⟩ := hb.at_event hevent
    obtain rfl := Option.some.inj h
    split_ifs
    · exact sound_findAndLock hlog hmiss rfl (fun _ => rfl) rfl
    · exact sound_findAndLock hlog hmiss rfl (fun _ => rfl) rfl
  · -- evict_process
    rename_i hevent
    obtain ⟨hlog, hmiss⟩ := hb.at_event hevent
    obtain rfl := Option.some.inj h
    split_ifs with herror
    · exact sound_next (hlog.1 herror) (fun _ => rfl) hcalled (by decide)
    · exact sound_next (b := b.UnlockEntry) (found_unlock hlog herror) (fun _ => rfl) hcalled
        (by decide)
  · -- evict_process_noncoherent
    rename_i hevent
    obtain ⟨hlog, hmiss⟩ := hb.at_event hevent
    obtain rfl := Option.some.inj h
    split_ifs with herror
    · exact sound_next (hlog.1 herror) (fun _ => rfl) hcalled (by decide)
    · exact sound_next (b := b.UnlockEntry) (found_unlock hlog herror) (fun _ => rfl) hcalled
        (by decide)
  · -- evict_reply
    rename_i hevent
    obtain ⟨hlog, hmiss⟩ := hb.at_event hevent
    obtain rfl := Option.some.inj h
    split_ifs
    · exact sound_next hlog hmiss hcalled (by decide)
    · exact sound_next hlog hmiss hcalled (by decide)
  · -- evict_reply_receive
    rename_i hevent
    obtain ⟨hlog, hmiss⟩ := hb.at_event hevent
    obtain rfl := Option.some.inj h
    exact sound_next hlog hmiss hcalled (by decide)
  · -- evict_finish
    rename_i hevent
    obtain ⟨hlog, hmiss⟩ := hb.at_event hevent
    obtain rfl := Option.some.inj h
    exact sound_return hlog hcalled
  · cases h

theorem EventWriteRequestHandler_sound (hb : Sound b) (hcalled : b.called = none)
    (h : EventWriteRequestHandler b ans = some t) : Sound t := by
  unfold EventWriteRequestHandler at h
  split at h
  · -- write_request
    rename_i hevent
    obtain ⟨hlog, hmiss⟩ := hb.at_event hevent
    obtain rfl := Option.some.inj h
    split_ifs
    · exact sound_next hlog hmiss hcalled (by decide)
    · exact sound_next hlog hmiss hcalled (by decide)
  · -- write_request_receive
    rename_i hevent
    obtain ⟨hlog, hmiss⟩ := hb.at_event hevent
    obtain rfl := Option.some.inj h
    exact sound_findAndLock hlog hmiss rfl (fun _ => rfl) rfl
  · -- write_request_action
    rename_i hevent
    obtain ⟨hlog, hmiss⟩ := hb.at_event hevent
    obtain rfl := Option.some.inj h
    split_ifs with herror hmissed
    · exact sound_next (hlog.1 herror) (fun _ => rfl) hcalled (by decide)
    · refine sound_next (Or.inl ?_) (fun _ => rfl) hcalled (by decide)
      exact hlog.2.1 (Bool.eq_false_iff.mpr herror) hmissed
    · refine sound_next ?_ (fun h => absurd h hmissed) hcalled (by decide)
      exact hlog.2.2 (Bool.eq_false_iff.mpr herror) (Bool.eq_false_iff.mpr hmissed)
    · refine sound_call ?_ (fun h => absurd h hmissed) (by decide)
      exact hlog.2.2 (Bool.eq_false_iff.mpr herror) (Bool.eq_false_iff.mpr hmissed)
  · -- write_request_exclusive
    rename_i hevent
    obtain ⟨hlog, hmiss⟩ := hb.at_event hevent
    obtain rfl := Option.some.inj h
    split_ifs
    · exact sound_next hlog hmiss hcalled (by decide)
    · exact sound_next hlog hmiss hcalled (by decide)
  · -- write_request_updown
    rename_i hevent
    obtain ⟨hlog, hmiss⟩ := hb.at_event hevent
    obtain rfl := Option.some.inj h
    split_ifs
    · exact sound_next hlog hmiss hcalled (by decide)
    · exact sound_call hlog hmiss (by decide)
  · -- write_request_updown_finish
    rename_i hevent
    obtain ⟨hlog, hmiss⟩ := hb.at_event hevent
    obtain rfl := Option.some.inj h
    split_ifs
    · exact sound_next (b := b.UnlockEntry) hlog.unlock (fun _ => rfl) hcalled (by decide)
    · exact sound_next (b := b.UnlockEntry) hlog.unlock (fun _ => rfl) hcalled (by decide)
  · -- write_request_downup
    rename_i hevent
    obtain ⟨hlog, hmiss⟩ := hb.at_event hevent
    split_ifs at h
    obtain rfl := Option.some.inj h
    exact sound_next hlog hmiss hcalled (by decide)
  · -- write_request_downup_finish
    rename_i hevent
    obtain ⟨hlog, hmiss⟩ := hb.at_event hevent
    obtain rfl := Option.some.inj h
    exact sound_next (b := b.UnlockEntry) hlog.unlock (fun _ => rfl) hcalled (by decide)
  · -- write_request_reply
    rename_i hevent
    obtain ⟨hlog, hmiss⟩ := hb.at_event hevent
    obtain rfl := Option.some.inj h
    split_ifs
    · exact sound_next hlog hmiss hcalled (by decide)
    · exact sound_next hlog hmiss hcalled (by decide)
  · -- write_request_finish
    rename_i hevent
    obtain ⟨hlog, hmiss⟩ := hb.at_event hevent
    obtain rfl := Option.some.inj h
    obtain ⟨n, hn⟩ := increment_eq b
      (decide (b.frame.request_direction = .UpDown) && b.frame.witness)
    rw [hn]
    exact sound_return hlog hcalled
  · cases h

theorem pendingReply_sound (hb : Sound b) (hcalled : b.called = none)
    (hlog : Holding (entry b) b.log) : Sound (pendingReply b) := by
  unfold pendingReply
  dsimp only
  split_ifs
  · exact ⟨hb.log, hb.missed, hb.called, hb.locking, hb.evicted⟩
  · refine sound_next (b := Access.UnlockEntry { b with
      frame := { b.frame with pending := b.frame.pending - 1 } }) ?_ (fun _ => rfl) hcalled
      (by decide)
    exact hlog.unlock

theorem EventReadRequestHandler_sound (hb : Sound b) (hcalled : b.called = none)
    (h : EventReadRequestHandler b ans = some t) : Sound t := by
  unfold EventReadRequestHandler at h
  split at h
  · -- read_request
    rename_i hevent
    obtain ⟨hlog, hmiss⟩ := hb.at_event hevent
    obtain rfl := Option.some.inj h
    split_ifs
    · exact sound_next hlog hmiss hcalled (by decide)
    · exact sound_next hlog hmiss hcalled (by decide)
  · -- read_request_receive
    rename_i hevent
    obtain ⟨hlog, hmiss⟩ := hb.at_event hevent
    obtain rfl := Option.some.inj h
    exact sound_findAndLock hlog hmiss rfl (fun _ => rfl) rfl
  · -- read_request_action
    rename_i hevent
    obtain ⟨hlog, hmiss⟩ := hb.at_event hevent
    obtain rfl := Option.some.inj h
    split_ifs with herror hmissed
    · exact sound_next (hlog.1 herror) (fun _ => rfl) hcalled (by decide)
    · refine sound_next (Or.inl ?_) (fun _ => rfl) hcalled (by decide)
      exact hlog.2.1 (Bool.eq_false_iff.mpr herror) hmissed
    · refine sound_next ?_ (fun h => absurd h hmissed) hcalled (by decide)
      exact hlog.2.2 (Bool.eq_false_iff.mpr herror) (Bool.eq_false_iff.mpr hmissed)
    · refine sound_next ?_ (fun h => absurd h hmissed) hcalled (by decide)
      exact hlog.2.2 (Bool.eq_false_iff.mpr herror) (Bool.eq_false_iff.mpr hmissed)
  · -- read_request_updown
    rename_i hevent
    obtain ⟨hlog, hmiss⟩ := hb.at_event hevent
    obtain rfl := Option.some.inj h
    split_ifs
    · exact sound_next (b := { b with frame := { b.frame with pending := 1 + ans.owners } })
        hlog hmiss hcalled (by decide)
    · exact sound_call (b := { b with frame := { b.frame with pending := 1 } }) hlog hmiss
        (by decide)
  · -- read_request_updown_miss
    rename_i hevent
    obtain ⟨hlog, hmiss⟩ := hb.at_event hevent
    obtain rfl := Option.some.inj h
    split_ifs
    · exact sound_next (b := b.UnlockEntry) hlog.unlock (fun _ => rfl) hcalled (by decide)
    · exact sound_next hlog hmiss hcalled (by decide)
  · -- read_request_updown_finish
    rename_i hevent
    obtain ⟨hlog, hmiss⟩ := hb.at_event hevent
    obtain rfl := Option.some.inj h
    exact pendingReply_sound hb hcalled hlog
  · -- read_request_downup
    rename_i hevent
    obtain ⟨hlog, hmiss⟩ := hb.at_event hevent
    obtain rfl := Option.some.inj h
    exact sound_next (b := { b with frame := { b.frame with pending := 1 + ans.owners } })
      hlog hmiss hcalled (by decide)
  · -- read_request_downup_finish
    rename_i hevent
    obtain ⟨hlog, hmiss⟩ := hb.at_event hevent
    obtain rfl := Option.some.inj h
    exact pendingReply_sound hb hcalled hlog
  · -- read_request_reply
    rename_i hevent
    obtain ⟨hlog, hmiss⟩ := hb.at_event hevent
    obtain rfl := Option.some.inj h
    split_ifs
    · exact sound_next hlog hmiss hcalled (by decide)
    · exact sound_next hlog hmiss hcalled (by decide)
  · -- read_request_finish
    rename_i hevent
    obtain ⟨hlog, hmiss⟩ := hb.at_event hevent
    obtain rfl := Option.some.inj h
    exact sound_return hlog hcalled
  · cases h

theorem EventMessageHandler_sound (hb : Sound b) (hcalled : b.called = none)
    (h : EventMessageHandler b ans = some t) : Sound t := by
  unfold EventMessageHandler at h
  split at h
  · -- message
    rename_i hevent
    obtain ⟨hlog, hmiss⟩ := hb.at_event hevent
    obtain rfl := Option.some.inj h
    split_ifs
    · exact sound_next hlog hmiss hcalled (by decide)
    · exact sound_next hlog hmiss hcalled (by decide)
  · -- message_receive
    rename_i hevent
    obtain ⟨hlog, hmiss⟩ := hb.at_event hevent
    obtain rfl := Option.some.inj h
    exact sound_findAndLock hlog hmiss rfl (fun hd => by cases hd) rfl
  · -- message_action
    rename_i hevent
    obtain ⟨hlog, hmiss⟩ := hb.at_event hevent
    obtain rfl := Option.some.inj h
    split_ifs with herror
    · exact sound_next (hlog.1 herror) hmiss hcalled (by decide)
    · exact sound_next (b := b.UnlockEntry) (found_unlock hlog herror) hmiss hcalled (by decide)
  · -- message_reply
    rename_i hevent
    obtain ⟨hlog, hmiss⟩ := hb.at_event hevent
    obtain rfl := Option.some.inj h
    split_ifs
    · exact sound_next hlog hmiss hcalled (by decide)
    · exact sound_next hlog hmiss hcalled (by decide)
  · -- message_finish
    rename_i hevent
    obtain ⟨hlog, hmiss⟩ := hb.at_event hevent
    obtain rfl := Option.some.inj h
    exact sound_return hlog hcalled
  · cases h

/-! Whole chains. -/

theorem next_sound (ha : Sound a) (h : next a ans = some t) (hok : ¬FailedEviction a ans) :
    Sound t := by
  have hb := ha.resume hok
  have hcalled := resume_called a ans.error
  unfold next at h
  split at h
  · exact EventLoadHandler_sound hb hcalled h
  · exact EventStoreHandler_sound hb hcalled h
  · exact EventNCStoreHandler_sound hb hcalled h
  · exact EventFindAndLockHandler_sound hb hcalled h
  · exact EventEvictHandler_sound hb hcalled h
  · exact EventWriteRequestHandler_sound hb hcalled h
  · exact EventReadRequestHandler_sound hb hcalled h
  · exact EventMessageHandler_sound hb hcalled h
  · cases h

/-- After the failed eviction the chain ends its attempt with the entry locked. -/
theorem next_failed (ha : Sound a) (h : next a ans = some t) (hfail : FailedEviction a ans) :
    ¬Disciplined t.log := by
  obtain ⟨hevent, hcalled, herror⟩ := hfail
  have hevict : a.called = some (.evict, false) := by
    rcases ha.evicted hevent with hevict | ⟨hnone, -⟩
    · exact hevict
    · rw [hnone] at hcalled
      cases hcalled
  have hframe := resume_evict hevict hevent ans.error
  obtain ⟨frameError, lockError, witnessed, heq⟩ := resume_eq a ans.error
  have ht : t = (a.resume ans.error).retry .nc_store_lock := by
    rw [herror] at hframe
    simp only [next, hevent, handler, EventNCStoreHandler, resume_event, herror, hframe,
      if_true] at h
    rw [herror]
    exact (Option.some.inj h).symm
  have hhold : Holding (entry a) a.log := (ha.at_event hevent).1
  have hlog : t.log = a.log ++ [.retry] := by
    rw [ht, heq]
    rfl
  rw [hlog]
  exact hhold.not_ends trivial

theorem disciplined_of_logAt {s : Stage} (h : LogAt a s) : Disciplined a.log := by
  cases s with
  | before | closed => exact Free.disciplined h
  | searching | inside => exact Holding.disciplined h
  | after => exact Over.disciplined h
  | found =>
    cases herror : a.frame.error with
    | true => exact (h.1 herror).disciplined
    | false =>
      cases hmissed : a.frame.block_not_found with
      | true => exact (h.2.1 herror hmissed).disciplined
      | false => exact (h.2.2 herror hmissed).disciplined

theorem sound_of_starts (h : Starts a) : Sound a := by
  have hevent : stage a.event = .before ∧ handler a.event ≠ some .find_and_lock ∧
      a.event ≠ .nc_store_action := by
    have hfirst := h.event
    cases hchain : a.chain with
    | find_and_lock | invalidate =>
      rw [hchain] at hfirst
      cases hfirst
    | load | store | nc_store | evict | write_request | read_request | message =>
      rw [hchain] at hfirst
      rw [← Option.some.inj hfirst]
      exact ⟨rfl, by decide, by decide⟩
  constructor
  · rw [hevent.1]
    unfold LogAt
    rw [h.log]
    exact free_nil
  · rw [h.block_not_found]
    intro hmiss
    cases hmiss
  · intro _
    exact h.called
  · intro hlock
    exact absurd hlock hevent.2.1
  · intro hevict
    exact absurd hevict hevent.2.2

/-- Whatever the called chains return, every entry that a chain locks is given back exactly once
before the chain returns or goes back to its lock event, and none is held when it looks for an
entry or waits for one: exactly in the runs where no eviction of a non-coherent store fails. -/
theorem disciplined_iff {run : List (Answer × Access)} (hstart : Starts a)
    (hrun : IsRun (fun a ans t => next a ans = some t) a run) :
    (∀ t ∈ states a run, Disciplined t.log) ↔
      ∀ x ∈ transitions a run, ¬FailedEviction x.1 x.2.1 := by
  refine kept_iff (I := Sound) (P := fun a => Disciplined a.log)
    (C := fun a ans _ => ¬FailedEviction a ans) ?_ ?_ ?_ hrun (sound_of_starts hstart)
  · intro a ha
    exact disciplined_of_logAt ha.log
  · intro a ans t ha hstep hok
    exact next_sound ha hstep hok
  · intro a ans t ha hstep hdisc hfail
    exact next_failed ha hstep hfail hdisc

instance (a : Access) (ans : Answer) : Decidable (FailedEviction a ans) :=
  inferInstanceAs (Decidable (_ ∧ _ ∧ _))

def ncStore : Access where
  chain := .nc_store
  module_type := .Cache
  lock_module_type := .Cache
  event := .nc_store
  frame := ⟨0, 0, .BlockInvalid, false, false, 0, .Invalid, true⟩
  lock_frame := ⟨-1, -1, .BlockInvalid, false, false, false, false, false, .Invalid, false, .load⟩
  called := none
  log := []
  witnessed := 0

theorem starts_ncStore : Starts ncStore := ⟨rfl, rfl, rfl, rfl, rfl, rfl⟩

/-- The store hits a modified block in way 1, whose entry is free or locked; the chain it calls
returns an error or not. -/
def hitModified (locked error : Bool) : Answer :=
  ⟨false, true, 0, 1, 1, .BlockModified, locked, true, error, 0⟩

/-- Up to the eviction: `nc_store`, `nc_store_lock`, the four events of find-and-lock and
`nc_store_writeback`. -/
def toEviction : List Answer := List.replicate 7 (hitModified false false)

/-- When the eviction succeeds, the store returns with its log in order. -/
theorem disciplined_ncStore :
    (final ncStore (trace next ncStore (toEviction ++
      List.replicate 4 (hitModified false false)))).event = .returned ∧
      ∀ t ∈ states ncStore (trace next ncStore (toEviction ++
        List.replicate 4 (hitModified false false))), Disciplined t.log :=
  ⟨by decide, (disciplined_iff starts_ncStore (isRun_trace next ncStore _)).mpr (by decide)⟩

/-- When it fails, the store looks for the entry it still holds, and waits for itself. -/
theorem waits_for_itself :
    Starts ncStore ∧ ∃ run, IsRun (fun a ans t => next a ans = some t) ncStore run ∧
      ∃ t ∈ states ncStore run,
        t.log = [.search, .lock (0, 1), .retry, .search, .wait (0, 1)] ∧ ¬Disciplined t.log := by
  refine ⟨starts_ncStore, trace next ncStore (toEviction ++ hitModified false true ::
    List.replicate 3 (hitModified true false)), isRun_trace next ncStore _, ?_⟩
  obtain ⟨t, ht, hlog⟩ : ∃ t ∈ states ncStore (trace next ncStore (toEviction ++
      hitModified false true :: List.replicate 3 (hitModified true false))),
      t.log = [.search, .lock (0, 1), .retry, .search, .wait (0, 1)] := by decide
  refine ⟨t, ht, hlog, fun hdisc => ?_⟩
  have hretry := hdisc [.search, .lock (0, 1)] .retry [.search, .wait (0, 1)] hlog
  have hcount := hretry.ends trivial [.search] (0, 1) [] rfl (by simp)
  simp at hcount

end MMLMStore.EntryLocks
