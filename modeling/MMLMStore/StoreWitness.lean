import MMLMStore.CacheChains

/-!
# The witness of a store

How often the witness of a store is incremented until the store returns. Joining an older store
counts, every lookup that hits counts, also when it is repeated after a wait or a retry, and every
write request counts, also when it returns an error.
-/
namespace MMLMStore.StoreWitness

open CacheChains StepRuns

/-- The store is joined to an older one. -/
def joins (a : Access) (ans : Answer) : ℕ :=
  if a.event = .store ∧ ans.older = true then 1 else 0

def hits (a : Access) (ans : Answer) : ℕ :=
  if a.event = .find_and_lock_port ∧ ans.hit = true then 1 else 0

/-- The store makes a write request: it has its entry, and the block is not its own yet. -/
def requests (a : Access) (_ : Answer) : ℕ :=
  if a.event = .store_action ∧ a.frame.error = false ∧
    ¬(a.frame.state = .BlockModified ∨ a.frame.state = .BlockExclusive) then 1 else 0

/-- The write request under way, which is going to increment the witness. -/
def pending (a : Access) : ℕ := if a.called = some (.write_request, true) then 1 else 0

/-- What holds of a store with a witness between its events. -/
structure Storing (a : Access) : Prop where
  event : handler a.event = some .store ∨ handler a.event = some .find_and_lock ∨
    a.event = .returned
  witness : a.frame.witness = true
  locking : handler a.event = some .find_and_lock →
    a.lock_frame.write = true ∧ a.lock_frame.witness = true ∧
      a.lock_frame.return_event = .store_action
  called : a.called = none ∨ (a.called = some (.evict, false) ∧ a.event = .find_and_lock_finish) ∨
    (a.called = some (.write_request, true) ∧ a.event = .store_unlock)

variable {a b t : Access} {ans : Answer} {e : Event}

theorem pending_none (h : a.called = none) : pending a = 0 := by
  simp [pending, h]

theorem storing_next (hwitness : b.frame.witness = true) (hcalled : b.called = none)
    (he : handler e = some .store) : Storing (b.Next e) where
  event := Or.inl he
  witness := hwitness
  locking h := by
    have h' : handler e = some .find_and_lock := h
    rw [he] at h'
    cases h'
  called := Or.inl hcalled

theorem storing_locking (hevent : handler t.event = some .find_and_lock)
    (hwitness : t.frame.witness = true)
    (hlocking : t.lock_frame.write = true ∧ t.lock_frame.witness = true ∧
      t.lock_frame.return_event = .store_action)
    (hcalled : t.called = none ∨
      (t.called = some (.evict, false) ∧ t.event = .find_and_lock_finish)) : Storing t where
  event := Or.inr (Or.inl hevent)
  witness := hwitness
  locking _ := hlocking
  called := by
    rcases hcalled with h | h
    · exact Or.inl h
    · exact Or.inr (Or.inl h)

theorem storing_return (hwitness : b.frame.witness = true) (hcalled : b.called = none) :
    Storing b.Return where
  event := Or.inr (Or.inr rfl)
  witness := hwitness
  locking h := by cases h
  called := Or.inl hcalled

/-- A called chain returns: a write request increments the witness. -/
theorem Storing.resume (ha : Storing a) (error : Bool) :
    Storing (a.resume error) ∧ (a.resume error).witnessed = a.witnessed + pending a := by
  rcases ha.called with hnone | ⟨hevict, hevent⟩ | ⟨hwrite, hevent⟩
  · rw [resume_none hnone, pending_none hnone]
    exact ⟨ha, rfl⟩
  · have heq : a.resume error =
        { a with called := none, lock_frame := { a.lock_frame with error := error } } := by
      simp [Access.resume, hevict, hevent, Access.increment]
    rw [heq]
    refine ⟨⟨ha.event, ha.witness, ha.locking, Or.inl rfl⟩, ?_⟩
    simp [pending, hevict]
  · have heq : a.resume error =
        { a with
          called := none
          witnessed := a.witnessed + 1
          frame := { a.frame with error := error } } := by
      simp [Access.resume, hwrite, hevent, Access.increment, Access.setError]
    rw [heq]
    refine ⟨⟨ha.event, ha.witness, ha.locking, Or.inl rfl⟩, ?_⟩
    simp [pending, hwrite]

/-- What a step counts, and what it leaves for the chain it calls to count. -/
def Counted (b : Access) (ans : Answer) (t : Access) : Prop :=
  t.witnessed + pending t = b.witnessed + (joins b ans + hits b ans + requests b ans)

theorem counted_of_silent (hwitnessed : t.witnessed = b.witnessed) (hcalled : pending t = 0)
    (hjoins : joins b ans = 0) (hhits : hits b ans = 0) (hrequests : requests b ans = 0) :
    Counted b ans t := by
  unfold Counted
  omega

theorem EventStoreHandler_counts (hb : Storing b) (hcalled : b.called = none)
    (h : EventStoreHandler b ans = some t) : Storing t ∧ Counted b ans t := by
  unfold EventStoreHandler at h
  split at h
  · -- store
    rename_i hevent
    obtain rfl := Option.some.inj h
    split_ifs with holder
    · rw [hb.witness]
      refine ⟨storing_next (b := b.increment true) hb.witness hcalled rfl, ?_⟩
      have hpending : pending ((b.increment true).Next .store_finish) = 0 := pending_none hcalled
      have hone : ((b.increment true).Next .store_finish).witnessed = b.witnessed + 1 := rfl
      have hjoins : joins b ans = 1 := by simp [joins, hevent, holder]
      have hhits : hits b ans = 0 := by simp [hits, hevent]
      have hrequests : requests b ans = 0 := by simp [requests, hevent]
      unfold Counted
      omega
    · refine ⟨storing_next hb.witness hcalled rfl,
        counted_of_silent rfl (pending_none hcalled) ?_ ?_ ?_⟩
      · simp [joins, holder]
      · simp [hits, hevent]
      · simp [requests, hevent]
  · -- store_lock
    rename_i hevent
    obtain rfl := Option.some.inj h
    have hjoins : joins b ans = 0 := by simp [joins, hevent]
    have hhits : hits b ans = 0 := by simp [hits, hevent]
    have hrequests : requests b ans = 0 := by simp [requests, hevent]
    split_ifs
    · exact ⟨storing_next hb.witness hcalled rfl,
        counted_of_silent rfl (pending_none hcalled) hjoins hhits hrequests⟩
    · exact ⟨storing_locking rfl hb.witness ⟨rfl, hb.witness, rfl⟩ (Or.inl hcalled),
        counted_of_silent rfl (pending_none hcalled) hjoins hhits hrequests⟩
  · -- store_action
    rename_i hevent
    obtain rfl := Option.some.inj h
    have hjoins : joins b ans = 0 := by simp [joins, hevent]
    have hhits : hits b ans = 0 := by simp [hits, hevent]
    split_ifs with herror hstate
    · refine ⟨storing_next (b := b.record .retry) hb.witness hcalled rfl,
        counted_of_silent rfl (pending_none hcalled) hjoins hhits ?_⟩
      simp [requests, herror]
    · refine ⟨storing_next hb.witness hcalled rfl,
        counted_of_silent rfl (pending_none hcalled) hjoins hhits ?_⟩
      simp [requests, hstate]
    · rw [hb.witness]
      have hpending : pending (b.Call .write_request true .store_unlock) = 1 := rfl
      have hsame : (b.Call .write_request true .store_unlock).witnessed = b.witnessed := rfl
      have hrequests : requests b ans = 1 := by simp [requests, hevent, herror, hstate]
      constructor
      · exact ⟨Or.inl rfl, hb.witness, fun h => (by cases h),
          Or.inr (Or.inr ⟨rfl, rfl⟩)⟩
      · unfold Counted
        omega
  · -- store_unlock
    rename_i hevent
    obtain rfl := Option.some.inj h
    have hjoins : joins b ans = 0 := by simp [joins, hevent]
    have hhits : hits b ans = 0 := by simp [hits, hevent]
    have hrequests : requests b ans = 0 := by simp [requests, hevent]
    split_ifs
    · exact ⟨storing_next (b := b.UnlockEntry.record .retry) hb.witness hcalled rfl,
        counted_of_silent rfl (pending_none hcalled) hjoins hhits hrequests⟩
    · exact ⟨storing_next (b := b.UnlockEntry) hb.witness hcalled rfl,
        counted_of_silent rfl (pending_none hcalled) hjoins hhits hrequests⟩
  · -- store_finish
    rename_i hevent
    obtain rfl := Option.some.inj h
    refine ⟨storing_return hb.witness hcalled,
      counted_of_silent rfl (pending_none hcalled) ?_ ?_ ?_⟩
    · simp [joins, hevent]
    · simp [hits, hevent]
    · simp [requests, hevent]
  · cases h

theorem increment_hit (hevent : b.event = .find_and_lock_port) (hwrite : b.lock_frame.write = true)
    (hwitness : b.lock_frame.witness = true) :
    b.increment (b.lock_frame.write && ans.hit && b.lock_frame.witness) =
      { b with witnessed := b.witnessed + hits b ans } := by
  cases hhit : ans.hit
  · simp [Access.increment, hits, hhit]
  · simp [Access.increment, hits, hhit, hevent, hwrite, hwitness]

theorem EventFindAndLockPort_counts (hb : Storing b) (hcalled : b.called = none)
    (hevent : b.event = .find_and_lock_port) :
    Storing (EventFindAndLockPort b ans) ∧ Counted b ans (EventFindAndLockPort b ans) := by
  have hlocking := hb.locking (by rw [hevent]; rfl)
  have hreturn : handler b.lock_frame.return_event = some .store := by
    rw [hlocking.2.2]
    rfl
  have hjoins : joins b ans = 0 := by simp [joins, hevent]
  have hrequests : requests b ans = 0 := by simp [requests, hevent]
  have hcounted : ∀ t : Access, t.called = none → t.witnessed = b.witnessed + hits b ans →
      Counted b ans t := by
    intro t ht hwitnessed
    have hpending := pending_none ht
    unfold Counted
    omega
  unfold EventFindAndLockPort
  rw [increment_hit hevent hlocking.1 hlocking.2.1]
  dsimp only
  generalize (if ans.hit = true then ans.way else ans.victim) = way
  split_ifs
  · -- the block is not found
    refine ⟨storing_next (b := { b with
      witnessed := b.witnessed + hits b ans
      frame := { b.frame with block_not_found := true }
      lock_frame := _ }) hb.witness hcalled hreturn, hcounted _ hcalled rfl⟩
  · -- wait for the entry
    exact ⟨storing_locking rfl hb.witness hlocking (Or.inl hcalled), hcounted _ hcalled rfl⟩
  · refine ⟨storing_next (b := Access.setError { b with
      witnessed := b.witnessed + hits b ans
      lock_frame := _ } true) hb.witness hcalled hreturn, hcounted _ hcalled rfl⟩
  · exact ⟨storing_locking rfl hb.witness hlocking (Or.inl hcalled), hcounted _ hcalled rfl⟩

theorem EventFindAndLockHandler_counts (hb : Storing b) (hcalled : b.called = none)
    (h : EventFindAndLockHandler b ans = some t) : Storing t ∧ Counted b ans t := by
  unfold EventFindAndLockHandler at h
  split at h
  · -- find_and_lock
    rename_i hevent
    have hlocking := hb.locking (by rw [hevent]; rfl)
    obtain rfl := Option.some.inj h
    refine ⟨storing_locking rfl hb.witness hlocking (Or.inl hcalled),
      counted_of_silent rfl (pending_none hcalled) ?_ ?_ ?_⟩
    · simp [joins, hevent]
    · simp [hits, hevent]
    · simp [requests, hevent]
  · -- find_and_lock_port
    rename_i hevent
    obtain rfl := Option.some.inj h
    exact EventFindAndLockPort_counts hb hcalled hevent
  · -- find_and_lock_action
    rename_i hevent
    have hlocking := hb.locking (by rw [hevent]; rfl)
    obtain rfl := Option.some.inj h
    have hjoins : joins b ans = 0 := by simp [joins, hevent]
    have hhits : hits b ans = 0 := by simp [hits, hevent]
    have hrequests : requests b ans = 0 := by simp [requests, hevent]
    split_ifs
    · exact ⟨storing_locking rfl hb.witness hlocking (Or.inr ⟨rfl, rfl⟩),
        counted_of_silent rfl rfl hjoins hhits hrequests⟩
    · exact ⟨storing_locking rfl hb.witness hlocking (Or.inl hcalled),
        counted_of_silent rfl (pending_none hcalled) hjoins hhits hrequests⟩
  · -- find_and_lock_finish
    rename_i hevent
    have hlocking := hb.locking (by rw [hevent]; rfl)
    have hreturn : handler b.lock_frame.return_event = some .store := by
      rw [hlocking.2.2]
      rfl
    obtain rfl := Option.some.inj h
    have hjoins : joins b ans = 0 := by simp [joins, hevent]
    have hhits : hits b ans = 0 := by simp [hits, hevent]
    have hrequests : requests b ans = 0 := by simp [requests, hevent]
    unfold EventFindAndLockFinish
    by_cases herror : b.lock_frame.error = true
    · rw [if_pos herror]
      exact ⟨storing_next (b := Access.setError (b.record
          (.unlock (b.lock_frame.set, b.lock_frame.way))) true) hb.witness hcalled hreturn,
        counted_of_silent rfl (pending_none hcalled) hjoins hhits hrequests⟩
    · rw [if_neg herror]
      exact ⟨storing_next (b := { b with
          frame := { b.frame with
            error := false, set := b.lock_frame.set, way := b.lock_frame.way, state := _ } })
          hb.witness hcalled hreturn,
        counted_of_silent rfl (pending_none hcalled) hjoins hhits hrequests⟩
  · cases h

/-- One step of a store: what it counts reaches the witness, at once or with the return of the write
request. -/
theorem next_counts (ha : Storing a) (h : next a ans = some t) :
    Storing t ∧ t.witnessed + pending t =
      a.witnessed + pending a + (joins a ans + hits a ans + requests a ans) := by
  obtain ⟨hb, hwitnessed⟩ := ha.resume ans.error
  have hcalled := resume_called a ans.error
  have hevent := resume_event a ans.error
  have hjoins : joins (a.resume ans.error) ans = joins a ans := by simp [joins, hevent]
  have hhits : hits (a.resume ans.error) ans = hits a ans := by simp [hits, hevent]
  have hrequests : requests (a.resume ans.error) ans = requests a ans := by
    rcases ha.called with hnone | ⟨-, hfinish⟩ | ⟨-, hunlock⟩
    · rw [resume_none hnone]
    · simp [requests, hevent, hfinish]
    · simp [requests, hevent, hunlock]
  have hcounts : Storing t ∧ Counted (a.resume ans.error) ans t := by
    rcases ha.event with hhandler | hhandler | hreturned
    · simp only [next, hhandler] at h
      exact EventStoreHandler_counts hb hcalled h
    · simp only [next, hhandler] at h
      exact EventFindAndLockHandler_counts hb hcalled h
    · simp [next, hreturned, handler] at h
  obtain ⟨ht, hcounted⟩ := hcounts
  refine ⟨ht, ?_⟩
  unfold Counted at hcounted
  omega

/-! The write request that a store makes. -/

/-- What holds of an up-down write request with a witness between its events. -/
structure Requesting (a : Access) : Prop where
  direction : a.frame.request_direction = .UpDown
  witness : a.frame.witness = true
  called : ∀ c w, a.called = some (c, w) → w = false
  locking : handler a.event = some .find_and_lock →
    a.lock_frame.witness = false ∧ handler a.lock_frame.return_event = some .write_request
  counted : (handler a.event = some .write_request ∨ handler a.event = some .find_and_lock) ∧
      a.witnessed = 0 ∨
    a.event = .returned ∧ a.witnessed = 1

theorem Requesting.resume (ha : Requesting a) (error : Bool) : Requesting (a.resume error) := by
  have hsame : (a.resume error).witnessed = a.witnessed := by
    unfold Access.resume
    split
    · rfl
    · rfl
    · rename_i c w _ hcalled
      have hsilent : Access.increment { a with called := none } w = { a with called := none } := by
        rw [ha.called c w hcalled]
        rfl
      dsimp only
      rw [hsilent]
      split_ifs <;> rfl
  obtain ⟨frameError, lockError, witnessed, heq⟩ := resume_eq a error
  rw [heq] at hsame ⊢
  have hwitnessed : witnessed = a.witnessed := hsame
  rw [hwitnessed]
  exact ⟨ha.direction, ha.witness, fun c w h => (by cases h), ha.locking, ha.counted⟩

theorem Requesting.not_counted (ha : Requesting a) (hevent : a.event ≠ .returned) :
    a.witnessed = 0 := by
  rcases ha.counted with ⟨-, hzero⟩ | ⟨hreturned, -⟩
  · exact hzero
  · exact absurd hreturned hevent

theorem requesting_of_event (hevent : handler t.event = some .write_request)
    (hdirection : t.frame.request_direction = .UpDown) (hwitness : t.frame.witness = true)
    (hcalled : ∀ c w, t.called = some (c, w) → w = false) (hzero : t.witnessed = 0) :
    Requesting t where
  direction := hdirection
  witness := hwitness
  called := hcalled
  locking h := by
    rw [hevent] at h
    cases h
  counted := Or.inl ⟨Or.inl hevent, hzero⟩

/-- To an event of find-and-lock, which is not given the witness. -/
theorem requesting_locking (hevent : handler t.event = some .find_and_lock)
    (hdirection : t.frame.request_direction = .UpDown) (hwitness : t.frame.witness = true)
    (hcalled : ∀ c w, t.called = some (c, w) → w = false) (hzero : t.witnessed = 0)
    (hlock : t.lock_frame.witness = false)
    (hreturn : handler t.lock_frame.return_event = some .write_request) : Requesting t where
  direction := hdirection
  witness := hwitness
  called := hcalled
  locking _ := ⟨hlock, hreturn⟩
  counted := Or.inl ⟨Or.inr hevent, hzero⟩

theorem EventWriteRequestHandler_requesting (hb : Requesting b)
    (h : EventWriteRequestHandler b ans = some t) : Requesting t := by
  have hnone := hb.called
  have hdirection := hb.direction
  have hwitness := hb.witness
  have hzero : b.witnessed = 0 := hb.not_counted fun hreturned => by
    simp [EventWriteRequestHandler, hreturned] at h
  have hcall : ∀ (c c' : Chain) (w : Bool), some (c, false) = some (c', w) → w = false := by
    intro c c' w heq
    exact (Prod.mk.inj (Option.some.inj heq)).2.symm
  unfold EventWriteRequestHandler at h
  split at h
  · -- write_request
    obtain rfl := Option.some.inj h
    split_ifs
    · exact requesting_of_event rfl hdirection hwitness hnone hzero
    · exact requesting_of_event rfl hdirection hwitness hnone hzero
  · -- write_request_receive
    obtain rfl := Option.some.inj h
    exact requesting_locking rfl hdirection hwitness hnone hzero rfl rfl
  · -- write_request_action
    obtain rfl := Option.some.inj h
    split_ifs
    · exact requesting_of_event rfl hdirection hwitness hnone hzero
    · exact requesting_of_event rfl hdirection hwitness hnone hzero
    · exact requesting_of_event rfl hdirection hwitness hnone hzero
    · exact requesting_of_event rfl hdirection hwitness (hcall .invalidate) hzero
  · -- write_request_exclusive
    obtain rfl := Option.some.inj h
    rw [if_pos hdirection]
    exact requesting_of_event rfl hdirection hwitness hnone hzero
  · -- write_request_updown: the request to the next level has no witness
    obtain rfl := Option.some.inj h
    split_ifs
    · exact requesting_of_event rfl hdirection hwitness hnone hzero
    · exact requesting_of_event rfl hdirection hwitness (hcall .write_request) hzero
  · -- write_request_updown_finish
    obtain rfl := Option.some.inj h
    split_ifs
    · exact requesting_of_event rfl hdirection hwitness hnone hzero
    · exact requesting_of_event rfl hdirection hwitness hnone hzero
  · -- write_request_downup
    split_ifs at h
    obtain rfl := Option.some.inj h
    exact requesting_of_event rfl hdirection hwitness hnone hzero
  · -- write_request_downup_finish
    obtain rfl := Option.some.inj h
    exact requesting_of_event rfl hdirection hwitness hnone hzero
  · -- write_request_reply
    obtain rfl := Option.some.inj h
    split_ifs
    · exact requesting_of_event rfl hdirection hwitness hnone hzero
    · exact requesting_of_event rfl hdirection hwitness hnone hzero
  · -- write_request_finish
    obtain rfl := Option.some.inj h
    have hwitnessed : b.increment (decide (b.frame.request_direction = .UpDown) &&
        b.frame.witness) = { b with witnessed := 1 } := by
      simp [hdirection, hwitness, hzero, Access.increment]
    rw [hwitnessed]
    exact ⟨hdirection, hwitness, hnone, fun h => (by cases h), Or.inr ⟨rfl, rfl⟩⟩
  · cases h

theorem EventFindAndLockHandler_requesting (hb : Requesting b)
    (hevent : handler b.event = some .find_and_lock)
    (h : EventFindAndLockHandler b ans = some t) : Requesting t := by
  have hnone := hb.called
  have hdirection := hb.direction
  have hwitness := hb.witness
  obtain ⟨hlock, hreturn⟩ := hb.locking hevent
  have hzero : b.witnessed = 0 := hb.not_counted fun hreturned => by
    simp [EventFindAndLockHandler, hreturned] at h
  unfold EventFindAndLockHandler at h
  split at h
  · -- find_and_lock
    obtain rfl := Option.some.inj h
    exact requesting_locking rfl hdirection hwitness hnone hzero hlock hreturn
  · -- find_and_lock_port
    obtain rfl := Option.some.inj h
    have hsilent : b.increment (b.lock_frame.write && ans.hit && b.lock_frame.witness) = b := by
      rw [hlock, Bool.and_false]
      rfl
    unfold EventFindAndLockPort
    rw [hsilent]
    dsimp only
    generalize (if ans.hit = true then ans.way else ans.victim) = way
    split_ifs
    · exact requesting_of_event hreturn hdirection hwitness hnone hzero
    · exact requesting_locking rfl hdirection hwitness hnone hzero hlock hreturn
    · exact requesting_of_event hreturn hdirection hwitness hnone hzero
    · exact requesting_locking rfl hdirection hwitness hnone hzero hlock hreturn
  · -- find_and_lock_action
    obtain rfl := Option.some.inj h
    split_ifs
    · refine requesting_locking rfl hdirection hwitness ?_ hzero hlock hreturn
      intro c w heq
      exact (Prod.mk.inj (Option.some.inj heq)).2.symm
    · exact requesting_locking rfl hdirection hwitness hnone hzero hlock hreturn
  · -- find_and_lock_finish
    obtain rfl := Option.some.inj h
    unfold EventFindAndLockFinish
    by_cases herror : b.lock_frame.error = true
    · rw [if_pos herror]
      exact requesting_of_event hreturn hdirection hwitness hnone hzero
    · rw [if_neg herror]
      exact requesting_of_event hreturn hdirection hwitness hnone hzero
  · cases h

theorem next_requesting (ha : Requesting a) (h : next a ans = some t) : Requesting t := by
  have hb := ha.resume ans.error
  rcases ha.counted with ⟨hhandler | hhandler, -⟩ | ⟨hreturned, -⟩
  · simp only [next, hhandler] at h
    exact EventWriteRequestHandler_requesting hb h
  · simp only [next, hhandler] at h
    refine EventFindAndLockHandler_requesting hb ?_ h
    rw [resume_event]
    exact hhandler
  · simp [next, hreturned, handler] at h

/-- A write request that is given the witness has incremented it once when it returns, whether or
not with an error, and not before: what `resume` does in the chain that called it. -/
theorem request_increments_once {run : List (Answer × Access)} (hstart : Starts a)
    (hchain : a.chain = .write_request) (hdirection : a.frame.request_direction = .UpDown)
    (hwitness : a.frame.witness = true)
    (hrun : IsRun (fun a ans t => next a ans = some t) a run) :
    ∀ t ∈ states a run, t.witnessed = if t.event = .returned then 1 else 0 := by
  have hfirst := hstart.event
  rw [hchain] at hfirst
  have hevent : handler a.event = some .write_request := by
    rw [← Option.some.inj hfirst]
    rfl
  have ha : Requesting a := by
    refine requesting_of_event hevent hdirection hwitness ?_ hstart.witnessed
    intro c w h
    rw [hstart.called] at h
    cases h
  intro t ht
  have hcounted := (invariant_all (fun a ans t ha h => next_requesting ha h) hrun ha t ht).counted
  rcases hcounted with ⟨hhandler, hzero⟩ | ⟨hreturned, hone⟩
  · rw [if_neg, hzero]
    intro hreturned
    rw [hreturned] at hhandler
    rcases hhandler with h | h
    · cases h
    · cases h
  · rw [if_pos hreturned, hone]

/-! Whole stores. -/

theorem storing_of_starts (hstart : Starts a) (hstore : a.chain = .store)
    (hwitness : a.frame.witness = true) : Storing a := by
  have hfirst := hstart.event
  rw [hstore] at hfirst
  have hevent : a.event = .store := (Option.some.inj hfirst).symm
  constructor
  · rw [hevent]
    exact Or.inl rfl
  · exact hwitness
  · rw [hevent]
    intro h
    cases h
  · exact Or.inl hstart.called

theorem Storing.pending_returned (ha : Storing a) (hreturned : a.event = .returned) :
    pending a = 0 := by
  rcases ha.called with hnone | ⟨-, hevent⟩ | ⟨-, hevent⟩
  · exact pending_none hnone
  · rw [hreturned] at hevent
    cases hevent
  · rw [hreturned] at hevent
    cases hevent

theorem witnessed_eq_total {run : List (Answer × Access)} (hstart : Starts a)
    (hstore : a.chain = .store) (hwitness : a.frame.witness = true)
    (hrun : IsRun (fun a ans t => next a ans = some t) a run)
    (hreturned : (final a run).event = .returned) :
    (final a run).witnessed = total joins a run + total hits a run + total requests a run := by
  have hstoring := storing_of_starts hstart hstore hwitness
  obtain ⟨hfinal, htotal⟩ := final_eq_total Storing (fun a => a.witnessed + pending a)
    (fun a ans => joins a ans + hits a ans + requests a ans)
    (fun _ _ _ ha hstep => next_counts ha hstep) hrun hstoring
  rw [total_add (fun a ans => joins a ans + hits a ans), total_add] at htotal
  have hlast := hfinal.pending_returned hreturned
  have hfirst := pending_none hstart.called
  have hzero := hstart.witnessed
  omega

/-- A store has incremented its witness exactly once when it returns, exactly if it joined an older
store, or one of its lookups hit and it made no write request, or none hit and it made one. -/
theorem incremented_once_iff {run : List (Answer × Access)} (hstart : Starts a)
    (hstore : a.chain = .store) (hwitness : a.frame.witness = true)
    (hrun : IsRun (fun a ans t => next a ans = some t) a run)
    (hreturned : (final a run).event = .returned) :
    (final a run).witnessed = 1 ↔
      (total joins a run = 1 ∧ total hits a run = 0 ∧ total requests a run = 0) ∨
      (total joins a run = 0 ∧ total hits a run = 1 ∧ total requests a run = 0) ∨
      (total joins a run = 0 ∧ total hits a run = 0 ∧ total requests a run = 1) := by
  rw [witnessed_eq_total hstart hstore hwitness hrun hreturned]
  omega

/-- A store to a cache with a witness. -/
def store : Access where
  chain := .store
  module_type := .Cache
  lock_module_type := .Cache
  event := .store
  frame := ⟨0, 0, .BlockInvalid, false, false, 0, .Invalid, true⟩
  lock_frame := ⟨-1, -1, .BlockInvalid, false, false, false, false, false, .Invalid, false, .load⟩
  called := none
  log := []
  witnessed := 0

theorem starts_store : Starts store := ⟨rfl, rfl, rfl, rfl, rfl, rfl⟩

def hitIn (state : CacheReplacement.BlockState) : Answer :=
  ⟨false, true, 0, 1, 1, state, false, true, false, 0⟩

/-- A store that hits an exclusive block. -/
theorem incremented_once_exclusive :
    (final store (trace next store (List.replicate 9 (hitIn .BlockExclusive)))).witnessed = 1 :=
  (incremented_once_iff starts_store rfl rfl (isRun_trace next store _) (by decide)).mpr (by decide)

/-- A store that hits a shared block increments at the lookup and at the end of the write
request. -/
theorem incremented_twice_shared :
    Starts store ∧ store.chain = .store ∧ store.frame.witness = true ∧
      ∃ run, IsRun (fun a ans t => next a ans = some t) store run ∧
        (final store run).event = .returned ∧ (final store run).witnessed = 2 := by
  refine ⟨starts_store, rfl, rfl, trace next store (List.replicate 9 (hitIn .BlockShared)),
    isRun_trace next store _, ?_, ?_⟩
  · decide
  · decide

end MMLMStore.StoreWitness
