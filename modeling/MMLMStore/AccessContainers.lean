import MMLMStore.AccessWaits

/-!
# The containers of the accesses in flight

A module keeps its accesses in flight in a list, in two lists of some of them, in a hash table by
block address and in a set of identifiers, and it counts those that have joined another access.
Entering, joining and finishing keep all of these in step, in whatever order accesses finish.
-/
namespace MMLMStore.AccessContainers

open AccessList AccessWaits StepRuns

def isStore (t : AccessType) : Bool := t = .Store

/-- Accesses in flight of some types, in their order. -/
def inFlight (m : Module) (p : AccessType → Bool) : List ℕ :=
  m.accesses.filter fun i => p (m.frame i).access_type

/-- What `canAccess` compares with the number of miss registers, as an `int`. -/
def num_non_coalesced_accesses (m : Module) : ℤ :=
  (m.accesses.length : ℤ) - m.num_coalesced_accesses

inductive Call
  | StartAccess (i address : ℕ) (access_type : AccessType) (place : ℕ)
  | Coalesce (master i : ℕ)
  | FinishAccess (i : ℕ)
  deriving DecidableEq, Repr

/-- The calls that chains make. A frame that enters is new; one that joins another is in flight and
has not joined any before, and its master, by assertion, has no master. -/
def call (m : Module) : Call → Option Module
  | .StartAccess i address access_type place =>
    if i ∈ m.accesses then none
    else some ((m.put i (.new address access_type .running)).StartAccess i access_type place)
  | .Coalesce master i =>
    if i ∈ m.accesses ∧ (m.frame i).coalesced = false ∧ (m.frame master).master_frame = none then
      some (m.Coalesce master i)
    else none
  | .FinishAccess i => if i ∈ m.accesses then m.FinishAccess i else none

/-- All containers agree with the access list. -/
structure Consistent (m : Module) : Prop where
  nodup : m.accesses.Nodup
  writes : m.write_accesses = inFlight m isStore
  allocs : m.alloc_accesses = inFlight m Module.isAlloc
  table : m.in_flight_block_addresses.Perm (m.accesses.map fun i => (m.block i, i))
  ids : m.in_flight_access_ids = m.accesses
  count : m.num_coalesced_accesses = m.accesses.countP fun i => (m.frame i).coalesced

/-! Lists from which an element is taken out. -/

theorem filter_erase {l : List ℕ} (hl : l.Nodup) (a : ℕ) (p : ℕ → Bool) :
    (l.erase a).filter p = if p a then (l.filter p).erase a else l.filter p := by
  rw [hl.erase_eq_filter, List.filter_filter]
  split_ifs with hp
  · rw [(hl.filter p).erase_eq_filter, List.filter_filter]
    exact List.filter_congr fun x _ => Bool.and_comm _ _
  · refine List.filter_congr fun x _ => ?_
    by_cases hx : x = a
    · rw [hx]
      simp [hp]
    · simp [hx]

theorem countP_erase {l : List ℕ} {a : ℕ} (ha : a ∈ l) (p : ℕ → Bool) :
    (l.erase a).countP p = if p a then l.countP p - 1 else l.countP p := by
  rw [(List.perm_cons_erase ha).countP_eq, List.countP_cons]
  split_ifs with hp
  · rfl
  · rfl

section Steps

variable {m m' : Module} {i : ℕ}

/-- What the containers depend on in a frame. -/
def kind (f : Frame) : ℕ × AccessType × Bool := (f.address, f.access_type, f.coalesced)

structure Alike (m m' : Module) : Prop where
  accesses : m'.accesses = m.accesses
  writes : m'.write_accesses = m.write_accesses
  allocs : m'.alloc_accesses = m.alloc_accesses
  table : m'.in_flight_block_addresses = m.in_flight_block_addresses
  ids : m'.in_flight_access_ids = m.in_flight_access_ids
  count : m'.num_coalesced_accesses = m.num_coalesced_accesses
  log_block_size : m'.log_block_size = m.log_block_size
  kind : ∀ j, kind (m'.frame j) = kind (m.frame j)

theorem Alike.refl (m : Module) : Alike m m := ⟨rfl, rfl, rfl, rfl, rfl, rfl, rfl, fun _ => rfl⟩

theorem Alike.trans {m'' : Module} (h : Alike m m') (h' : Alike m' m'') : Alike m m'' where
  accesses := h'.accesses.trans h.accesses
  writes := h'.writes.trans h.writes
  allocs := h'.allocs.trans h.allocs
  table := h'.table.trans h.table
  ids := h'.ids.trans h.ids
  count := h'.count.trans h.count
  log_block_size := h'.log_block_size.trans h.log_block_size
  kind := fun j => (h'.kind j).trans (h.kind j)

theorem alike_put {f : Frame} (hf : kind f = kind (m.frame i)) : Alike m (m.put i f) := by
  refine ⟨rfl, rfl, rfl, rfl, rfl, rfl, rfl, fun j => ?_⟩
  simp only [Module.put]
  split_ifs with hj
  · rw [hf, hj]
  · rfl

theorem alike_setStatus (i : ℕ) (s : Status) : Alike m (m.setStatus i s) := alike_put rfl

theorem alike_wakeupAll (i : ℕ) : Alike m (m.WakeupAll i) := by
  have hfold : ∀ (l : List (ℕ × Event)) (m : Module),
      Alike m (l.foldl (fun m w => m.setStatus w.1 (.scheduled w.2)) m) := by
    intro l
    induction l with
    | nil => exact Alike.refl
    | cons w l ih => exact fun m => (alike_setStatus _ _).trans (ih _)
  exact (hfold _ m).trans (alike_put rfl)

theorem alike_dropMaster (i : ℕ) : Alike m (m.dropMaster i) := by
  refine ⟨rfl, rfl, rfl, rfl, rfl, rfl, rfl, fun j => ?_⟩
  simp only [Module.dropMaster]
  split_ifs <;> rfl

theorem Alike.inFlight (h : Alike m m') (p : AccessType → Bool) :
    AccessContainers.inFlight m' p = AccessContainers.inFlight m p := by
  have htype : ∀ j, (m'.frame j).access_type = (m.frame j).access_type := fun j =>
    congrArg (fun k => k.2.1) (h.kind j)
  simp only [AccessContainers.inFlight, h.accesses, htype]

theorem Alike.block (h : Alike m m') (j : ℕ) : m'.block j = m.block j := by
  have haddress : (m'.frame j).address = (m.frame j).address := congrArg Prod.fst (h.kind j)
  rw [Module.block, Module.block, haddress, h.log_block_size]

theorem Consistent.alike (h : Consistent m) (ha : Alike m m') : Consistent m' := by
  have hcoalesced : ∀ j, (m'.frame j).coalesced = (m.frame j).coalesced := fun j =>
    congrArg (fun k => k.2.2) (ha.kind j)
  refine ⟨?_, ?_, ?_, ?_, ?_, ?_⟩
  · rw [ha.accesses]
    exact h.nodup
  · rw [ha.writes, ha.inFlight, h.writes]
  · rw [ha.allocs, ha.inFlight, h.allocs]
  · simp only [ha.table, ha.accesses, ha.block]
    exact h.table
  · rw [ha.ids, ha.accesses, h.ids]
  · simp only [ha.count, ha.accesses, hcoalesced]
    exact h.count

theorem started_frame (m : Module) (i address : ℕ) (t t' : AccessType) (s : Status) (place j : ℕ) :
    ((m.put i (.new address t s)).StartAccess i t' place).frame j =
      if j = i then .new address t' s else m.frame j := by
  simp only [Module.StartAccess, Module.put]
  split_ifs <;> rfl

theorem started_frame_of_mem (hi : i ∉ m.accesses) (address : ℕ) (t t' : AccessType) (s : Status)
    (place : ℕ) {j : ℕ} (hj : j ∈ m.accesses) :
    ((m.put i (.new address t s)).StartAccess i t' place).frame j = m.frame j := by
  rw [started_frame, if_neg]
  rintro rfl
  exact hi hj

theorem Consistent.start (h : Consistent m) (hi : i ∉ m.accesses) (address : ℕ) (t t' : AccessType)
    (s : Status) (place : ℕ) :
    Consistent ((m.put i (.new address t s)).StartAccess i t' place) := by
  have hold : ∀ j ∈ m.accesses, ((m.put i (.new address t s)).StartAccess i t' place).frame j =
      m.frame j := fun j hj => started_frame_of_mem hi address t t' s place hj
  have hself : ((m.put i (.new address t s)).StartAccess i t' place).frame i =
      .new address t' s := by
    rw [started_frame, if_pos rfl]
  have hlist : ((m.put i (.new address t s)).StartAccess i t' place).accesses =
      m.accesses ++ [i] := rfl
  have hflight : ∀ p : AccessType → Bool,
      inFlight ((m.put i (.new address t s)).StartAccess i t' place) p =
        if p t' then inFlight m p ++ [i] else inFlight m p := by
    intro p
    have hfront : m.accesses.filter (fun j =>
        p (((m.put i (.new address t s)).StartAccess i t' place).frame j).access_type) =
          inFlight m p := List.filter_congr fun j hj => by rw [hold j hj]
    rw [inFlight, hlist, List.filter_append, hfront, List.filter_singleton, hself]
    cases hp : p t' <;> simp [Frame.new, hp]
  refine ⟨?_, ?_, ?_, ?_, ?_, ?_⟩
  · rw [hlist]
    exact (List.nodup_append_comm.mp (List.nodup_cons.mpr ⟨hi, h.nodup⟩ : ([i] ++ _).Nodup))
  · rw [hflight, ← h.writes]
    simp only [isStore, decide_eq_true_eq]
    rfl
  · rw [hflight, ← h.allocs]
    rfl
  · have hblock : ((m.put i (.new address t s)).StartAccess i t' place).block i =
        address >>> m.log_block_size := by
      rw [Module.block, hself]
      rfl
    have hblocks : ∀ j ∈ m.accesses,
        (((m.put i (.new address t s)).StartAccess i t' place).block j, j) = (m.block j, j) := by
      intro j hj
      rw [Module.block, hold j hj]
      rfl
    have htable : ((m.put i (.new address t s)).StartAccess i t' place).in_flight_block_addresses =
        m.in_flight_block_addresses.take place ++
          (address >>> m.log_block_size, i) :: m.in_flight_block_addresses.drop place := by
      simp [Module.StartAccess, Module.block, Module.put, Frame.new]
    rw [hlist, List.map_append, List.map_congr_left hblocks, List.map_singleton, hblock, htable]
    refine List.perm_middle.trans ?_
    rw [List.take_append_drop]
    exact (h.table.cons _).trans (List.perm_append_singleton _ _).symm
  · exact congrArg (· ++ [i]) h.ids
  · have hfront : m.accesses.countP (fun j =>
        (((m.put i (.new address t s)).StartAccess i t' place).frame j).coalesced) =
          m.accesses.countP fun j => (m.frame j).coalesced :=
      List.countP_congr fun j hj => by rw [hold j hj]
    rw [hlist, List.countP_append, hfront, List.countP_singleton, hself]
    exact h.count

theorem Consistent.coalesce (h : Consistent m) {master : ℕ} (hi : i ∈ m.accesses)
    (hflag : (m.frame i).coalesced = false) : Consistent (m.Coalesce master i) := by
  have hframe : ∀ j, ((m.Coalesce master i).frame j).address = (m.frame j).address ∧
      ((m.Coalesce master i).frame j).access_type = (m.frame j).access_type ∧
      ((m.Coalesce master i).frame j).coalesced = (j = i ∨ (m.frame j).coalesced = true) := by
    intro j
    by_cases hj : j = i
    · simp [Module.Coalesce, Module.put, hj]
    · simp [Module.Coalesce, Module.put, hj]
  have hflight : ∀ p : AccessType → Bool, inFlight (m.Coalesce master i) p = inFlight m p := by
    intro p
    simp only [inFlight, (hframe _).2.1]
    rfl
  have hblock : ∀ j, (m.Coalesce master i).block j = m.block j := by
    intro j
    rw [Module.block, (hframe j).1]
    rfl
  refine ⟨h.nodup, ?_, ?_, ?_, h.ids, ?_⟩
  · rw [hflight]
    exact h.writes
  · rw [hflight]
    exact h.allocs
  · simp only [hblock]
    exact h.table
  · have hperm := List.perm_cons_erase hi
    have hrest : (m.accesses.erase i).countP (fun j => ((m.Coalesce master i).frame j).coalesced) =
        (m.accesses.erase i).countP fun j => (m.frame j).coalesced := by
      refine List.countP_congr fun j hj => ?_
      have hne : j ≠ i := fun heq => h.nodup.not_mem_erase (heq ▸ hj)
      simp [(hframe j).2.2, hne]
    have hnum : (m.Coalesce master i).num_coalesced_accesses = m.num_coalesced_accesses + 1 := rfl
    have hself : ((m.Coalesce master i).frame i).coalesced = true := by simp [(hframe i).2.2]
    have hlist : (m.Coalesce master i).accesses = m.accesses := rfl
    rw [hnum, h.count, hlist, hperm.countP_eq, hperm.countP_eq, List.countP_cons, List.countP_cons,
      hrest, if_pos hself, hflag]
    rfl

theorem Consistent.remove (h : Consistent m) (hi : i ∈ m.accesses) :
    Consistent (m.removeAccess i) := by
  refine ⟨h.nodup.erase i, ?_, ?_, ?_, ?_, ?_⟩
  · simp only [Module.removeAccess, inFlight, filter_erase h.nodup]
    simp only [isStore, decide_eq_true_eq, h.writes]
    rfl
  · simp only [Module.removeAccess, inFlight, filter_erase h.nodup, h.allocs]
  · have hinj : Function.Injective fun j => (m.block j, j) := fun _ _ heq => congrArg Prod.snd heq
    have hmap : (m.accesses.erase i).map (fun j => (m.block j, j)) = _ := List.map_erase hinj _
    simp only [Module.removeAccess]
    exact (h.table.erase (m.block i, i)).trans (List.Perm.of_eq hmap.symm)
  · exact congrArg (fun l => l.erase i) h.ids
  · simp only [Module.removeAccess, countP_erase hi, h.count]

/-- The end of a frame in flight finds the frame in the hash table. -/
theorem Consistent.finish (h : Consistent m) (hi : i ∈ m.accesses) :
    ∃ m', m.FinishAccess i = some m' ∧ Consistent m' := by
  have hmem : (m.block i, i) ∈ m.in_flight_block_addresses :=
    h.table.mem_iff.mpr (List.mem_map_of_mem hi)
  refine ⟨_, if_pos hmem, (h.remove hi).alike ?_⟩
  exact (alike_dropMaster i).trans (alike_wakeupAll i)

/-! Runs of calls. -/

theorem consistent_call (h : Consistent m) {c : Call} (hc : call m c = some m') :
    Consistent m' := by
  cases c with
  | StartAccess i address t place =>
    simp only [call] at hc
    split_ifs at hc with hi
    obtain rfl := Option.some.inj hc
    exact h.start hi address t t .running place
  | Coalesce master i =>
    simp only [call] at hc
    split_ifs at hc with hcond
    obtain rfl := Option.some.inj hc
    exact h.coalesce hcond.1 hcond.2.1
  | FinishAccess i =>
    simp only [call] at hc
    split_ifs at hc with hi
    obtain ⟨m'', hm'', hcons⟩ := h.finish hi
    obtain rfl := Option.some.inj (hc.symm.trans hm'')
    exact hcons

theorem consistent_new (type : ModuleType) (log_block_size : ℕ) :
    Consistent (Module.new type log_block_size) :=
  ⟨List.nodup_nil, rfl, rfl, List.Perm.refl _, rfl, rfl⟩

structure InStep (type : ModuleType) (log_block_size : ℕ) (run : List (Call × Module)) :
    Prop where
  consistent : ∀ m ∈ states (Module.new type log_block_size) run, Consistent m
  counts : ∀ m ∈ states (Module.new type log_block_size) run, 0 ≤ num_non_coalesced_accesses m
  finishes : ∀ m ∈ states (Module.new type log_block_size) run, ∀ i ∈ m.accesses,
    (m.FinishAccess i).isSome = true ∧
      ((m.frame i).coalesced = true → 0 < m.num_coalesced_accesses)

/-- Whatever calls a module sees, its containers agree with the access list, and every access in
flight can finish. -/
theorem inStep_run (type : ModuleType) (log_block_size : ℕ) {run : List (Call × Module)}
    (hrun : IsRun (fun m c m' => call m c = some m') (Module.new type log_block_size) run) :
    InStep type log_block_size run := by
  have hall := invariant_all (fun _ _ _ h hc => consistent_call h hc) hrun
    (consistent_new type log_block_size)
  refine ⟨hall, fun m hm => ?_, fun m hm i hi => ⟨?_, fun hflag => ?_⟩⟩
  · have hle : m.num_coalesced_accesses ≤ m.accesses.length := by
      rw [(hall m hm).count]
      exact List.countP_le_length
    unfold num_non_coalesced_accesses
    omega
  · obtain ⟨m', hm', -⟩ := (hall m hm).finish hi
    rw [hm']
    rfl
  · rw [(hall m hm).count, List.countP_pos_iff]
    exact ⟨i, hi, hflag⟩

/-! The events of the chains make such calls and no others. -/

theorem alike_wait (older i : ℕ) (e : Event) : Alike m (m.Wait older i e) := by
  have hqueue : Alike m
      (m.put older { m.frame older with queue := (m.frame older).queue ++ [(i, e)] }) :=
    alike_put rfl
  exact hqueue.trans (alike_setStatus i .suspended)

theorem alike_waitOrGo (i : ℕ) (o : Option ℕ) : Alike m (m.waitOrGo i o) := by
  cases o with
  | none => exact alike_setStatus i .running
  | some older => exact alike_wait older i .lock

theorem Consistent.coalesceOrLock (h : Consistent m) (hi : i ∈ m.accesses)
    (hflag : (m.frame i).coalesced = false) (t : AccessType) :
    Consistent (m.coalesceOrLock i t) := by
  unfold Module.coalesceOrLock
  cases m.canCoalesce t (m.frame i).address i with
  | none => exact h.alike (alike_setStatus i _)
  | some master => exact (h.coalesce hi hflag).alike (alike_wait master i .finish)

/-- What an action of the events does: an access enters and may join another, one finishes, or
frames change in what no container depends on. -/
inductive Moves (m : Module) : Action → Module → Prop
  | join (i address : ℕ) (t t' : AccessType) (place : ℕ) (hi : m.last_id < i) :
    Moves m (.enter i address t place) ((entered m i address t t' place).coalesceOrLock i t')
  | enter (i address : ℕ) (t t' : AccessType) (place : ℕ) (hi : m.last_id < i) :
    Moves m (.enter i address t place)
      ((entered m i address t t' place).setStatus i (.scheduled .lock))
  | lock (i : ℕ) (o : Option ℕ) (hi : (m.frame i).status = .scheduled .lock) :
    Moves m (.run i) (m.waitOrGo i o)
  | finish (i : ℕ) (m' : Module) (hi : (m.frame i).status = .scheduled .finish)
    (hfin : m.FinishAccess i = some m') : Moves m (.run i) (m'.setStatus i .returned)
  | port (i : ℕ) (locked : Bool) (hi : (m.frame i).status = .running) :
    Moves m (.port i locked) (m.put i { m.frame i with port_locked := locked })
  | retry (i : ℕ) (hi : (m.frame i).status = .running) :
    Moves m (.retry i) (m.setStatus i (.scheduled .lock))
  | complete (i : ℕ) (hi : (m.frame i).status = .running) :
    Moves m (.complete i) (m.setStatus i (.scheduled .finish))

theorem lock_eq_waitOrGo (c : Chain) (i : ℕ) : ∃ o, m.lock c i = m.waitOrGo i o := by
  cases c <;> exact ⟨_, rfl⟩

theorem next_moves {a : Action} (hnext : next m a = some m') : Moves m a m' := by
  cases next_acts hnext with
  | enter i address t place c hi =>
    obtain ⟨t', hjoin | hlock⟩ := first_cases (m := m) c i address t place
    · rw [hjoin]
      exact .join i address t t' place hi
    · rw [hlock]
      exact .enter i address t t' place hi
  | lock i c hrun =>
    obtain ⟨o, ho⟩ := lock_eq_waitOrGo (m := m) c i
    rw [ho]
    exact .lock i o hrun
  | finish i m' hrun hfin =>
    obtain ⟨m'', haccess, rfl⟩ := Option.map_eq_some_iff.mp hfin
    exact .finish i m'' hrun haccess
  | port i locked hrun => exact .port i locked hrun
  | retry i hrun => exact .retry i hrun
  | complete i hrun => exact .complete i hrun

theorem Consistent.entered (h : Consistent m) (hs : Sound m) (hi : m.last_id < i) (address : ℕ)
    (t t' : AccessType) (place : ℕ) :
    Consistent (AccessWaits.entered m i address t t' place) ∧
      ((AccessWaits.entered m i address t t' place).frame i).coalesced = false := by
  have hlast : Consistent { m with last_id := i } :=
    h.alike ⟨rfl, rfl, rfl, rfl, rfl, rfl, rfl, fun _ => rfl⟩
  have hnew : i ∉ m.accesses := fun hmem => absurd (hs.le_last i hmem) (not_le.mpr hi)
  refine ⟨hlast.start hnew address t t' _ place, ?_⟩
  rw [entered_frame, if_pos rfl]
  rfl

theorem Consistent.next (h : Consistent m) (hs : Sound m) {a : Action} (hm : Moves m a m') :
    Consistent m' := by
  cases hm with
  | join i address t t' place hi =>
    obtain ⟨hent, hflag⟩ := h.entered hs hi address t t' place
    exact hent.coalesceOrLock (List.mem_append_right _ List.mem_cons_self) hflag t'
  | enter i address t t' place hi =>
    exact (h.entered hs hi address t t' place).1.alike (alike_setStatus i _)
  | lock i o hi => exact h.alike (alike_waitOrGo i o)
  | finish i m' hi hfin =>
    have hmem : i ∈ m.accesses := (hs.live i).mpr (hi ▸ live_scheduled _)
    obtain ⟨m'', hm'', hcons⟩ := h.finish hmem
    obtain rfl := Option.some.inj (hfin.symm.trans hm'')
    exact hcons.alike (alike_setStatus i _)
  | port i locked hi => exact h.alike (alike_put rfl)
  | retry i hi => exact h.alike (alike_setStatus i _)
  | complete i hi => exact h.alike (alike_setStatus i _)

/-- The containers agree in every run of the events, and the finish event never panics. -/
theorem consistent_events (type : ModuleType) (log_block_size : ℕ) {run : List (Action × Module)}
    (hrun : IsRun (fun m a m' => AccessList.next m a = some m') (Module.new type log_block_size)
      run) :
    ∀ m ∈ states (Module.new type log_block_size) run,
      Consistent m ∧ ∀ i ∈ m.accesses, (m.finish i).isSome = true := by
  have hall := invariant_all (I := fun m => Sound m ∧ Consistent m)
    (fun _ _ _ h hn => ⟨h.1.next hn, h.2.next h.1 (next_moves hn)⟩) hrun
    ⟨sound_new type log_block_size, consistent_new type log_block_size⟩
  intro m hm
  refine ⟨(hall m hm).2, fun i hi => ?_⟩
  obtain ⟨m', hm', -⟩ := (hall m hm).2.finish hi
  rw [Module.finish, hm']
  rfl

end Steps

/-- Two loads of which one joins the other, and a store, finishing out of order. -/
def someCalls : List Call :=
  [.StartAccess 1 0x40 .Load 0, .StartAccess 2 0x44 .Load 0, .Coalesce 1 2,
    .StartAccess 3 0x80 .Store 1, .FinishAccess 1, .FinishAccess 2]

theorem inStep_someCalls :
    (trace call (Module.new .Cache 6) someCalls).map (fun x => x.2.num_coalesced_accesses) =
      [0, 0, 1, 1, 1, 0] ∧
      InStep .Cache 6 (trace call (Module.new .Cache 6) someCalls) :=
  ⟨by decide, inStep_run .Cache 6 (isRun_trace _ _ _)⟩

end MMLMStore.AccessContainers
