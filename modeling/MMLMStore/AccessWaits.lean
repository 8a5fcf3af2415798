import MMLMStore.AccessList

/-!
# Accesses wait for older accesses

Whatever the lock events and the coalescing find, it is in flight and in front of the access that
asks. So the queues of a module lead back along the access list: no access waits for itself through
others, and none waits for an access that has finished.
-/
namespace MMLMStore.AccessWaits

open AccessList StepRuns

def Live (s : Status) : Prop := s ≠ .absent ∧ s ≠ .returned

theorem live_scheduled (e : Event) : Live (.scheduled e) := ⟨by simp, by simp⟩

theorem live_suspended : Live .suspended := ⟨by simp, by simp⟩

theorem live_running : Live .running := ⟨by simp, by simp⟩

theorem not_live_returned : ¬Live .returned := fun h => h.2 rfl

variable {m : Module}

/-- What all handlers keep: the list is in the order of entry, the hash table has the accesses in
flight, and masters and waited-for accesses are in flight and older. -/
structure Sound (m : Module) : Prop where
  sorted : m.accesses.Pairwise (· < ·)
  le_last : ∀ i ∈ m.accesses, i ≤ m.last_id
  live : ∀ i, i ∈ m.accesses ↔ Live (m.frame i).status
  table : ∀ e, e ∈ m.in_flight_block_addresses ↔ e.2 ∈ m.accesses ∧ e.1 = m.block e.2
  table_nodup : m.in_flight_block_addresses.Nodup
  master : ∀ i ∈ m.accesses, ∀ g, (m.frame i).master_frame = some g → g ∈ m.accesses ∧ g < i
  queue : ∀ g, ∀ w ∈ (m.frame g).queue,
    g ∈ m.accesses ∧ g < w.1 ∧ (m.frame w.1).status = .suspended
  unique : ∀ g, ∀ w ∈ (m.frame g).queue, ∀ g', ∀ w' ∈ (m.frame g').queue, w.1 = w'.1 → g = g'
  waits : ∀ i, (m.frame i).status = .suspended → ∃ g e, (i, e) ∈ (m.frame g).queue

@[simp] theorem put_frame (i j : ℕ) (f : Frame) :
    (m.put i f).frame j = if j = i then f else m.frame j := rfl

@[simp] theorem setStatus_frame (i j : ℕ) (s : Status) :
    (m.setStatus i s).frame j =
      if j = i then { m.frame i with status := s } else m.frame j := rfl

theorem mem_takeWhile_iff {l : List ℕ} (hl : l.Pairwise (· < ·)) {i : ℕ} (hi : i ∈ l) (g : ℕ) :
    g ∈ l.takeWhile (fun j => j ≠ i) ↔ g ∈ l ∧ g < i := by
  induction l with
  | nil => simp at hi
  | cons a l ih =>
    obtain ⟨ha, hrest⟩ := List.pairwise_cons.mp hl
    by_cases hai : a = i
    · subst hai
      simp only [ne_eq, not_true_eq_false, decide_false, List.takeWhile_cons, Bool.false_eq_true,
        if_false, List.not_mem_nil, false_iff]
      intro hg
      rcases List.mem_cons.mp hg.1 with rfl | hmem
      · exact lt_irrefl _ hg.2
      · exact lt_asymm hg.2 (ha g hmem)
    · have hi' : i ∈ l := (List.mem_cons.mp hi).resolve_left fun h => hai h.symm
      rw [List.takeWhile_cons_of_pos (by simp [hai]), List.mem_cons, List.mem_cons, ih hrest hi']
      constructor
      · intro hg
        rcases hg with rfl | hg
        · exact ⟨Or.inl rfl, ha i hi'⟩
        · exact ⟨Or.inr hg.1, hg.2⟩
      · intro hg
        rcases hg.1 with rfl | hmem
        · exact Or.inl rfl
        · exact Or.inr ⟨hmem, hg.2⟩

theorem Sound.mem_rewind (h : Sound m) {i : ℕ} (hi : i ∈ m.accesses) (g : ℕ) :
    g ∈ m.rewind i ↔ g ∈ m.accesses ∧ g < i := by
  rw [Module.rewind, List.mem_reverse, mem_takeWhile_iff h.sorted hi]

/-! What the searches find. -/

theorem getInFlightWrite_mem {i g : ℕ} (hg : m.getInFlightWrite i = some g) : g ∈ m.rewind i :=
  List.mem_of_find?_eq_some hg

theorem getInFlightAlloc_mem {i g : ℕ} (hg : m.getInFlightAlloc i = some g) : g ∈ m.rewind i :=
  List.mem_of_find?_eq_some hg

theorem previous_mem {i g : ℕ} (hg : m.previous i = some g) : g ∈ m.rewind i :=
  List.mem_of_head? hg

theorem getInFlightAddress_mem {address i g : ℕ} (hg : m.getInFlightAddress address i = some g) :
    ∃ b, (b, g) ∈ m.in_flight_block_addresses ∧ g < i := by
  obtain ⟨e, hfind, rfl⟩ := Option.map_eq_some_iff.mp hg
  have hcond := List.find?_some hfind
  simp only [decide_eq_true_eq] at hcond
  exact ⟨e.1, List.mem_of_find?_eq_some hfind, hcond.2⟩

theorem master_cases {j g : ℕ} (hg : (m.frame j).master_frame.getD j = g) :
    g = j ∨ (m.frame j).master_frame = some g := by
  cases hmaster : (m.frame j).master_frame with
  | none =>
    rw [hmaster] at hg
    exact Or.inl hg.symm
  | some g' =>
    rw [hmaster] at hg
    exact Or.inr (congrArg some hg)

theorem coalesceLoad_mem {address g : ℕ} {l : List ℕ} (hg : m.coalesceLoad address l = some g) :
    ∃ j ∈ l, g = j ∨ (m.frame j).master_frame = some g := by
  induction l with
  | nil => cases hg
  | cons j l ih =>
    unfold Module.coalesceLoad at hg
    split_ifs at hg
    · exact ⟨j, List.mem_cons_self, master_cases (Option.some.inj hg)⟩
    · obtain ⟨j', hj', hor⟩ := ih hg
      exact ⟨j', List.mem_cons_of_mem j hj', hor⟩

theorem coalesceLast_mem {t : AccessType} {address g : ℕ} {l : List ℕ}
    (hg : m.coalesceLast t address l = some g) :
    ∃ j ∈ l, g = j ∨ (m.frame j).master_frame = some g := by
  cases l with
  | nil => cases hg
  | cons j l =>
    simp only [Module.coalesceLast] at hg
    split_ifs at hg
    exact ⟨j, List.mem_cons_self, master_cases (Option.some.inj hg)⟩

theorem canCoalesce_mem {t : AccessType} {address i g : ℕ}
    (hg : m.canCoalesce t address i = some g) :
    ∃ j ∈ m.rewind i, g = j ∨ (m.frame j).master_frame = some g := by
  unfold Module.canCoalesce at hg
  split_ifs at hg
  cases t with
  | Load => exact coalesceLoad_mem hg
  | Store => exact coalesceLast_mem hg
  | NCStore => exact coalesceLast_mem hg
  | ReadAlloc => cases hg
  | NoReadAlloc => cases hg
  | WriteDealloc => cases hg
  | NoWriteDealloc => cases hg

def Older (m : Module) (i g : ℕ) : Prop := g ∈ m.accesses ∧ g < i

theorem Sound.older_of_rewind (h : Sound m) {i : ℕ} (hi : i ∈ m.accesses) {g : ℕ}
    (hg : g ∈ m.rewind i) : Older m i g := (h.mem_rewind hi g).mp hg

theorem Sound.older_of_address (h : Sound m) {address i g : ℕ}
    (hg : m.getInFlightAddress address i = some g) : Older m i g := by
  obtain ⟨b, hmem, hlt⟩ := getInFlightAddress_mem hg
  exact ⟨((h.table (b, g)).mp hmem).1, hlt⟩

theorem Sound.older_of_canCoalesce (h : Sound m) {t : AccessType} {address i g : ℕ}
    (hi : i ∈ m.accesses) (hg : m.canCoalesce t address i = some g) : Older m i g := by
  obtain ⟨j, hj, hor⟩ := canCoalesce_mem hg
  obtain ⟨hmem, hlt⟩ := h.older_of_rewind hi hj
  rcases hor with rfl | hmaster
  · exact ⟨hmem, hlt⟩
  · obtain ⟨hg, hlt'⟩ := h.master j hmem g hmaster
    exact ⟨hg, lt_trans hlt' hlt⟩

/-! What each operation keeps. -/

/-- Changing an access that is not in a queue, but not its links. -/
theorem Sound.put (h : Sound m) {i : ℕ} {f : Frame} (hrun : (m.frame i).status ≠ .suspended)
    (haddr : f.address = (m.frame i).address)
    (hmaster : f.master_frame = none ∨ f.master_frame = (m.frame i).master_frame)
    (hqueue : f.queue = (m.frame i).queue) (hlive : Live f.status ↔ Live (m.frame i).status)
    (hsusp : f.status ≠ .suspended) : Sound (m.put i f) := by
  have hframe : ∀ j, ((m.put i f).frame j).queue = (m.frame j).queue := by
    intro j
    rw [put_frame]
    split_ifs with hj
    · rw [hj, hqueue]
    · rfl
  have hstatus : ∀ j, ((m.put i f).frame j).status = .suspended ↔
      (m.frame j).status = .suspended := by
    intro j
    rw [put_frame]
    split_ifs with hj
    · rw [hj]
      exact ⟨fun hs => absurd hs hsusp, fun hs => absurd hs hrun⟩
    · rfl
  refine ⟨h.sorted, h.le_last, fun j => ?_, fun e => ?_, h.table_nodup, fun j hj g hg => ?_,
    fun g w hw => ?_, fun g w hw g' w' hw' => ?_, fun j hj => ?_⟩
  · rw [put_frame]
    split_ifs with hj
    · rw [hj, hlive]
      exact h.live i
    · exact h.live j
  · have hblock : (m.put i f).block e.2 = m.block e.2 := by
      rw [Module.block, Module.block, put_frame]
      split_ifs with he
      · rw [he, haddr]
        rfl
      · rfl
    rw [hblock]
    exact h.table e
  · rw [put_frame] at hg
    split_ifs at hg with hji
    · subst hji
      rcases hmaster with hnone | hsame
      · rw [hnone] at hg
        cases hg
      · exact h.master j hj g (hsame ▸ hg)
    · exact h.master j hj g hg
  · rw [hframe] at hw
    obtain ⟨hg, hlt, hs⟩ := h.queue g w hw
    exact ⟨hg, hlt, (hstatus w.1).mpr hs⟩
  · rw [hframe] at hw hw'
    exact h.unique g w hw g' w' hw'
  · obtain ⟨g, e, hmem⟩ := h.waits j ((hstatus j).mp hj)
    exact ⟨g, e, by rw [hframe]; exact hmem⟩

theorem Sound.setStatus (h : Sound m) {i : ℕ} {s : Status}
    (hrun : (m.frame i).status ≠ .suspended) (hlive : Live s ↔ Live (m.frame i).status)
    (hsusp : s ≠ .suspended) : Sound (m.setStatus i s) :=
  h.put hrun rfl (Or.inr rfl) rfl hlive hsusp

theorem Sound.coalesce (h : Sound m) {i master : ℕ} (hold : Older m i master) :
    Sound (m.Coalesce master i) := by
  have hframe : ∀ j, ((m.Coalesce master i).frame j).queue = (m.frame j).queue ∧
      ((m.Coalesce master i).frame j).status = (m.frame j).status ∧
      ((m.Coalesce master i).frame j).address = (m.frame j).address := by
    intro j
    by_cases hj : j = i
    · simp [Module.Coalesce, hj]
    · simp [Module.Coalesce, hj]
  refine ⟨h.sorted, h.le_last, fun j => ?_, fun e => ?_, h.table_nodup, fun j hj g hg => ?_,
    fun g w hw => ?_, fun g w hw g' w' hw' => ?_, fun j hj => ?_⟩
  · rw [(hframe j).2.1]
    exact h.live j
  · rw [Module.block, (hframe e.2).2.2]
    exact h.table e
  · by_cases hji : j = i
    · subst hji
      simp only [Module.Coalesce, put_frame, if_true, Option.some.injEq] at hg
      exact hg ▸ hold
    · simp only [Module.Coalesce, put_frame, if_neg hji] at hg
      exact h.master j hj g hg
  · rw [(hframe g).1] at hw
    rw [(hframe w.1).2.1]
    exact h.queue g w hw
  · rw [(hframe g).1] at hw
    rw [(hframe g').1] at hw'
    exact h.unique g w hw g' w' hw'
  · rw [(hframe j).2.1] at hj
    obtain ⟨g, e, hmem⟩ := h.waits j hj
    exact ⟨g, e, by rw [(hframe g).1]; exact hmem⟩

theorem wait_queue {older i : ℕ} {e : Event} (hne : older ≠ i) (g : ℕ) (w : ℕ × Event) :
    w ∈ ((m.Wait older i e).frame g).queue ↔
      w ∈ (m.frame g).queue ∨ (g = older ∧ w = (i, e)) := by
  by_cases hg : g = older
  · subst hg
    simp [Module.Wait, hne]
  · by_cases hgi : g = i
    · subst hgi
      simp [Module.Wait, hg]
    · simp [Module.Wait, hg, hgi]

theorem wait_status {older i : ℕ} {e : Event} (j : ℕ) :
    ((m.Wait older i e).frame j).status = if j = i then .suspended else (m.frame j).status := by
  by_cases hj : j = i
  · simp [Module.Wait, hj]
  · by_cases hjo : j = older
    · subst hjo
      simp [Module.Wait, hj]
    · simp [Module.Wait, hj, hjo]

theorem wait_links {older i : ℕ} {e : Event} (j : ℕ) :
    ((m.Wait older i e).frame j).master_frame = (m.frame j).master_frame ∧
      ((m.Wait older i e).frame j).address = (m.frame j).address := by
  by_cases hj : j = i
  · by_cases hio : i = older
    · simp [Module.Wait, hj, hio]
    · simp [Module.Wait, hj, hio]
  · by_cases hjo : j = older
    · subst hjo
      simp [Module.Wait, hj]
    · simp [Module.Wait, hj, hjo]

theorem Sound.wait (h : Sound m) {older i : ℕ} {e : Event} (hi : i ∈ m.accesses)
    (hrun : (m.frame i).status ≠ .suspended) (hold : Older m i older) :
    Sound (m.Wait older i e) := by
  have hne : older ≠ i := ne_of_lt hold.2
  -- the access that runs is in no queue yet
  have hfree : ∀ g, ∀ w ∈ (m.frame g).queue, w.1 ≠ i := by
    intro g w hw heq
    have hs := (h.queue g w hw).2.2
    rw [heq] at hs
    exact hrun hs
  refine ⟨h.sorted, h.le_last, fun j => ?_, fun e' => ?_, h.table_nodup, fun j hj g hg => ?_,
    fun g w hw => ?_, fun g w hw g' w' hw' heq => ?_, fun j hj => ?_⟩
  · rw [wait_status]
    split_ifs with hj
    · subst hj
      exact ⟨fun _ => live_suspended, fun _ => hi⟩
    · exact h.live j
  · rw [Module.block, (wait_links e'.2).2]
    exact h.table e'
  · rw [(wait_links j).1] at hg
    exact h.master j hj g hg
  · rw [wait_status]
    rcases (wait_queue hne g w).mp hw with hw | ⟨rfl, rfl⟩
    · obtain ⟨hg, hlt, hs⟩ := h.queue g w hw
      rw [if_neg (hfree g w hw)]
      exact ⟨hg, hlt, hs⟩
    · rw [if_pos rfl]
      exact ⟨hold.1, hold.2, rfl⟩
  · rcases (wait_queue hne g w).mp hw with hq | ⟨hg, hw⟩
    · rcases (wait_queue hne g' w').mp hw' with hq' | ⟨hg', hw'⟩
      · exact h.unique g w hq g' w' hq' heq
      · rw [hw'] at heq
        exact absurd heq (hfree g w hq)
    · rcases (wait_queue hne g' w').mp hw' with hq' | ⟨hg', hw'⟩
      · rw [hw] at heq
        exact absurd heq.symm (hfree g' w' hq')
      · rw [hg, hg']
  · rw [wait_status] at hj
    split_ifs at hj with hji
    · subst hji
      exact ⟨older, e, (wait_queue hne older (j, e)).mpr (Or.inr ⟨rfl, rfl⟩)⟩
    · obtain ⟨g, e', hmem⟩ := h.waits j hj
      exact ⟨g, e', (wait_queue hne g (j, e')).mpr (Or.inl hmem)⟩

/-- The module right after an access has entered the list. -/
def entered (m : Module) (i address : ℕ) (t t' : AccessType) (place : ℕ) : Module :=
  ({ m with last_id := i }.put i (.new address t .running)).StartAccess i t' place

theorem entered_frame (i address : ℕ) (t t' : AccessType) (place j : ℕ) :
    (entered m i address t t' place).frame j =
      if j = i then .new address t' .running else m.frame j := by
  by_cases hj : j = i
  · simp [entered, Module.StartAccess, hj, Frame.new]
  · simp [entered, Module.StartAccess, hj]

theorem entered_accesses (i address : ℕ) (t t' : AccessType) (place : ℕ) :
    (entered m i address t t' place).accesses = m.accesses ++ [i] := rfl

theorem entered_table (i address : ℕ) (t t' : AccessType) (place : ℕ) :
    (entered m i address t t' place).in_flight_block_addresses =
      m.in_flight_block_addresses.take place ++
        (address >>> m.log_block_size, i) :: m.in_flight_block_addresses.drop place := by
  simp [entered, Module.StartAccess, Module.block, Frame.new, Module.put]

theorem mem_entered_table (i address : ℕ) (t t' : AccessType) (place : ℕ) (e : ℕ × ℕ) :
    e ∈ (entered m i address t t' place).in_flight_block_addresses ↔
      e = (address >>> m.log_block_size, i) ∨ e ∈ m.in_flight_block_addresses := by
  rw [entered_table, List.mem_append, List.mem_cons, or_left_comm, ← List.mem_append,
    List.take_append_drop]

theorem Sound.enter (h : Sound m) {i : ℕ} (hi : m.last_id < i) (address : ℕ) (t t' : AccessType)
    (place : ℕ) : Sound (entered m i address t t' place) := by
  have hnew : i ∉ m.accesses := fun hmem => absurd (h.le_last i hmem) (not_le.mpr hi)
  have hne : ∀ j ∈ m.accesses, j ≠ i := fun j hj heq => hnew (heq ▸ hj)
  have hsusp : ∀ j, (m.frame j).status = .suspended → j ∈ m.accesses := by
    intro j hj
    apply (h.live j).mpr
    rw [hj]
    exact live_suspended
  have hold : ∀ j ∈ m.accesses, (entered m i address t t' place).frame j = m.frame j := by
    intro j hj
    rw [entered_frame, if_neg (hne j hj)]
  -- the queues are those of before: the new access has nobody waiting for it
  have hqueue : ∀ g, ∀ w ∈ ((entered m i address t t' place).frame g).queue,
      w ∈ (m.frame g).queue := by
    intro g w hw
    rw [entered_frame] at hw
    split_ifs at hw
    · cases hw
    · exact hw
  refine ⟨?_, ?_, fun j => ?_, fun e => ?_, ?_, fun j hj g hg => ?_, fun g w hw => ?_,
    fun g w hw g' w' hw' heq => ?_, fun j hj => ?_⟩
  · rw [entered_accesses]
    apply List.pairwise_append.mpr
    refine ⟨h.sorted, List.pairwise_singleton _ _, fun j hj k hk => ?_⟩
    rw [List.mem_singleton.mp hk]
    exact lt_of_le_of_lt (h.le_last j hj) hi
  · intro j hj
    change j ≤ i
    rw [entered_accesses, List.mem_append, List.mem_singleton] at hj
    rcases hj with hj | rfl
    · exact le_trans (h.le_last j hj) (le_of_lt hi)
    · exact le_refl _
  · rw [entered_accesses, List.mem_append, List.mem_singleton, entered_frame]
    split_ifs with hj
    · simp only [hj, or_true, true_iff]
      exact live_running
    · simp only [hj, or_false]
      exact h.live j
  · rw [mem_entered_table, entered_accesses, List.mem_append, List.mem_singleton, h.table e]
    constructor
    · intro he
      rcases he with rfl | ⟨hmem, hblock⟩
      · refine ⟨Or.inr rfl, ?_⟩
        simp only [Module.block, entered_frame, if_true]
        rfl
      · refine ⟨Or.inl hmem, ?_⟩
        rw [hblock, Module.block, Module.block, hold e.2 hmem]
        rfl
    · intro he
      obtain ⟨hmem, hblock⟩ := he
      rcases hmem with hmem | hmem
      · right
        rw [Module.block, hold e.2 hmem] at hblock
        exact ⟨hmem, hblock⟩
      · left
        rw [hmem, Module.block, entered_frame, if_pos rfl] at hblock
        exact Prod.ext hblock hmem
  · have hperm : (entered m i address t t' place).in_flight_block_addresses.Perm
        ((address >>> m.log_block_size, i) :: m.in_flight_block_addresses) := by
      rw [entered_table]
      refine List.perm_middle.trans ?_
      rw [List.take_append_drop]
    apply hperm.nodup_iff.mpr
    refine List.nodup_cons.mpr ⟨fun hmem => ?_, h.table_nodup⟩
    exact hnew ((h.table _).mp hmem).1
  · rw [entered_accesses, List.mem_append, List.mem_singleton] at hj
    rcases hj with hj | rfl
    · rw [hold j hj] at hg
      obtain ⟨hg, hlt⟩ := h.master j hj g hg
      exact ⟨by rw [entered_accesses]; exact List.mem_append_left _ hg, hlt⟩
    · rw [entered_frame, if_pos rfl] at hg
      cases hg
  · obtain ⟨hg, hlt, hs⟩ := h.queue g w (hqueue g w hw)
    rw [hold w.1 (hsusp w.1 hs)]
    exact ⟨by rw [entered_accesses]; exact List.mem_append_left _ hg, hlt, hs⟩
  · exact h.unique g w (hqueue g w hw) g' w' (hqueue g' w' hw') heq
  · rw [entered_frame] at hj
    split_ifs at hj with hji
    · cases hj
    · obtain ⟨g, e, hmem⟩ := h.waits j hj
      refine ⟨g, e, ?_⟩
      rw [hold g (h.queue g _ hmem).1]
      exact hmem

structure Woken (l : List (ℕ × Event)) (m m' : Module) : Prop where
  accesses : m'.accesses = m.accesses
  table : m'.in_flight_block_addresses = m.in_flight_block_addresses
  last_id : m'.last_id = m.last_id
  log_block_size : m'.log_block_size = m.log_block_size
  queue : ∀ j, (m'.frame j).queue = (m.frame j).queue
  master : ∀ j, (m'.frame j).master_frame = (m.frame j).master_frame
  address : ∀ j, (m'.frame j).address = (m.frame j).address
  awake : ∀ j e, (j, e) ∈ l → ∃ e', (m'.frame j).status = .scheduled e'
  asleep : ∀ j, (∀ e, (j, e) ∉ l) → (m'.frame j).status = (m.frame j).status

theorem woken_foldl (l : List (ℕ × Event)) (m : Module) :
    Woken l m (l.foldl (fun m w => m.setStatus w.1 (.scheduled w.2)) m) := by
  induction l generalizing m with
  | nil =>
    refine ⟨rfl, rfl, rfl, rfl, fun _ => rfl, fun _ => rfl, fun _ => rfl, fun j e hj => ?_,
      fun _ _ => rfl⟩
    cases hj
  | cons w l ih =>
    have hrest := ih (m.setStatus w.1 (.scheduled w.2))
    rw [List.foldl_cons]
    have hkeep : ∀ j, ((m.setStatus w.1 (.scheduled w.2)).frame j).queue = (m.frame j).queue ∧
        ((m.setStatus w.1 (.scheduled w.2)).frame j).master_frame = (m.frame j).master_frame ∧
        ((m.setStatus w.1 (.scheduled w.2)).frame j).address = (m.frame j).address := by
      intro j
      by_cases hj : j = w.1
      · simp [hj]
      · simp [hj]
    refine ⟨hrest.accesses, hrest.table, hrest.last_id, hrest.log_block_size,
      fun j => (hrest.queue j).trans (hkeep j).1, fun j => (hrest.master j).trans (hkeep j).2.1,
      fun j => (hrest.address j).trans (hkeep j).2.2, fun j e hmem => ?_, fun j hnone => ?_⟩
    · by_cases hlater : ∃ e', (j, e') ∈ l
      · obtain ⟨e', he'⟩ := hlater
        exact hrest.awake j e' he'
      · have hw : w = (j, e) := by
          rcases List.mem_cons.mp hmem with heq | hmem
          · exact heq.symm
          · exact absurd ⟨e, hmem⟩ hlater
        rw [hrest.asleep j (not_exists.mp hlater), hw]
        exact ⟨e, by simp⟩
    · have hj : j ≠ w.1 := by
        intro heq
        exact hnone w.2 (by rw [heq]; exact List.mem_cons_self)
      rw [hrest.asleep j fun e hmem => hnone e (List.mem_cons_of_mem w hmem)]
      simp [hj]

structure Finished (m : Module) (i : ℕ) (m' : Module) : Prop where
  accesses : m'.accesses = m.accesses.erase i
  table : m'.in_flight_block_addresses = m.in_flight_block_addresses.erase (m.block i, i)
  last_id : m'.last_id = m.last_id
  log_block_size : m'.log_block_size = m.log_block_size
  queue : ∀ j, (m'.frame j).queue = if j = i then [] else (m.frame j).queue
  master : ∀ j g, (m'.frame j).master_frame = some g →
    (m.frame j).master_frame = some g ∧ (j ∈ m.accesses.erase i → g ≠ i)
  address : ∀ j, (m'.frame j).address = (m.frame j).address
  self : (m'.frame i).status = .returned
  awake : ∀ j e, j ≠ i → (j, e) ∈ (m.frame i).queue → ∃ e', (m'.frame j).status = .scheduled e'
  asleep : ∀ j, j ≠ i → (∀ e, (j, e) ∉ (m.frame i).queue) →
    (m'.frame j).status = (m.frame j).status

theorem dropMaster_frame (i j : ℕ) :
    ((m.dropMaster i).frame j).queue = (m.frame j).queue ∧
      ((m.dropMaster i).frame j).address = (m.frame j).address ∧
      ((m.dropMaster i).frame j).status = (m.frame j).status ∧
      ∀ g, ((m.dropMaster i).frame j).master_frame = some g →
        (m.frame j).master_frame = some g ∧ (j ∈ m.accesses → g ≠ i) := by
  simp only [Module.dropMaster]
  split_ifs with hj
  · refine ⟨rfl, rfl, rfl, fun g hg => ?_⟩
    cases hg
  · refine ⟨rfl, rfl, rfl, fun g hg => ⟨hg, fun hmem heq => ?_⟩⟩
    exact hj ⟨hmem, heq ▸ hg⟩

theorem finished_of_finish {i : ℕ} {m' : Module} (hfin : m.finish i = some m') :
    Finished m i m' := by
  unfold Module.finish at hfin
  obtain ⟨m₂, hm₂, rfl⟩ := Option.map_eq_some_iff.mp hfin
  unfold Module.FinishAccess at hm₂
  split_ifs at hm₂
  obtain rfl := Option.some.inj hm₂
  have hdrop := fun j => dropMaster_frame (m := m.removeAccess i) i j
  have hwoken := woken_foldl ((((m.removeAccess i).dropMaster i).frame i).queue)
    ((m.removeAccess i).dropMaster i)
  have hqueue : (((m.removeAccess i).dropMaster i).frame i).queue = (m.frame i).queue :=
    (hdrop i).1
  rw [hqueue] at hwoken
  have hwake : (((m.removeAccess i).dropMaster i).WakeupAll i) =
      let m' := (m.frame i).queue.foldl (fun m w => m.setStatus w.1 (.scheduled w.2))
        ((m.removeAccess i).dropMaster i)
      m'.put i { m'.frame i with queue := [] } := by
    rw [← hqueue]
    rfl
  rw [hwake]
  generalize (m.frame i).queue.foldl (fun m w => m.setStatus w.1 (.scheduled w.2))
    ((m.removeAccess i).dropMaster i) = m₁ at hwoken
  refine ⟨hwoken.accesses, hwoken.table, hwoken.last_id, hwoken.log_block_size, fun j => ?_,
    fun j g hg => ?_, fun j => ?_, ?_, fun j e hj hmem => ?_, fun j hj hnone => ?_⟩
  · by_cases hj : j = i
    · simp [hj]
    · simp only [setStatus_frame, put_frame, if_neg hj]
      exact (hwoken.queue j).trans (hdrop j).1
  · apply (hdrop j).2.2.2 g
    rw [← hwoken.master j]
    by_cases hj : j = i
    · simpa [hj] using hg
    · simpa [hj] using hg
  · refine Eq.trans ?_ ((hwoken.address j).trans (hdrop j).2.1)
    by_cases hj : j = i
    · simp [hj]
    · simp [hj]
  · simp
  · simp only [setStatus_frame, put_frame, if_neg hj]
    exact hwoken.awake j e hmem
  · simp only [setStatus_frame, put_frame, if_neg hj]
    exact (hwoken.asleep j hnone).trans (hdrop j).2.2.1

/-- Leaving the list: nobody is left in the queue, and nobody has the access as master. -/
theorem Sound.finish (h : Sound m) {i : ℕ} {m' : Module}
    (hrun : (m.frame i).status ≠ .suspended) (hfin : m.finish i = some m') : Sound m' := by
  have f := finished_of_finish hfin
  have hnodup : m.accesses.Nodup := h.sorted.imp ne_of_lt
  have hmem : ∀ j, j ∈ m'.accesses ↔ j ≠ i ∧ j ∈ m.accesses := by
    intro j
    rw [f.accesses]
    exact hnodup.mem_erase_iff
  have hblock : ∀ j, m'.block j = m.block j := by
    intro j
    rw [Module.block, Module.block, f.address, f.log_block_size]
  have hqueue : ∀ g, ∀ w ∈ (m'.frame g).queue, g ≠ i ∧ w ∈ (m.frame g).queue := by
    intro g w hw
    rw [f.queue] at hw
    split_ifs at hw with hg
    · cases hw
    · exact ⟨hg, hw⟩
  -- who waits for another access than the finished one sleeps on
  have hstill : ∀ g, ∀ w ∈ (m.frame g).queue, g ≠ i → w.1 ≠ i ∧
      (m'.frame w.1).status = .suspended := by
    intro g w hw hg
    obtain ⟨-, -, hs⟩ := h.queue g w hw
    have hwi : w.1 ≠ i := fun heq => hrun (heq ▸ hs)
    refine ⟨hwi, ?_⟩
    rw [f.asleep w.1 hwi fun e hmem => hg (h.unique g w hw i (w.1, e) hmem rfl)]
    exact hs
  refine ⟨?_, fun j hj => ?_, fun j => ?_, fun e => ?_, ?_, fun j hj g hg => ?_, fun g w hw => ?_,
    fun g w hw g' w' hw' heq => ?_, fun j hj => ?_⟩
  · rw [f.accesses]
    exact h.sorted.sublist List.erase_sublist
  · rw [f.last_id]
    exact h.le_last j ((hmem j).mp hj).2
  · rw [hmem]
    by_cases hj : j = i
    · rw [hj, f.self]
      exact ⟨fun h' => absurd rfl h'.1, fun h' => absurd h' not_live_returned⟩
    · rw [and_iff_right hj, h.live j]
      by_cases hq : ∃ e, (j, e) ∈ (m.frame i).queue
      · obtain ⟨e, he⟩ := hq
        obtain ⟨e', he'⟩ := f.awake j e hj he
        rw [he', (h.queue i _ he).2.2]
        exact ⟨fun _ => live_scheduled e', fun _ => live_suspended⟩
      · rw [f.asleep j hj (not_exists.mp hq)]
  · rw [f.table, h.table_nodup.mem_erase_iff, h.table e, hmem, hblock]
    constructor
    · intro he
      refine ⟨⟨fun heq => he.1 ?_, he.2.1⟩, he.2.2⟩
      exact Prod.ext (he.2.2.trans (by rw [heq])) heq
    · intro he
      exact ⟨fun heq => he.1.1 (congrArg Prod.snd heq), he.1.2, he.2⟩
  · rw [f.table]
    exact h.table_nodup.sublist List.erase_sublist
  · obtain ⟨hmaster, hne⟩ := f.master j g hg
    obtain ⟨hg', hlt⟩ := h.master j ((hmem j).mp hj).2 g hmaster
    exact ⟨(hmem g).mpr ⟨hne (f.accesses ▸ hj), hg'⟩, hlt⟩
  · obtain ⟨hgi, hw⟩ := hqueue g w hw
    obtain ⟨hg, hlt, -⟩ := h.queue g w hw
    exact ⟨(hmem g).mpr ⟨hgi, hg⟩, hlt, (hstill g w hw hgi).2⟩
  · exact h.unique g w (hqueue g w hw).2 g' w' (hqueue g' w' hw').2 heq
  · have hji : j ≠ i := by
      intro heq
      rw [heq, f.self] at hj
      cases hj
    have hnot : ∀ e, (j, e) ∉ (m.frame i).queue := by
      intro e he
      obtain ⟨e', he'⟩ := f.awake j e hji he
      rw [he'] at hj
      cases hj
    rw [f.asleep j hji hnot] at hj
    obtain ⟨g, e, he⟩ := h.waits j hj
    have hgi : g ≠ i := fun heq => hnot e (heq ▸ he)
    refine ⟨g, e, ?_⟩
    rw [f.queue, if_neg hgi]
    exact he

/-! The events. -/

theorem Sound.coalesceOrLock (h : Sound m) {i : ℕ} (hi : i ∈ m.accesses)
    (hrun : (m.frame i).status = .running) (t : AccessType) : Sound (m.coalesceOrLock i t) := by
  unfold Module.coalesceOrLock
  cases hmaster : m.canCoalesce t (m.frame i).address i with
  | none =>
    refine h.setStatus (by simp [hrun]) ?_ (by simp)
    rw [hrun]
    exact ⟨fun _ => live_running, fun _ => live_scheduled _⟩
  | some master =>
    have hold := h.older_of_canCoalesce hi hmaster
    have hstatus : ((m.Coalesce master i).frame i).status = .running := by
      simp [Module.Coalesce, hrun]
    exact (h.coalesce hold).wait hi (by simp [hstatus]) hold

/-- Each chain enters the list and then joins an older access or goes on to its lock event. -/
theorem first_cases (c : Chain) (i address : ℕ) (t : AccessType) (place : ℕ) :
    ∃ t', (({ m with last_id := i }.put i (.new address t .running)).first c i place =
        (entered m i address t t' place).coalesceOrLock i t') ∨
      (({ m with last_id := i }.put i (.new address t .running)).first c i place =
        (entered m i address t t' place).setStatus i (.scheduled .lock)) := by
  cases c with
  | load => exact ⟨.Load, Or.inl rfl⟩
  | store => exact ⟨.Store, Or.inl rfl⟩
  | nc_store => exact ⟨.NCStore, Or.inl rfl⟩
  | local_load => exact ⟨.Load, Or.inl rfl⟩
  | local_store => exact ⟨.Store, Or.inl rfl⟩
  | lmstore_load => exact ⟨.Load, Or.inr rfl⟩
  | lmstore_store => exact ⟨.Store, Or.inr rfl⟩
  | lmstore_alloc =>
    refine ⟨t, Or.inl ?_⟩
    simp [Module.first, Module.lmstore_alloc, entered, Frame.new]
  | lmstore_dealloc =>
    refine ⟨t, Or.inr ?_⟩
    simp [Module.first, Module.lmstore_dealloc, entered, Frame.new]

theorem Sound.first (h : Sound m) {i : ℕ} (hi : m.last_id < i) (c : Chain) (address : ℕ)
    (t : AccessType) (place : ℕ) :
    Sound (({ m with last_id := i }.put i (.new address t .running)).first c i place) := by
  obtain ⟨t', hfirst⟩ := first_cases (m := m) c i address t place
  have hent := h.enter hi address t t' place
  have hmem : i ∈ (entered m i address t t' place).accesses := by
    rw [entered_accesses]
    exact List.mem_append_right _ List.mem_cons_self
  have hrun : ((entered m i address t t' place).frame i).status = .running := by
    rw [entered_frame, if_pos rfl]
    rfl
  rcases hfirst with hjoin | hlock
  · rw [hjoin]
    exact hent.coalesceOrLock hmem hrun t'
  · rw [hlock]
    refine hent.setStatus (by simp [hrun]) ?_ (by simp)
    rw [hrun]
    exact ⟨fun _ => live_running, fun _ => live_scheduled _⟩

/-- Whatever a lock event waits for is older. -/
theorem Sound.waitOrGo (h : Sound m) {i : ℕ} (hi : i ∈ m.accesses)
    (hrun : (m.frame i).status = .scheduled .lock) {o : Option ℕ}
    (ho : ∀ g, o = some g → Older m i g) : Sound (m.waitOrGo i o) := by
  cases o with
  | none =>
    refine h.setStatus (by simp [hrun]) ?_ (by simp)
    rw [hrun]
    exact ⟨fun _ => live_scheduled _, fun _ => live_running⟩
  | some g => exact h.wait hi (by simp [hrun]) (ho g rfl)

theorem Sound.older_of_write_or_address (h : Sound m) {i address g : ℕ} (hi : i ∈ m.accesses)
    (hg : (m.getInFlightWrite i <|> m.getInFlightAddress address i) = some g) : Older m i g := by
  cases hw : m.getInFlightWrite i with
  | none =>
    rw [hw] at hg
    exact h.older_of_address hg
  | some g' =>
    rw [hw] at hg
    exact h.older_of_rewind hi (getInFlightWrite_mem (hw.trans hg))

theorem Sound.older_of_previous (h : Sound m) {i g : ℕ} (hi : i ∈ m.accesses)
    (hg : m.previous i = some g) : Older m i g := h.older_of_rewind hi (previous_mem hg)

theorem Sound.lock (h : Sound m) {i : ℕ} (hi : i ∈ m.accesses)
    (hrun : (m.frame i).status = .scheduled .lock) (c : Chain) : Sound (m.lock c i) := by
  have hwrite : ∀ g, (m.getInFlightWrite i <|>
      m.getInFlightAddress (m.frame i).address i) = some g → Older m i g :=
    fun _ => h.older_of_write_or_address hi
  have hprev : ∀ g, m.previous i = some g → Older m i g := fun _ => h.older_of_previous hi
  cases c with
  | load => exact h.waitOrGo hi hrun hwrite
  | store => exact h.waitOrGo hi hrun hprev
  | nc_store => exact h.waitOrGo hi hrun hwrite
  | local_load => exact h.waitOrGo hi hrun hwrite
  | local_store => exact h.waitOrGo hi hrun hprev
  | lmstore_load =>
    refine h.waitOrGo hi hrun fun g hg => ?_
    cases ha : m.getInFlightAlloc i with
    | none =>
      rw [ha] at hg
      exact hwrite g hg
    | some g' =>
      rw [ha] at hg
      exact h.older_of_rewind hi (getInFlightAlloc_mem (ha.trans hg))
  | lmstore_store => exact h.waitOrGo hi hrun hprev
  | lmstore_alloc => exact h.waitOrGo hi hrun hwrite
  | lmstore_dealloc => exact h.waitOrGo hi hrun hwrite

/-- What an action does in the states in which it may be taken. -/
inductive Acts (m : Module) : Action → Module → Prop
  | enter (i address : ℕ) (t : AccessType) (place : ℕ) (c : Chain) (hi : m.last_id < i) :
    Acts m (.enter i address t place)
      (({ m with last_id := i }.put i (.new address t .running)).first c i place)
  | lock (i : ℕ) (c : Chain) (hi : (m.frame i).status = .scheduled .lock) :
    Acts m (.run i) (m.lock c i)
  | finish (i : ℕ) (m' : Module) (hi : (m.frame i).status = .scheduled .finish)
    (hfin : m.finish i = some m') : Acts m (.run i) m'
  | port (i : ℕ) (locked : Bool) (hi : (m.frame i).status = .running) :
    Acts m (.port i locked) (m.put i { m.frame i with port_locked := locked })
  | retry (i : ℕ) (hi : (m.frame i).status = .running) :
    Acts m (.retry i) (m.setStatus i (.scheduled .lock))
  | complete (i : ℕ) (hi : (m.frame i).status = .running) :
    Acts m (.complete i) (m.setStatus i (.scheduled .finish))

theorem next_acts {a : Action} {m' : Module} (hnext : next m a = some m') : Acts m a m' := by
  cases a with
  | enter i address t place =>
    simp only [AccessList.next] at hnext
    split_ifs at hnext with hi
    obtain ⟨c, -, rfl⟩ := Option.map_eq_some_iff.mp hnext
    exact .enter i address t place c hi
  | run i =>
    simp only [AccessList.next] at hnext
    split at hnext
    · next hrun =>
      obtain ⟨c, -, rfl⟩ := Option.map_eq_some_iff.mp hnext
      exact .lock i c hrun
    · next hrun => exact .finish i m' hrun hnext
    · cases hnext
  | port i locked =>
    simp only [AccessList.next] at hnext
    split_ifs at hnext with hrun
    obtain rfl := Option.some.inj hnext
    exact .port i locked hrun
  | retry i =>
    simp only [AccessList.next] at hnext
    split_ifs at hnext with hrun
    obtain rfl := Option.some.inj hnext
    exact .retry i hrun
  | complete i =>
    simp only [AccessList.next] at hnext
    split_ifs at hnext with hrun
    obtain rfl := Option.some.inj hnext
    exact .complete i hrun

theorem Sound.schedule (h : Sound m) {i : ℕ} (hrun : (m.frame i).status = .running) (e : Event) :
    Sound (m.setStatus i (.scheduled e)) := by
  refine h.setStatus (by simp [hrun]) ?_ (by simp)
  rw [hrun]
  exact ⟨fun _ => live_running, fun _ => live_scheduled e⟩

theorem Sound.next (h : Sound m) {a : Action} {m' : Module} (hnext : next m a = some m') :
    Sound m' := by
  cases next_acts hnext with
  | enter i address t place c hi => exact h.first hi c address t place
  | lock i c hrun =>
    have hi : i ∈ m.accesses := by
      apply (h.live i).mpr
      rw [hrun]
      exact live_scheduled _
    exact h.lock hi hrun c
  | finish i m' hrun hfin => exact h.finish (by simp [hrun]) hfin
  | port i locked hrun =>
    exact h.put (by simp [hrun]) rfl (Or.inr rfl) rfl Iff.rfl (by simp [hrun])
  | retry i hrun => exact h.schedule hrun .lock
  | complete i hrun => exact h.schedule hrun .finish

theorem sound_new (type : ModuleType) (log_block_size : ℕ) :
    Sound (Module.new type log_block_size) := by
  refine ⟨List.Pairwise.nil, ?_, fun i => ?_, ?_, List.nodup_nil, ?_, ?_, ?_, ?_⟩
  · simp [Module.new]
  · simp [Module.new, Frame.new, Live]
  · simp [Module.new]
  · simp [Module.new]
  · simp [Module.new, Frame.new]
  · simp [Module.new, Frame.new]
  · simp [Module.new, Frame.new]

def WaitsFor (m : Module) (i g : ℕ) : Prop := ∃ e, (i, e) ∈ (m.frame g).queue

/-- The waiting accesses of a module and whom they wait for. -/
structure WaitsForOlder (m : Module) : Prop where
  suspended : ∀ i, (m.frame i).status = .suspended ↔ ∃ g, WaitsFor m i g
  older : ∀ i g, WaitsFor m i g → i ∈ m.accesses ∧ g ∈ m.accesses ∧ g ∈ m.rewind i
  acyclic : ∀ i, ¬Relation.TransGen (WaitsFor m) i i
  finished : ∀ g, g ∉ m.accesses → (m.frame g).queue = []

theorem lt_of_transGen {α : Type*} [Preorder α] {r : α → α → Prop} (hr : ∀ a b, r a b → b < a)
    {a b : α} (h : Relation.TransGen r a b) : b < a := by
  induction h with
  | single hab => exact hr _ _ hab
  | tail _ hbc ih => exact lt_trans (hr _ _ hbc) ih

theorem Sound.waitsForOlder (h : Sound m) : WaitsForOlder m := by
  refine ⟨fun i => ?_, fun i g hw => ?_, fun i hcycle => ?_, fun g hg => ?_⟩
  · constructor
    · intro hs
      exact h.waits i hs
    · intro hw
      obtain ⟨g, e, hmem⟩ := hw
      exact (h.queue g (i, e) hmem).2.2
  · obtain ⟨e, hmem⟩ := hw
    obtain ⟨hg, hlt, hs⟩ := h.queue g (i, e) hmem
    have hi : i ∈ m.accesses := by
      apply (h.live i).mpr
      rw [hs]
      exact live_suspended
    exact ⟨hi, hg, (h.mem_rewind hi g).mpr ⟨hg, hlt⟩⟩
  · refine lt_irrefl i (lt_of_transGen (r := WaitsFor m) (fun a b hab => ?_) hcycle)
    obtain ⟨e, hmem⟩ := hab
    exact (h.queue b (a, e) hmem).2.1
  · rw [List.eq_nil_iff_forall_not_mem]
    intro w hw
    exact hg (h.queue g w hw).1

/-- In every run of a module's accesses the waiting ones wait for older accesses in flight, and
nobody waits in a circle or for an access that has finished. -/
theorem waitsForOlder_run (type : ModuleType) (log_block_size : ℕ) {run : List (Action × Module)}
    (hrun : IsRun (fun m a m' => next m a = some m') (Module.new type log_block_size) run) :
    ∀ m ∈ states (Module.new type log_block_size) run, WaitsForOlder m := by
  intro m hm
  have hsound := invariant_all (I := Sound) (fun _ _ _ hs hn => hs.next hn) hrun
    (sound_new type log_block_size) m hm
  exact hsound.waitsForOlder

/-- A load behind a store, and a load to the same block that joins it. -/
def storeAndLoads : List Module :=
  states (Module.new .Cache 6) (trace next (Module.new .Cache 6)
    [.enter 1 0 .Store 0, .enter 2 64 .Load 0, .enter 3 68 .Load 1, .run 1, .run 2])

/-- The second load waits for the first, and the first for the store. -/
theorem waitsForOlder_storeAndLoads :
    ∃ m ∈ storeAndLoads, WaitsFor m 3 2 ∧ WaitsFor m 2 1 ∧ WaitsForOlder m := by
  refine ⟨storeAndLoads.getLast (by simp [storeAndLoads, states]), List.getLast_mem _,
    ⟨.finish, by decide⟩, ⟨.lock, by decide⟩, ?_⟩
  exact waitsForOlder_run .Cache 6 (isRun_trace next _ _) _ (List.getLast_mem _)

end MMLMStore.AccessWaits
