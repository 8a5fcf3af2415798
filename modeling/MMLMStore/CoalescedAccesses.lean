import MMLMStore.AccessContainers

/-!
# Accesses that join others

A new access joins an access in front of it, or the one that this has joined. Whatever finishes
meanwhile, the access that others have joined is in flight and older, goes to the same block in the
same way, and has joined nobody itself; a load has only loads between itself and the one it joined.
-/
namespace MMLMStore.CoalescedAccesses

open AccessList AccessContainers StepRuns

structure Joined (m : Module) (i g : ℕ) : Prop where
  between : ∃ front mid back, m.accesses = front ++ g :: (mid ++ i :: back) ∧
    ((m.frame i).access_type = .Load → ∀ j ∈ mid, (m.frame j).access_type = .Load)
  same_type : (m.frame g).access_type = (m.frame i).access_type
  same_block : m.block g = m.block i
  leads : (m.frame g).master_frame = none

structure Grouped (m : Module) : Prop where
  nodup : m.accesses.Nodup
  joined : ∀ i ∈ m.accesses, ∀ g, (m.frame i).master_frame = some g → Joined m i g

/-- A frame is coalesced right after it has entered, with the master found for it. -/
def Coalesces (m : Module) : Call → Prop
  | .Coalesce master i => m.accesses.getLast? = some i ∧
      m.canCoalesce (m.frame i).access_type (m.frame i).address i = some master
  | _ => True

instance decidableCoalesces (m : Module) : (c : Call) → Decidable (Coalesces m c)
  | .StartAccess _ _ _ _ => inferInstanceAs (Decidable True)
  | .Coalesce _ _ => inferInstanceAs (Decidable (_ ∧ _))
  | .FinishAccess _ => inferInstanceAs (Decidable True)

def next (m : Module) (c : Call) : Option Module :=
  if Coalesces m c then AccessContainers.call m c else none

section Steps

variable {m m' : Module} {i g : ℕ}

theorem Joined.mem (h : Joined m i g) : g ∈ m.accesses := by
  obtain ⟨front, mid, back, hlist, -⟩ := h.between
  rw [hlist]
  exact List.mem_append_right _ List.mem_cons_self

theorem mem_of_between {front mid back : List ℕ}
    (hlist : m.accesses = front ++ g :: (mid ++ i :: back)) {j : ℕ} (hj : j ∈ mid) :
    j ∈ m.accesses := by
  rw [hlist]
  exact List.mem_append_right _ (List.mem_cons_of_mem _ (List.mem_append_left _ hj))

/-! What the search finds. -/

/-- What a scan of the accesses in front finds: behind the found access, for a load, only loads. -/
structure Found (m : Module) (t : AccessType) (address : ℕ) (l : List ℕ) (g : ℕ) : Prop where
  split : ∃ passed j rest, l = passed ++ j :: rest ∧
    (t = .Load → ∀ k ∈ passed, (m.frame k).access_type = .Load) ∧
    (m.frame j).access_type = t ∧ m.block j = address >>> m.log_block_size ∧
    g = (m.frame j).master_frame.getD j

theorem coalesceLoad_found {address : ℕ} {l : List ℕ} (hg : m.coalesceLoad address l = some g) :
    Found m .Load address l g := by
  induction l with
  | nil => cases hg
  | cons j l ih =>
    unfold Module.coalesceLoad at hg
    split_ifs at hg with htype hblock
    · have hload : (m.frame j).access_type = .Load := not_not.mp htype
      refine ⟨[], j, l, rfl, fun _ k hk => absurd hk List.not_mem_nil, hload, hblock, ?_⟩
      exact (Option.some.inj hg).symm
    · have hload : (m.frame j).access_type = .Load := not_not.mp htype
      obtain ⟨passed, k, rest, rfl, hpassed, hk⟩ := (ih hg).split
      refine ⟨j :: passed, k, rest, rfl, fun ht k hk => ?_, hk⟩
      rcases List.mem_cons.mp hk with rfl | hk
      · exact hload
      · exact hpassed ht k hk

theorem coalesceLast_found {t : AccessType} {address : ℕ} {l : List ℕ}
    (hg : m.coalesceLast t address l = some g) : Found m t address l g := by
  cases l with
  | nil => cases hg
  | cons j l =>
    simp only [Module.coalesceLast] at hg
    split_ifs at hg with htype hblock hport
    refine ⟨[], j, l, rfl, fun _ k hk => absurd hk List.not_mem_nil, not_not.mp htype,
      not_not.mp hblock, (Option.some.inj hg).symm⟩

theorem canCoalesce_found {t : AccessType} {address : ℕ}
    (hg : m.canCoalesce t address i = some g) : Found m t address (m.rewind i) g := by
  unfold Module.canCoalesce at hg
  split_ifs at hg
  cases t with
  | Load => exact coalesceLoad_found hg
  | Store => exact coalesceLast_found hg
  | NCStore => exact coalesceLast_found hg
  | ReadAlloc => cases hg
  | NoReadAlloc => cases hg
  | WriteDealloc => cases hg
  | NoWriteDealloc => cases hg

theorem rewind_last {front : List ℕ} (hlist : m.accesses = front ++ [i]) (hi : i ∉ front) :
    m.rewind i = front.reverse := by
  have hne : ∀ j ∈ front, decide (j ≠ i) = true := fun j hj =>
    decide_eq_true fun heq => hi (heq ▸ hj)
  rw [Module.rewind, hlist, List.takeWhile_append_of_pos hne]
  simp

/-- The master found for the last access. -/
theorem Grouped.joined_found (h : Grouped m) {front : List ℕ} (hlist : m.accesses = front ++ [i])
    (hg : m.canCoalesce (m.frame i).access_type (m.frame i).address i = some g) :
    Joined m i g := by
  have hnodup := h.nodup
  rw [hlist] at hnodup
  have hi : i ∉ front := fun hmem =>
    (List.nodup_append.mp hnodup).2.2 i hmem i (List.mem_singleton_self i) rfl
  obtain ⟨passed, j, rest, hsplit, hpassed, htype, hblock, hmaster⟩ := (canCoalesce_found hg).split
  rw [rewind_last hlist hi, List.reverse_eq_iff, List.reverse_append, List.reverse_cons,
    List.append_assoc, List.singleton_append] at hsplit
  have hall : m.accesses = rest.reverse ++ j :: (passed.reverse ++ i :: []) := by
    rw [hlist, hsplit, List.append_assoc, List.cons_append]
  cases hj : (m.frame j).master_frame with
  | none =>
    -- the access found leads itself
    rw [hj, Option.getD_none] at hmaster
    subst hmaster
    exact ⟨⟨_, _, _, hall, fun ht k hk => hpassed ht k (List.mem_reverse.mp hk)⟩, htype, hblock, hj⟩
  | some g' =>
    rw [hj, Option.getD_some] at hmaster
    subst hmaster
    have hjmem : j ∈ m.accesses := by
      rw [hall]
      exact List.mem_append_right _ List.mem_cons_self
    have hjoin := h.joined j hjmem g hj
    obtain ⟨front', mid, back, hlist', hmid⟩ := hjoin.between
    -- both ways to cut the list at the access found are the same
    have hcut : (front' ++ g :: mid) ++ j :: back =
        rest.reverse ++ j :: (passed.reverse ++ [i]) := by
      rw [List.append_assoc, List.cons_append, ← hlist', hall]
    have hnot : j ∉ rest.reverse := by
      have hnd := h.nodup
      rw [hall] at hnd
      intro hmem
      exact (List.nodup_append.mp hnd).2.2 j hmem j List.mem_cons_self rfl
    have hnot' : j ∉ passed.reverse ++ [i] := by
      have hnd := h.nodup
      rw [hall] at hnd
      exact (List.nodup_cons.mp (List.nodup_append.mp hnd).2.1).1
    obtain ⟨-, -, hback⟩ := (List.append_cons_inj_of_notMem hnot hnot').mp hcut.symm
    refine ⟨⟨front', mid ++ j :: passed.reverse, [], ?_, fun ht k hk => ?_⟩,
      hjoin.same_type.trans htype, hjoin.same_block.trans hblock, hjoin.leads⟩
    · rw [hlist', ← hback]
      simp
    · rcases List.mem_append.mp hk with hk | hk
      · exact hmid (htype.trans ht) k hk
      · rcases List.mem_cons.mp hk with rfl | hk
        · exact htype.trans ht
        · exact hpassed ht k (List.mem_reverse.mp hk)

/-! What the calls keep. -/

/-- What a master and its accesses depend on in a frame. -/
def SameLinks (f f' : Frame) : Prop :=
  f'.address = f.address ∧ f'.access_type = f.access_type ∧
    (f'.master_frame = f.master_frame ∨ f'.master_frame = none)

theorem Joined.transfer (h : Joined m i g) (hblock : m'.log_block_size = m.log_block_size)
    (hlinks : ∀ j ∈ m.accesses, SameLinks (m.frame j) (m'.frame j)) (hi : i ∈ m.accesses)
    (hlist : ∀ front mid back, m.accesses = front ++ g :: (mid ++ i :: back) →
      ∃ front' mid' back', m'.accesses = front' ++ g :: (mid' ++ i :: back') ∧
        ∀ j ∈ mid', j ∈ mid) : Joined m' i g := by
  obtain ⟨front, mid, back, hbetween, hmid⟩ := h.between
  obtain ⟨front', mid', back', hbetween', hsub⟩ := hlist front mid back hbetween
  have hg := h.mem
  have hsame : ∀ j ∈ m.accesses, m'.block j = m.block j := by
    intro j hj
    rw [Module.block, Module.block, (hlinks j hj).1, hblock]
  refine ⟨⟨front', mid', back', hbetween', fun ht j hj => ?_⟩, ?_, ?_, ?_⟩
  · rw [(hlinks i hi).2.1] at ht
    rw [(hlinks j (mem_of_between hbetween (hsub j hj))).2.1]
    exact hmid ht j (hsub j hj)
  · rw [(hlinks g hg).2.1, (hlinks i hi).2.1, h.same_type]
  · rw [hsame g hg, hsame i hi, h.same_block]
  · rcases (hlinks g hg).2.2 with hmaster | hmaster
    · rw [hmaster, h.leads]
    · exact hmaster

theorem Grouped.start (h : Grouped m) (hi : i ∉ m.accesses) (address : ℕ) (t t' : AccessType)
    (s : Status) (place : ℕ) : Grouped ((m.put i (.new address t s)).StartAccess i t' place) := by
  have hold : ∀ j ∈ m.accesses, ((m.put i (.new address t s)).StartAccess i t' place).frame j =
      m.frame j := fun j hj => started_frame_of_mem hi address t t' s place hj
  have hlist : ((m.put i (.new address t s)).StartAccess i t' place).accesses =
      m.accesses ++ [i] := rfl
  refine ⟨?_, fun j hj g hg => ?_⟩
  · rw [hlist]
    exact List.nodup_append_comm.mp (List.nodup_cons.mpr ⟨hi, h.nodup⟩ : ([i] ++ _).Nodup)
  · rw [hlist, List.mem_append, List.mem_singleton] at hj
    rcases hj with hj | rfl
    · rw [hold j hj] at hg
      refine (h.joined j hj g hg).transfer rfl (fun k hk => ?_) hj fun front mid back hcut => ?_
      · rw [hold k hk]
        exact ⟨rfl, rfl, Or.inl rfl⟩
      · exact ⟨front, mid, back ++ [i], by rw [hlist, hcut]; simp, fun _ => id⟩
    · rw [started_frame, if_pos rfl] at hg
      cases hg

theorem Grouped.coalesce (h : Grouped m) (hlast : m.accesses.getLast? = some i)
    (hg : m.canCoalesce (m.frame i).access_type (m.frame i).address i = some g) :
    Grouped (m.Coalesce g i) := by
  obtain ⟨rest, hlist⟩ := List.getLast?_eq_some_iff.mp hlast
  have hnodup := h.nodup
  rw [hlist] at hnodup
  have hi : i ∉ rest := fun hmem =>
    (List.nodup_append.mp hnodup).2.2 i hmem i (List.mem_singleton_self i) rfl
  have hframe : ∀ j, ((m.Coalesce g i).frame j).address = (m.frame j).address ∧
      ((m.Coalesce g i).frame j).access_type = (m.frame j).access_type ∧
      ((m.Coalesce g i).frame j).master_frame =
        if j = i then some g else (m.frame j).master_frame := by
    intro j
    by_cases hj : j = i
    · simp [Module.Coalesce, Module.put, hj]
    · simp [Module.Coalesce, Module.put, hj]
  -- the last access is nobody's master
  have hne : ∀ j g', Joined m j g' → g' ≠ i := by
    rintro j g' hjoin rfl
    obtain ⟨front, mid, back, hcut, -⟩ := hjoin.between
    rw [hlist] at hcut
    obtain ⟨-, -, hnil⟩ := (List.append_cons_inj_of_notMem hi List.not_mem_nil).mp hcut
    exact absurd hnil (by simp)
  have hkeep : ∀ j g', Joined m j g' → Joined (m.Coalesce g i) j g' := by
    intro j g' hjoin
    have hblock : ∀ k, (m.Coalesce g i).block k = m.block k := by
      intro k
      rw [Module.block, (hframe k).1]
      rfl
    refine ⟨?_, ?_, ?_, ?_⟩
    · simp only [(hframe _).2.1]
      exact hjoin.between
    · rw [(hframe _).2.1, (hframe _).2.1, hjoin.same_type]
    · rw [hblock, hblock, hjoin.same_block]
    · rw [(hframe _).2.2, if_neg (hne j g' hjoin), hjoin.leads]
  refine ⟨h.nodup, fun j hj g' hg' => ?_⟩
  rw [(hframe j).2.2] at hg'
  split_ifs at hg' with hji
  · rw [← Option.some.inj hg', hji]
    exact hkeep i g (h.joined_found hlist hg)
  · exact hkeep j g' (h.joined j hj g' hg')

theorem finishAccess_links (i j : ℕ) :
    ((((m.removeAccess i).dropMaster i).WakeupAll i).frame j).master_frame =
      (((m.removeAccess i).dropMaster i).frame j).master_frame := by
  have hwoken := AccessWaits.woken_foldl ((((m.removeAccess i).dropMaster i).frame i).queue)
    ((m.removeAccess i).dropMaster i)
  rw [← hwoken.master j]
  simp only [Module.WakeupAll, Module.put]
  split_ifs with hj
  · rw [hj]
  · rfl

theorem Grouped.finish (h : Grouped m) (hfin : m.FinishAccess i = some m') : Grouped m' := by
  unfold Module.FinishAccess at hfin
  split_ifs at hfin
  obtain rfl := Option.some.inj hfin
  have halike : Alike (m.removeAccess i) (((m.removeAccess i).dropMaster i).WakeupAll i) :=
    (alike_dropMaster i).trans (alike_wakeupAll i)
  have hlist : (((m.removeAccess i).dropMaster i).WakeupAll i).accesses = m.accesses.erase i :=
    halike.accesses
  have hmaster : ∀ j, ((((m.removeAccess i).dropMaster i).WakeupAll i).frame j).master_frame =
      if j ∈ m.accesses.erase i ∧ (m.frame j).master_frame = some i then none
      else (m.frame j).master_frame := by
    intro j
    rw [finishAccess_links]
    by_cases hdrop : j ∈ m.accesses.erase i ∧ (m.frame j).master_frame = some i
    · simp [Module.dropMaster, Module.removeAccess, hdrop]
    · simp [Module.dropMaster, Module.removeAccess, hdrop]
  refine ⟨?_, fun j hj g hg => ?_⟩
  · rw [hlist]
    exact h.nodup.erase i
  · rw [hlist] at hj
    rw [hmaster] at hg
    split_ifs at hg with hdrop
    obtain ⟨hji, hjmem⟩ := h.nodup.mem_erase_iff.mp hj
    have hgi : g ≠ i := fun heq => hdrop ⟨hj, heq ▸ hg⟩
    refine (h.joined j hjmem g hg).transfer halike.log_block_size (fun k _ => ?_) hjmem
      fun front mid back hcut => ?_
    · have hkind := halike.kind k
      refine ⟨congrArg Prod.fst hkind, congrArg (fun x => x.2.1) hkind, ?_⟩
      rw [hmaster]
      split_ifs
      · exact Or.inr rfl
      · exact Or.inl rfl
    · refine ⟨front.filter (· != i), mid.filter (· != i), back.filter (· != i), ?_,
        fun k hk => List.mem_of_mem_filter hk⟩
      rw [hlist, h.nodup.erase_eq_filter, hcut]
      simp [hgi, hji]

/-! Runs of calls. -/

theorem Grouped.call (h : Grouped m) {c : Call} (hc : Coalesces m c)
    (hcall : AccessContainers.call m c = some m') : Grouped m' := by
  cases c with
  | StartAccess i address t place =>
    simp only [AccessContainers.call] at hcall
    split_ifs at hcall with hi
    obtain rfl := Option.some.inj hcall
    exact h.start hi address t t .running place
  | Coalesce master i =>
    simp only [AccessContainers.call] at hcall
    split_ifs at hcall
    obtain rfl := Option.some.inj hcall
    exact h.coalesce hc.1 hc.2
  | FinishAccess i =>
    simp only [AccessContainers.call] at hcall
    split_ifs at hcall
    exact h.finish hcall

theorem grouped_new (type : ModuleType) (log_block_size : ℕ) :
    Grouped (Module.new type log_block_size) :=
  ⟨List.nodup_nil, fun _ hi => absurd hi List.not_mem_nil⟩

def MastersLead (type : ModuleType) (log_block_size : ℕ) (run : List (Call × Module)) : Prop :=
  ∀ m ∈ states (Module.new type log_block_size) run, ∀ i ∈ m.accesses, ∀ g,
    (m.frame i).master_frame = some g → Joined m i g

/-- In every run of calls the master of an access in flight, unless it is null, is in flight and
older, goes to the same block in the same way and leads, and a load has only loads up to it. -/
theorem mastersLead_run (type : ModuleType) (log_block_size : ℕ) {run : List (Call × Module)}
    (hrun : IsRun (fun m c m' => next m c = some m') (Module.new type log_block_size) run) :
    MastersLead type log_block_size run := by
  have hstep : ∀ m c m', Grouped m → next m c = some m' → Grouped m' := by
    intro m c m' h hnext
    unfold next at hnext
    split_ifs at hnext with hc
    exact h.call hc hnext
  exact fun m hm => (invariant_all hstep hrun (grouped_new type log_block_size) m hm).joined

/-! The events of the chains. -/

theorem Grouped.links (h : Grouped m) (hlist : m'.accesses = m.accesses)
    (hblock : m'.log_block_size = m.log_block_size)
    (hlinks : ∀ j, SameLinks (m.frame j) (m'.frame j)) : Grouped m' := by
  refine ⟨by rw [hlist]; exact h.nodup, fun j hj g hg => ?_⟩
  rw [hlist] at hj
  have hmaster : (m.frame j).master_frame = some g := by
    rcases (hlinks j).2.2 with hsame | hnone
    · rw [← hsame, hg]
    · rw [hnone] at hg
      cases hg
  refine (h.joined j hj g hmaster).transfer hblock (fun k _ => hlinks k) hj
    fun front mid back hcut => ⟨front, mid, back, by rw [hlist, hcut], fun _ => id⟩

theorem Grouped.put (h : Grouped m) {f : Frame} (hf : SameLinks (m.frame i) f) :
    Grouped (m.put i f) := by
  refine h.links rfl rfl fun j => ?_
  simp only [Module.put]
  split_ifs with hj
  · rwa [hj]
  · exact ⟨rfl, rfl, Or.inl rfl⟩

theorem Grouped.setStatus (h : Grouped m) (i : ℕ) (s : Status) : Grouped (m.setStatus i s) :=
  h.put ⟨rfl, rfl, Or.inl rfl⟩

theorem Grouped.wait (h : Grouped m) (older i : ℕ) (e : Event) : Grouped (m.Wait older i e) := by
  have hqueue : Grouped
      (m.put older { m.frame older with queue := (m.frame older).queue ++ [(i, e)] }) :=
    h.put ⟨rfl, rfl, Or.inl rfl⟩
  exact hqueue.setStatus i .suspended

theorem Grouped.next (h : Grouped m) (hs : AccessWaits.Sound m) {a : Action}
    (hm : Moves m a m') : Grouped m' := by
  have hent : ∀ (i address : ℕ) (t t' : AccessType) (place : ℕ), m.last_id < i →
      Grouped (AccessWaits.entered m i address t t' place) := by
    intro i address t t' place hi
    have hlast : Grouped { m with last_id := i } :=
      h.links rfl rfl fun j => ⟨rfl, rfl, Or.inl rfl⟩
    exact hlast.start (fun hmem => absurd (hs.le_last i hmem) (not_le.mpr hi)) address t t' _ place
  cases hm with
  | join i address t t' place hi =>
    have htype : ((AccessWaits.entered m i address t t' place).frame i).access_type = t' := by
      rw [AccessWaits.entered_frame, if_pos rfl]
      rfl
    have hlast : (AccessWaits.entered m i address t t' place).accesses.getLast? = some i :=
      List.getLast?_concat
    unfold Module.coalesceOrLock
    cases hmaster : (AccessWaits.entered m i address t t' place).canCoalesce t'
      ((AccessWaits.entered m i address t t' place).frame i).address i with
    | none => exact (hent i address t t' place hi).setStatus i _
    | some g =>
      refine ((hent i address t t' place hi).coalesce hlast ?_).wait g i .finish
      rw [htype]
      exact hmaster
  | enter i address t t' place hi => exact (hent i address t t' place hi).setStatus i _
  | lock i o hi =>
    cases o with
    | none => exact h.setStatus i .running
    | some older => exact h.wait older i .lock
  | finish i m' hi hfin => exact (h.finish hfin).setStatus i .returned
  | port i locked hi => exact h.put ⟨rfl, rfl, Or.inl rfl⟩
  | retry i hi => exact h.setStatus i _
  | complete i hi => exact h.setStatus i _

/-- In every run of the events the masters of the accesses in flight lead them. -/
theorem grouped_events (type : ModuleType) (log_block_size : ℕ) {run : List (Action × Module)}
    (hrun : IsRun (fun m a m' => AccessList.next m a = some m') (Module.new type log_block_size)
      run) :
    ∀ m ∈ states (Module.new type log_block_size) run, AccessWaits.Sound m ∧ Grouped m :=
  invariant_all (I := fun m => AccessWaits.Sound m ∧ Grouped m)
    (fun _ _ _ h hn => ⟨h.1.next hn, h.2.next h.1 (next_moves hn)⟩) hrun
    ⟨AccessWaits.sound_new type log_block_size, grouped_new type log_block_size⟩

end Steps

/-- Three loads of which two join the first; it finishes, and a fourth joins the third. -/
def someCalls : List Call :=
  [.StartAccess 1 0x40 .Load 0, .StartAccess 2 0x44 .Load 0, .Coalesce 1 2,
    .StartAccess 3 0x48 .Load 1, .Coalesce 1 3, .FinishAccess 1, .StartAccess 4 0x40 .Load 0,
    .Coalesce 3 4]

theorem mastersLead_someCalls :
    ((final (Module.new .Cache 6) (trace next (Module.new .Cache 6) someCalls)).accesses.map
        fun i => ((final (Module.new .Cache 6)
          (trace next (Module.new .Cache 6) someCalls)).frame i).master_frame) =
      [none, none, some 3] ∧
      MastersLead .Cache 6 (trace next (Module.new .Cache 6) someCalls) :=
  ⟨by decide, mastersLead_run .Cache 6 (isRun_trace _ _ _)⟩

end MMLMStore.CoalescedAccesses
