import MMLMStore.CoalescedAccesses

/-!
# Stores that join others

A new store joins the youngest access in flight, or the one that this has joined. The flag it looks
at tells whether the youngest access holds its port. An access that has joined another never takes
a port, and a port that is given back resets the flag: so the write that is joined may have started.
-/
namespace MMLMStore.CoalescedStores

open AccessList AccessWaits AccessContainers StepRuns

def Started (past : List Action) (g : ℕ) : Prop := Action.port g true ∈ past

instance (past : List Action) (g : ℕ) : Decidable (Started past g) :=
  inferInstanceAs (Decidable (_ ∈ _))

def IsStore (t : AccessType) : Prop := t = .Store ∨ t = .NCStore

instance (t : AccessType) : Decidable (IsStore t) := inferInstanceAs (Decidable (_ ∨ _))

/-- A new store that finds a master finds one that has not locked its port. -/
def JoinsUnstarted (past : List Action) (m : Module) (i address : ℕ) (t : AccessType)
    (place : ℕ) : Prop :=
  ∀ g, (entered m i address t t place).canCoalesce t address i = some g → ¬Started past g

/-- The youngest access in flight, if it is a store of the same kind to the same block, has not
joined an access that has started, and has not itself started and given back its port. -/
def Unstarted (past : List Action) (m : Module) (address : ℕ) (t : AccessType) : Prop :=
  ∀ j, m.accesses.getLast? = some j → (m.frame j).access_type = t →
    m.block j = address >>> m.log_block_size →
      (∀ g, (m.frame j).master_frame = some g → ¬Started past g) ∧
        ((m.frame j).master_frame = none → Started past j → (m.frame j).port_locked = true)

/-- Accesses that joined others take no port. They wait to finish. -/
structure Idle (m : Module) : Prop where
  flag : ∀ j, (m.frame j).master_frame ≠ none → (m.frame j).coalesced = true
  port : ∀ j, (m.frame j).coalesced = true → (m.frame j).port_locked = false
  status : ∀ j, (m.frame j).coalesced = true →
    (m.frame j).status ≠ .running ∧ (m.frame j).status ≠ .scheduled .lock
  queue : ∀ g, ∀ w ∈ (m.frame g).queue, (m.frame w.1).coalesced = true → w.2 = .finish

section Steps

variable {m m' : Module} {i : ℕ}

theorem idle_new (type : ModuleType) (log_block_size : ℕ) :
    Idle (Module.new type log_block_size) := by
  refine ⟨fun j hj => absurd rfl hj, fun j hj => ?_, fun j hj => ?_, fun g w hw => ?_⟩
  · rfl
  · exact absurd hj Bool.false_ne_true
  · exact absurd hw List.not_mem_nil

theorem Idle.put (h : Idle m) {f : Frame} (hflag : f.coalesced = (m.frame i).coalesced)
    (hmaster : f.master_frame = (m.frame i).master_frame)
    (hqueue : ∀ w ∈ f.queue, w ∈ (m.frame i).queue ∨
      ((m.frame w.1).coalesced = true → w.2 = .finish))
    (hidle : (m.frame i).coalesced = true →
      f.port_locked = false ∧ f.status ≠ .running ∧ f.status ≠ .scheduled .lock) :
    Idle (m.put i f) := by
  have hsame : ∀ j, ((m.put i f).frame j).coalesced = (m.frame j).coalesced := by
    intro j
    rw [put_frame]
    split_ifs with hj
    · rw [hj, hflag]
    · rfl
  refine ⟨fun j hj => ?_, fun j hj => ?_, fun j hj => ?_, fun g w hw hj => ?_⟩
  · rw [hsame]
    rw [put_frame] at hj
    split_ifs at hj with hji
    · rw [hji]
      exact h.flag i (hmaster ▸ hj)
    · exact h.flag j hj
  · rw [hsame] at hj
    rw [put_frame]
    split_ifs with hji
    · exact (hidle (hji ▸ hj)).1
    · exact h.port j hj
  · rw [hsame] at hj
    rw [put_frame]
    split_ifs with hji
    · exact (hidle (hji ▸ hj)).2
    · exact h.status j hj
  · rw [hsame] at hj
    rw [put_frame] at hw
    split_ifs at hw with hg
    · rcases hqueue w hw with hold | hnew
      · exact h.queue i w hold hj
      · exact hnew hj
    · exact h.queue g w hw hj

theorem Idle.not_coalesced_of_running (h : Idle m) (hi : (m.frame i).status = .running) :
    (m.frame i).coalesced = false :=
  Bool.eq_false_iff.mpr fun hc => (h.status i hc).1 hi

theorem Idle.not_coalesced_of_lock (h : Idle m) (hi : (m.frame i).status = .scheduled .lock) :
    (m.frame i).coalesced = false :=
  Bool.eq_false_iff.mpr fun hc => (h.status i hc).2 hi

theorem Idle.setStatus (h : Idle m) {s : Status}
    (hs : (m.frame i).coalesced = true → s ≠ .running ∧ s ≠ .scheduled .lock) :
    Idle (m.setStatus i s) :=
  h.put rfl rfl (fun _ hw => Or.inl hw) fun hc => ⟨h.port i hc, hs hc⟩

theorem Idle.wait (h : Idle m) {older : ℕ} {e : Event}
    (he : (m.frame i).coalesced = true → e = .finish) : Idle (m.Wait older i e) := by
  have hqueue : Idle
      (m.put older { m.frame older with queue := (m.frame older).queue ++ [(i, e)] }) := by
    refine h.put rfl rfl (fun w hw => ?_) fun hc => ⟨h.port older hc, h.status older hc⟩
    rcases List.mem_append.mp hw with hw | hw
    · exact Or.inl hw
    · rw [List.mem_singleton.mp hw]
      exact Or.inr he
  exact hqueue.setStatus fun _ => ⟨by simp, by simp⟩

theorem Idle.enter (h : Idle m) (i address : ℕ) (t t' : AccessType) (place : ℕ) :
    Idle (entered m i address t t' place) := by
  refine ⟨fun j hj => ?_, fun j hj => ?_, fun j hj => ?_, fun g w hw hj => ?_⟩
  all_goals rw [entered_frame] at *
  · split_ifs at hj ⊢
    · exact absurd rfl hj
    · exact h.flag j hj
  · split_ifs at hj ⊢
    · rfl
    · exact h.port j hj
  · split_ifs at hj ⊢
    · exact absurd hj Bool.false_ne_true
    · exact h.status j hj
  · split_ifs at hw hj
    all_goals first
      | exact absurd hw List.not_mem_nil
      | exact absurd hj Bool.false_ne_true
      | exact h.queue g w hw hj

theorem Idle.join (h : Idle m) {g : ℕ} (hport : (m.frame i).port_locked = false)
    (hfree : ∀ g, ∀ w ∈ (m.frame g).queue, w.1 ≠ i) :
    Idle ((m.Coalesce g i).Wait g i .finish) := by
  have hself : (((m.Coalesce g i).Wait g i .finish).frame i).port_locked = false ∧
      (((m.Coalesce g i).Wait g i .finish).frame i).coalesced = true ∧
      (((m.Coalesce g i).Wait g i .finish).frame i).status = .suspended := by
    by_cases hg : i = g
    · simp [Module.Wait, Module.Coalesce, ← hg, hport]
    · simp [Module.Wait, Module.Coalesce, hg, hport]
  have hother : ∀ j, j ≠ i →
      (((m.Coalesce g i).Wait g i .finish).frame j).port_locked = (m.frame j).port_locked ∧
      (((m.Coalesce g i).Wait g i .finish).frame j).coalesced = (m.frame j).coalesced ∧
      (((m.Coalesce g i).Wait g i .finish).frame j).status = (m.frame j).status ∧
      (((m.Coalesce g i).Wait g i .finish).frame j).master_frame = (m.frame j).master_frame := by
    intro j hj
    by_cases hg : j = g
    · simp [Module.Wait, Module.Coalesce, hj, ← hg]
    · simp [Module.Wait, Module.Coalesce, hj, hg]
  have hqueue : ∀ j, ∀ w ∈ (((m.Coalesce g i).Wait g i .finish).frame j).queue,
      w ∈ (m.frame j).queue ∨ w = (i, .finish) := by
    intro j w hw
    by_cases hj : j = i
    · by_cases hg : i = g
      · simpa [Module.Wait, Module.Coalesce, hj, ← hg] using hw
      · left
        simpa [Module.Wait, Module.Coalesce, hj, hg] using hw
    · by_cases hg : j = g
      · simpa [Module.Wait, Module.Coalesce, hj, ← hg] using hw
      · left
        simpa [Module.Wait, Module.Coalesce, hj, hg] using hw
  refine ⟨fun j hj => ?_, fun j hj => ?_, fun j hj => ?_, fun j w hw hj => ?_⟩
  · by_cases hji : j = i
    · rw [hji]
      exact hself.2.1
    · rw [(hother j hji).2.1]
      exact h.flag j ((hother j hji).2.2.2 ▸ hj)
  · by_cases hji : j = i
    · rw [hji]
      exact hself.1
    · rw [(hother j hji).1]
      exact h.port j ((hother j hji).2.1 ▸ hj)
  · by_cases hji : j = i
    · rw [hji, hself.2.2]
      exact ⟨by simp, by simp⟩
    · rw [(hother j hji).2.2.1]
      exact h.status j ((hother j hji).2.1 ▸ hj)
  · rcases hqueue j w hw with hold | rfl
    · exact h.queue j w hold ((hother w.1 (hfree j w hold)).2.1 ▸ hj)
    · rfl

theorem wakeup_frame (l : List (ℕ × Event)) (m : Module) (j : ℕ) :
    ∃ s, (l.foldl (fun m w => m.setStatus w.1 (.scheduled w.2)) m).frame j =
      { m.frame j with status := s } ∧
        (s = (m.frame j).status ∨ ∃ e, (j, e) ∈ l ∧ s = .scheduled e) := by
  induction l generalizing m with
  | nil => exact ⟨(m.frame j).status, rfl, Or.inl rfl⟩
  | cons w l ih =>
    obtain ⟨s, hframe, hs⟩ := ih (m.setStatus w.1 (.scheduled w.2))
    refine ⟨s, ?_, ?_⟩
    · rw [List.foldl_cons, hframe, setStatus_frame]
      split_ifs with hj
      · rw [hj]
      · rfl
    · rcases hs with hs | ⟨e, he, hs⟩
      · rw [setStatus_frame] at hs
        split_ifs at hs with hj
        · exact Or.inr ⟨w.2, by rw [hj]; exact List.mem_cons_self, hs⟩
        · exact Or.inl hs
      · exact Or.inr ⟨e, List.mem_cons_of_mem w he, hs⟩

theorem Idle.finish (h : Idle m) (hfin : m.FinishAccess i = some m') : Idle m' := by
  unfold Module.FinishAccess at hfin
  split_ifs at hfin
  obtain rfl := Option.some.inj hfin
  -- masters are dropped first
  have hdrop : Idle ((m.removeAccess i).dropMaster i) := by
    have hframe : ∀ j, ∃ g, ((m.removeAccess i).dropMaster i).frame j =
        { m.frame j with master_frame := g } ∧ (g = none ∨ g = (m.frame j).master_frame) := by
      intro j
      by_cases hd : j ∈ m.accesses.erase i ∧ (m.frame j).master_frame = some i
      · exact ⟨none, by simp [Module.dropMaster, Module.removeAccess, hd], Or.inl rfl⟩
      · exact ⟨_, by simp [Module.dropMaster, Module.removeAccess, hd], Or.inr rfl⟩
    refine ⟨fun j hj => ?_, fun j hj => ?_, fun j hj => ?_, fun g w hw hj => ?_⟩
    · obtain ⟨g, hf, hg⟩ := hframe j
      rw [hf] at hj ⊢
      rcases hg with rfl | rfl
      · exact absurd rfl hj
      · exact h.flag j hj
    · obtain ⟨g, hf, -⟩ := hframe j
      rw [hf] at hj ⊢
      exact h.port j hj
    · obtain ⟨g, hf, -⟩ := hframe j
      rw [hf] at hj ⊢
      exact h.status j hj
    · obtain ⟨g', hf, -⟩ := hframe g
      obtain ⟨g'', hf', -⟩ := hframe w.1
      rw [hf] at hw
      rw [hf'] at hj
      exact h.queue g w hw hj
  generalize (m.removeAccess i).dropMaster i = m₁ at hdrop ⊢
  -- then the accesses in the queue wake up, to finish if they have joined
  have hwake : Idle ((m₁.frame i).queue.foldl
      (fun m w => m.setStatus w.1 (.scheduled w.2)) m₁) := by
    have hframe := wakeup_frame (m₁.frame i).queue m₁
    refine ⟨fun j hj => ?_, fun j hj => ?_, fun j hj => ?_, fun g w hw hj => ?_⟩
    · obtain ⟨s, hf, -⟩ := hframe j
      rw [hf] at hj ⊢
      exact hdrop.flag j hj
    · obtain ⟨s, hf, -⟩ := hframe j
      rw [hf] at hj ⊢
      exact hdrop.port j hj
    · obtain ⟨s, hf, hs⟩ := hframe j
      rw [hf] at hj ⊢
      rcases hs with rfl | ⟨e, he, rfl⟩
      · exact hdrop.status j hj
      · rw [show e = .finish from hdrop.queue i (j, e) he hj]
        exact ⟨by simp, by simp⟩
    · obtain ⟨s, hf, -⟩ := hframe g
      obtain ⟨s', hf', -⟩ := hframe w.1
      rw [hf] at hw
      rw [hf'] at hj
      exact hdrop.queue g w hw hj
  exact hwake.put rfl rfl (fun w hw => absurd hw List.not_mem_nil)
    fun hc => ⟨hwake.port i hc, hwake.status i hc⟩

theorem Idle.next (h : Idle m) (hs : Sound m) {a : Action} (hm : Moves m a m') : Idle m' := by
  cases hm with
  | join i address t t' place hi =>
    have hent := h.enter i address t t' place
    have hself : (entered m i address t t' place).frame i = .new address t' .running := by
      rw [entered_frame, if_pos rfl]
    unfold Module.coalesceOrLock
    cases (entered m i address t t' place).canCoalesce t'
      ((entered m i address t t' place).frame i).address i with
    | none => exact hent.setStatus fun hc => by rw [hself] at hc; cases hc
    | some g =>
      refine hent.join (by rw [hself]; rfl) fun g w hw => ?_
      have hsound := (hs.enter hi address t t' place).queue g w hw
      intro heq
      rw [heq, hself] at hsound
      cases hsound.2.2
  | enter i address t t' place hi =>
    refine (h.enter i address t t' place).setStatus fun hc => ?_
    rw [entered_frame, if_pos rfl] at hc
    cases hc
  | lock i o hi =>
    have hnot := h.not_coalesced_of_lock hi
    cases o with
    | none => exact h.setStatus fun hc => absurd (hnot.symm.trans hc) Bool.false_ne_true
    | some older => exact h.wait fun hc => absurd (hnot.symm.trans hc) Bool.false_ne_true
  | finish i m' hi hfin => exact (h.finish hfin).setStatus fun _ => ⟨by simp, by simp⟩
  | port i locked hi =>
    have hnot := h.not_coalesced_of_running hi
    exact h.put rfl rfl (fun _ hw => Or.inl hw)
      fun hc => absurd (hnot.symm.trans hc) Bool.false_ne_true
  | retry i hi =>
    have hnot := h.not_coalesced_of_running hi
    exact h.setStatus fun hc => absurd (hnot.symm.trans hc) Bool.false_ne_true
  | complete i hi => exact h.setStatus fun _ => ⟨by simp, by simp⟩

/-! New stores. -/

/-- A scan for a store looks at the last access only. -/
theorem canCoalesce_store_iff (hs : Sound m) {t : AccessType} (ht : IsStore t)
    (hi : m.last_id < i) (address place g : ℕ) :
    (entered m i address t t place).canCoalesce t address i = some g ↔
      ∃ j, m.accesses.getLast? = some j ∧ (m.frame j).access_type = t ∧
        m.block j = address >>> m.log_block_size ∧ (m.frame j).port_locked = false ∧
        g = (m.frame j).master_frame.getD j := by
  have hnew : i ∉ m.accesses := fun hmem => absurd (hs.le_last i hmem) (not_le.mpr hi)
  have hold : ∀ j ∈ m.accesses, (entered m i address t t place).frame j = m.frame j := by
    intro j hj
    rw [entered_frame, if_neg]
    rintro rfl
    exact hnew hj
  have hrewind : (entered m i address t t place).rewind i = m.accesses.reverse :=
    CoalescedAccesses.rewind_last rfl hnew
  have hscan : (entered m i address t t place).canCoalesce t address i =
      if (entered m i address t t place).getInFlightAddress address i = none then none
      else (entered m i address t t place).coalesceLast t address m.accesses.reverse := by
    unfold Module.canCoalesce
    rw [hrewind]
    rcases ht with rfl | rfl <;> rfl
  have hhead : m.accesses.reverse.head? = m.accesses.getLast? := List.head?_reverse
  rw [hscan]
  cases hlast : m.accesses.reverse with
  | nil =>
    rw [hlast, List.head?_nil] at hhead
    rw [← hhead]
    simp [Module.coalesceLast]
  | cons j rest =>
    rw [hlast, List.head?_cons] at hhead
    have hj : j ∈ m.accesses := List.mem_reverse.mp (hlast ▸ List.mem_cons_self)
    have hblock : (entered m i address t t place).block j = m.block j := by
      rw [Module.block, hold j hj]
      rfl
    rw [← hhead]
    -- the hash table has every access to the block
    have hfound : m.block j = address >>> m.log_block_size →
        (entered m i address t t place).getInFlightAddress address i ≠ none := by
      intro hsame hnone
      rw [Module.getInFlightAddress, Option.map_eq_none_iff, List.find?_eq_none] at hnone
      refine hnone (m.block j, j) ?_ (decide_eq_true ⟨hsame, (hs.le_last j hj).trans_lt hi⟩)
      exact (mem_entered_table i address t t place _).mpr
        (Or.inr ((hs.table _).mpr ⟨hj, rfl⟩))
    have hlog : (entered m i address t t place).log_block_size = m.log_block_size := rfl
    simp only [Module.coalesceLast, hold j hj, hblock, hlog, Option.some.injEq, exists_eq_left']
    constructor
    · intro hg
      split_ifs at hg with hnone htype hblock' hport
      exact ⟨not_not.mp htype, not_not.mp hblock', Bool.eq_false_iff.mpr hport,
        (Option.some.inj hg).symm⟩
    · rintro ⟨htype, hblock', hport, rfl⟩
      rw [if_neg (hfound hblock'), if_neg (not_not.mpr htype), if_neg (not_not.mpr hblock'), hport]
      rfl

/-- A new store joins an access that has not started exactly when the youngest access in flight
does not lead it to one that has. -/
theorem joinsUnstarted_iff (hs : Sound m) (h : Idle m) {t : AccessType} (ht : IsStore t)
    (hi : m.last_id < i) (past : List Action) (address place : ℕ) :
    JoinsUnstarted past m i address t place ↔ Unstarted past m address t := by
  constructor
  · intro hjoins j hlast htype hblock
    have hcan : (m.frame j).port_locked = false →
        ¬Started past ((m.frame j).master_frame.getD j) := fun hport =>
      hjoins _ ((canCoalesce_store_iff hs ht hi address place _).mpr
        ⟨j, hlast, htype, hblock, hport, rfl⟩)
    refine ⟨fun g hg => ?_, fun hnone hstarted => ?_⟩
    · have hport := h.port j (h.flag j (by rw [hg]; exact Option.some_ne_none g))
      have hmaster := hcan hport
      rwa [hg] at hmaster
    · by_contra hport
      have hself := hcan (Bool.eq_false_iff.mpr hport)
      rw [hnone] at hself
      exact hself hstarted
  · intro hunstarted g hg
    obtain ⟨j, hlast, htype, hblock, hport, rfl⟩ :=
      (canCoalesce_store_iff hs ht hi address place g).mp hg
    obtain ⟨hmaster, hself⟩ := hunstarted j hlast htype hblock
    cases hj : (m.frame j).master_frame with
    | some g => exact hmaster g hj
    | none =>
      intro hstarted
      exact Bool.false_ne_true (hport.symm.trans (hself hj hstarted))

/-- Every new store of a run, with the actions before it, and the condition that decides whether
the store joins only an access that has not started. -/
def Exactly (type : ModuleType) (log_block_size : ℕ) (run : List (Action × Module)) : Prop :=
  ∀ x ∈ history [] (Module.new type log_block_size) run, ∀ i address t place,
    x.2.2.1 = .enter i address t place → IsStore t →
      (JoinsUnstarted x.1 x.2.1 i address t place ↔ Unstarted x.1 x.2.1 address t)

theorem joinsUnstarted_run (type : ModuleType) (log_block_size : ℕ) {run : List (Action × Module)}
    (hrun : IsRun (fun m a m' => AccessList.next m a = some m') (Module.new type log_block_size)
      run) : Exactly type log_block_size run := by
  have hstep : ∀ (past : List Action) m a m', (Sound m ∧ Idle m) →
      AccessList.next m a = some m' → True → True →
      Sound m' ∧ Idle m' :=
    fun _ _ _ _ h hnext _ _ => ⟨h.1.next hnext, h.2.next h.1 (next_moves hnext)⟩
  intro x hx i address t place ha ht
  obtain ⟨⟨hs, h⟩, hnext⟩ := history_invariant (R := fun _ m => Sound m ∧ Idle m) hstep hrun
    ⟨sound_new type log_block_size, idle_new type log_block_size⟩ (fun _ _ => trivial) x hx
  rw [ha] at hnext
  simp only [AccessList.next] at hnext
  split_ifs at hnext with hi
  exact joinsUnstarted_iff hs h ht hi x.1 address place

end Steps

/-- A store gives back its port, and a second store comes. -/
def twoStores : List Action :=
  [.enter 1 0x40 .Store 0, .run 1, .port 1 true, .port 1 false, .enter 2 0x44 .Store 0]

theorem joinsUnstarted_twoStores :
    (trace AccessList.next (Module.new .Cache 6) twoStores).length = 5 ∧
      Exactly .Cache 6 (trace AccessList.next (Module.new .Cache 6) twoStores) :=
  ⟨by decide, joinsUnstarted_run .Cache 6 (isRun_trace _ _ _)⟩

/-- A store takes its port, and a third store joins it through the second. -/
def threeStores : List Action :=
  [.enter 1 0x40 .Store 0, .run 1, .enter 2 0x44 .Store 0, .port 1 true, .enter 3 0x48 .Store 0]

theorem joins_started :
    (trace AccessList.next (Module.new .Cache 6) threeStores).length = 5 ∧
      ¬∀ x ∈ history [] (Module.new .Cache 6)
          (trace AccessList.next (Module.new .Cache 6) threeStores), ∀ i address t place,
        x.2.2.1 = .enter i address t place → IsStore t →
          JoinsUnstarted x.1 x.2.1 i address t place := by
  refine ⟨by decide, fun h => ?_⟩
  have hx := List.getLast_mem (l := history [] (Module.new .Cache 6)
    (trace AccessList.next (Module.new .Cache 6) threeStores))
    (List.ne_nil_of_length_pos (by decide))
  exact h _ hx 3 0x48 .Store 0 rfl (Or.inl rfl) 1 (by decide) (by decide)

end MMLMStore.CoalescedStores
