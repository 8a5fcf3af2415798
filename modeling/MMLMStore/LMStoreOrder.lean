import MMLMStore.LMStoreEvents

/-!
# Issue order of the effects on LMRef entries

Runs of the event chains of one LMStore module. The effects on each entry take place in issue order
in every run in which an access, when it passes its lock event, leaves no older access to its entry
behind that its handler does not wait for and that has its effect still ahead.
-/
namespace MMLMStore.LMStoreOrder
open LMStoreDecode LMStoreEvents LMStoreTables StepRuns

def entryIndex (mem_map : MemMap) (address : ℕ) : Option ℕ :=
  (PhyToVirt mem_map address).map fun v => (DecodeAddress v.text).LMRefIndex

/-- The access has an effect on its entry still to come: the lookup of a load, the state change of
a store, the call of `allocateBlock` or `deallocateBlock`. -/
def effectAhead (f : Frame) : Bool :=
  match f.status.event, f.access_type with
  | .find_and_lock_action, .Load => false
  | .find_and_lock_finish, .Load => false
  -- a failed lookup is repeated
  | .action, .Load => f.error
  | .unlock, _ => false
  | .finish, _ => false
  | _, _ => true

/-- Effects on one entry come in issue order, and none before that of an older access. -/
structure InIssueOrder (mem_map : MemMap) (s : State) : Prop where
  sorted : s.2.Pairwise fun x y =>
    entryIndex mem_map x.address = entryIndex mem_map y.address → x.id ≤ y.id
  none_ahead : ∀ x ∈ s.2, ∀ f ∈ s.1.accesses, f.id < x.id →
    entryIndex mem_map f.address = entryIndex mem_map x.address → ¬ effectAhead f

/-- Types of older accesses that the handlers wait for. -/
def waitsForType : AccessType → AccessType → Bool
  | .Store, _ => true
  | _, .Store => true
  | .Load, .ReadAlloc => true
  | .Load, .NoReadAlloc => true
  | _, _ => false

def WaitsFor (m : Module) (f older : Frame) : Prop :=
  waitsForType f.access_type older.access_type ∨
    older.address >>> m.log_block_size = f.address >>> m.log_block_size

instance (m : Module) (f older : Frame) : Decidable (WaitsFor m f older) :=
  inferInstanceAs (Decidable (_ ∨ _))

/-- The access is at its lock event and has nobody to wait for. -/
def Passes (m : Module) (f : Frame) : Prop :=
  f.status.event = .lock ∧ ∀ older ∈ m.accesses, older.id < f.id → ¬ WaitsFor m f older

instance (m : Module) (f : Frame) : Decidable (Passes m f) := inferInstanceAs (Decidable (_ ∧ _))

/-- An access that passes its lock event finds no older access to its entry with an effect still
ahead. The handler has waited for some of them; the condition is about the others. -/
def LocksClear (mem_map : MemMap) (s : State) : Action → Prop
  | .process id _ => ∀ f ∈ s.1.accesses, f.id = id → Passes s.1 f →
    ∀ older ∈ s.1.accesses, older.id < f.id →
      entryIndex mem_map older.address = entryIndex mem_map f.address → ¬ effectAhead older
  | _ => True

instance (mem_map : MemMap) (s : State) : ∀ a, Decidable (LocksClear mem_map s a)
  | .process id _ => inferInstanceAs (Decidable (∀ f ∈ s.1.accesses, f.id = id → Passes s.1 f →
    ∀ older ∈ s.1.accesses, older.id < f.id →
      entryIndex mem_map older.address = entryIndex mem_map f.address → ¬ effectAhead older))
  | .access _ _ => isTrue trivial
  | .tick => isTrue trivial
  | .reply _ _ _ => isTrue trivial

/-! What a step does to the accesses in flight. -/

def Ascending (m : Module) : Prop :=
  m.accesses.Pairwise (·.id < ·.id) ∧ ∀ f ∈ m.accesses, f.id < m.next_id

/-- What an access becomes: no effect comes back, and the lock event is left by passing only. -/
structure Follows (m : Module) (a : Action) (f f' : Frame) : Prop where
  id : f'.id = f.id
  address : f'.address = f.address
  access_type : f'.access_type = f.access_type
  effectAhead : effectAhead f' → effectAhead f
  lock : f'.status.event ≠ .lock →
    f.status.event ≠ .lock ∨ (∃ c, a = .process f.id c) ∧ Passes m f

/-- What every step but the issue of an access keeps. -/
structure Kept (m : Module) (a : Action) (m' : Module) : Prop where
  next_id : m'.next_id = m.next_id
  ids : (m'.accesses.map Frame.id).Sublist (m.accesses.map Frame.id)
  frames : ∀ f' ∈ m'.accesses, ∃ f ∈ m.accesses, Follows m a f f'

theorem Follows.refl (m : Module) (a : Action) (f : Frame) : Follows m a f f :=
  ⟨rfl, rfl, rfl, fun h => h, Or.inl⟩

theorem effectAhead_wakeup (time : ℕ) (f : Frame) :
    effectAhead (f.wakeup time) = effectAhead f := by
  unfold effectAhead Frame.wakeup
  rw [Status.event_wakeup]

theorem Follows.wakeup {m : Module} {a : Action} {f f' : Frame} (h : Follows m a f f')
    (time : ℕ) : Follows m a f (f'.wakeup time) where
  id := h.id
  address := h.address
  access_type := h.access_type
  effectAhead := by
    rw [effectAhead_wakeup]
    exact h.effectAhead
  lock := by
    rw [Frame.wakeup, Status.event_wakeup]
    exact h.lock

namespace Kept

variable {m m' : Module} {a : Action}

theorem refl (m : Module) (a : Action) : Kept m a m :=
  ⟨rfl, List.Sublist.refl _, fun f hf => ⟨f, hf, .refl m a f⟩⟩

/-- Only the accesses and the next id matter. -/
theorem congr {m'' : Module} (h : Kept m a m') (haccesses : m''.accesses = m'.accesses)
    (hnext : m''.next_id = m'.next_id) : Kept m a m'' where
  next_id := hnext.trans h.next_id
  ids := by
    rw [haccesses]
    exact h.ids
  frames := by
    rw [haccesses]
    exact h.frames

theorem lmstore (m : Module) (a : Action) (lmstore : LMStore) :
    Kept m a { m with lmstore := lmstore } :=
  (refl m a).congr rfl rfl

theorem put {f f' : Frame} (h : Kept m a m') (hf : f ∈ m.accesses) (hfollows : Follows m a f f') :
    Kept m a (m'.put f') where
  next_id := h.next_id
  ids := by
    have hsame : (m'.put f').accesses.map Frame.id = m'.accesses.map Frame.id := by
      rw [Module.put, List.map_map]
      refine List.map_congr_left fun g _ => ?_
      rw [Function.comp_apply]
      split_ifs with hid
      · exact hid.symm
      · rfl
    rw [hsame]
    exact h.ids
  frames := by
    intro g' hg'
    obtain ⟨g, hg, rfl⟩ := List.mem_map.mp hg'
    split_ifs
    · exact ⟨f, hf, hfollows⟩
    · exact h.frames g hg

theorem next {f f' : Frame} (h : Kept m a m') (hf : f ∈ m.accesses) {e : Event} {after : ℕ}
    (hfollows : Follows m a f { f' with status := .scheduled e (m'.time + after) }) :
    Kept m a (m'.Next f' e after) :=
  h.put hf hfollows

theorem unlockPort (m : Module) (a : Action) : Kept m a m.UnlockPort := by
  unfold Module.UnlockPort
  split
  · exact (refl m a).congr rfl rfl
  · rename_i id rest _
    refine ⟨rfl, ?_, fun f' hf' => ?_⟩
    · have hsame : (m.accesses.map fun g => if g.id = id then g.wakeup m.time else g).map Frame.id =
          m.accesses.map Frame.id := by
        rw [List.map_map]
        refine List.map_congr_left fun g _ => ?_
        rw [Function.comp_apply]
        split_ifs <;> rfl
      rw [hsame]
    · obtain ⟨f, hf, rfl⟩ := List.mem_map.mp hf'
      refine ⟨f, hf, ?_⟩
      split_ifs
      · exact (Follows.refl m a f).wakeup _
      · exact .refl m a f

theorem finishAccess (m : Module) (a : Action) (f : Frame) : Kept m a (m.FinishAccess f) := by
  refine ⟨rfl, ?_, fun g' hg' => ?_⟩
  · have hsame : (m.FinishAccess f).accesses.map Frame.id =
        (m.accesses.filter (·.id ≠ f.id)).map Frame.id := by
      rw [Module.FinishAccess, List.map_map]
      refine List.map_congr_left fun g _ => ?_
      rw [Function.comp_apply]
      split_ifs <;> rfl
    rw [hsame]
    exact List.filter_sublist.map _
  · obtain ⟨g, hg, rfl⟩ := List.mem_map.mp hg'
    refine ⟨g, (List.mem_filter.mp hg).1, ?_⟩
    split_ifs
    · exact (Follows.refl m a g).wakeup _
    · exact .refl m a g

theorem lockPort {f f' : Frame} (hf : f ∈ m.accesses)
    (hfollows : ∀ status : Status, status.event = .find_and_lock_port →
      Follows m a f { f' with status := status }) : Kept m a (m.LockPort f') := by
  unfold Module.LockPort
  split_ifs
  · exact ((refl m a).put hf (hfollows .inPortQueue rfl)).congr rfl rfl
  · exact ((refl m a).put hf (hfollows (.scheduled _ _) rfl)).congr rfl rfl

end Kept

/-- An access with its effect ahead that is past its lock event may become anything. -/
theorem Follows.of_ahead {m : Module} {a : Action} {f f' : Frame} (hid : f'.id = f.id)
    (haddress : f'.address = f.address) (htype : f'.access_type = f.access_type)
    (hahead : LMStoreOrder.effectAhead f) (hlock : f.status.event ≠ .lock) : Follows m a f f' :=
  ⟨hid, haddress, htype, fun _ => hahead, fun _ => Or.inl hlock⟩

theorem Follows.of_done {m : Module} {a : Action} {f f' : Frame} (hid : f'.id = f.id)
    (haddress : f'.address = f.address) (htype : f'.access_type = f.access_type)
    (hdone : LMStoreOrder.effectAhead f' = false) (hlock : f.status.event ≠ .lock) :
    Follows m a f f' :=
  ⟨hid, haddress, htype, fun h => by simp [hdone] at h, fun _ => Or.inl hlock⟩

theorem Follows.wait {m : Module} {a : Action} {f : Frame} (hevent : f.status.event = .lock)
    (older : ℕ) : Follows m a f { f with status := .inQueue older .lock } := by
  refine ⟨rfl, rfl, rfl, fun _ => ?_, fun h => absurd rfl h⟩
  simp [LMStoreOrder.effectAhead, hevent]

theorem Follows.pass {m : Module} {f f' : Frame} {c : Choice} (hid : f'.id = f.id)
    (haddress : f'.address = f.address) (htype : f'.access_type = f.access_type)
    (hevent : f.status.event = .lock)
    (hfirst : ∀ older ∈ m.accesses, older.id < f.id → ¬ WaitsFor m f older) :
    Follows m (.process f.id c) f f' := by
  refine ⟨hid, haddress, htype, fun _ => ?_, fun _ => Or.inr ⟨⟨c, rfl⟩, hevent, hfirst⟩⟩
  simp [LMStoreOrder.effectAhead, hevent]

/-! Whom the handlers wait for. -/

theorem mem_older {m : Module} (hasc : Ascending m) {f g : Frame} (hf : f ∈ m.accesses)
    (hg : g ∈ m.accesses) (hlt : g.id < f.id) : g ∈ m.older f := by
  have hpairwise := hasc.1
  rw [Module.older]
  generalize m.accesses = l at hf hg hpairwise ⊢
  induction l with
  | nil => simp at hg
  | cons x l ih =>
    rw [List.pairwise_cons] at hpairwise
    have hx : x.id ≠ f.id := by
      intro hxf
      rcases List.mem_cons.mp hg with rfl | hg
      · omega
      · have := hpairwise.1 g hg
        omega
    rw [List.takeWhile_cons_of_pos (by simpa using hx)]
    rcases List.mem_cons.mp hg with rfl | hg
    · exact List.mem_cons_self
    · rcases List.mem_cons.mp hf with rfl | hf
      · exact absurd rfl hx
      · exact List.mem_cons_of_mem _ (ih hf hg hpairwise.2)

theorem ascending_new (lmstore : LMStore) (num_ports log_block_size data_latency
    mm_block_size : ℕ) :
    Ascending (Module.new lmstore num_ports log_block_size data_latency mm_block_size) :=
  ⟨List.Pairwise.nil, by simp [Module.new]⟩

theorem eq_of_ascending {m : Module} (hasc : Ascending m) {f g : Frame} (hf : f ∈ m.accesses)
    (hg : g ∈ m.accesses) (hid : g.id = f.id) : g = f := by
  have hnodup : (m.accesses.map Frame.id).Nodup :=
    List.pairwise_map.mpr (hasc.1.imp fun h => h.ne)
  exact List.inj_on_of_nodup_map hnodup hg hf hid

theorem find?_of_ascending {m : Module} (hasc : Ascending m) {f : Frame} (hf : f ∈ m.accesses) :
    m.accesses.find? (·.id = f.id) = some f := by
  obtain ⟨g, hg⟩ : ∃ g, m.accesses.find? (·.id = f.id) = some g := by
    rw [← Option.isSome_iff_exists, List.find?_isSome]
    exact ⟨f, hf, by simp⟩
  have hid : g.id = f.id := by simpa using List.find?_some hg
  rw [hg, eq_of_ascending hasc hf (List.mem_of_find?_eq_some hg) hid]

theorem getInFlightWrite_eq_none {m : Module} {f : Frame} (h : m.getInFlightWrite f = none)
    {g : Frame} (hg : g ∈ m.older f) : g.access_type ≠ .Store := by
  have hnone := List.find?_eq_none.mp h g (List.mem_reverse.mpr hg)
  simpa using hnone

theorem getInFlightAlloc_eq_none {m : Module} {f : Frame} (h : m.getInFlightAlloc f = none)
    {g : Frame} (hg : g ∈ m.older f) :
    g.access_type ≠ .ReadAlloc ∧ g.access_type ≠ .NoReadAlloc := by
  have hnone := List.find?_eq_none.mp h g (List.mem_reverse.mpr hg)
  simpa using hnone

theorem getInFlightAddress_eq_none {m : Module} {address : ℕ} {f : Frame} {c : Choice}
    (h : m.getInFlightAddress address f c = none) {g : Frame} (hg : g ∈ m.accesses)
    (hlt : g.id < f.id) : g.address >>> m.log_block_size ≠ address >>> m.log_block_size := by
  intro hsame
  rw [Module.getInFlightAddress, List.getElem?_eq_none_iff] at h
  have hmem : g ∈ m.accesses.filter fun g =>
      g.address >>> m.log_block_size = address >>> m.log_block_size && g.id < f.id := by
    simp [hg, hsame, hlt]
  have hpos := List.length_pos_of_mem hmem
  have := Nat.mod_lt c.pick hpos
  omega

/-- A load passes when there is no older allocation, store or access to the same block address. -/
theorem load_first {m : Module} {f : Frame} {c : Choice} (hasc : Ascending m)
    (hf : f ∈ m.accesses) (htype : f.access_type = .Load)
    (h : (m.getInFlightAlloc f <|> m.getInFlightWrite f <|>
      m.getInFlightAddress f.address f c) = none) :
    ∀ older ∈ m.accesses, older.id < f.id → ¬ WaitsFor m f older := by
  simp only [Option.orElse_eq_orElse, Option.orElse_eq_or, Option.or_eq_none_iff] at h
  obtain ⟨halloc, hwrite, haddress⟩ := h
  rintro older holder hlt (hwaits | hsame)
  · have hmem := mem_older hasc hf holder hlt
    have hnot := getInFlightAlloc_eq_none halloc hmem
    have hstore := getInFlightWrite_eq_none hwrite hmem
    rw [htype] at hwaits
    revert hwaits
    cases hkind : older.access_type <;> simp_all [waitsForType]
  · exact getInFlightAddress_eq_none haddress holder hlt hsame

/-- An allocation or deallocation passes when there is no older store or access to the same block
address. -/
theorem block_first {m : Module} {f : Frame} {c : Choice} (hasc : Ascending m)
    (hf : f ∈ m.accesses) (hload : f.access_type ≠ .Load) (hstore : f.access_type ≠ .Store)
    (h : (m.getInFlightWrite f <|> m.getInFlightAddress f.address f c) = none) :
    ∀ older ∈ m.accesses, older.id < f.id → ¬ WaitsFor m f older := by
  simp only [Option.orElse_eq_orElse, Option.orElse_eq_or, Option.or_eq_none_iff] at h
  obtain ⟨hwrite, haddress⟩ := h
  rintro older holder hlt (hwaits | hsame)
  · have hnot := getInFlightWrite_eq_none hwrite (mem_older hasc hf holder hlt)
    revert hwaits
    cases hkind : older.access_type <;> cases hown : f.access_type <;> simp_all [waitsForType]
  · exact getInFlightAddress_eq_none haddress holder hlt hsame

/-- A store passes when it is the oldest access in flight. -/
theorem store_first {m : Module} {f : Frame} (hasc : Ascending m) (hf : f ∈ m.accesses)
    (h : (m.older f).getLast? = none) :
    ∀ older ∈ m.accesses, older.id < f.id → ¬ WaitsFor m f older := by
  intro older holder hlt _
  have hmem := mem_older hasc hf holder hlt
  rw [List.getLast?_eq_none_iff.mp h] at hmem
  simp at hmem

/-! What the handlers do. -/

/-- What the event of an access leaves of the accesses, and the operation it makes. -/
structure Handled (m : Module) (a : Action) (f : Frame) (r : Module × Option Effect) : Prop where
  kept : Kept m a r.1
  effect : ∀ x ∈ r.2, x.id = f.id ∧ x.address = f.address ∧ effectAhead f ∧
    f.status.event ≠ .lock

section Handlers

variable {mem_map : MemMap} {m : Module} {a : Action} {f : Frame} {c : Choice}
  {r : Module × Option Effect}

theorem Handled.silent {m' : Module} (h : Kept m a m') : Handled m a f (m', none) :=
  ⟨h, by simp⟩

theorem Handled.operation {m' : Module} (h : Kept m a m') (op : Operation)
    (hahead : effectAhead f) (hlock : f.status.event ≠ .lock) :
    Handled m a f (m', some ⟨f.id, f.address, op⟩) := by
  refine ⟨h, fun x hx => ?_⟩
  cases hx
  exact ⟨rfl, rfl, hahead, hlock⟩

theorem findAndLock_handled (hf : f ∈ m.accesses)
    (h : EventLMStoreFindAndLockHandler mem_map m f f.status.event = some r) :
    Handled m a f r := by
  cases hevent : f.status.event <;> rw [hevent] at h
  case find_and_lock =>
    cases h
    have hahead : effectAhead f := by simp [effectAhead, hevent]
    exact .silent (Kept.lockPort hf fun status _ => .of_ahead rfl rfl rfl hahead (by simp [hevent]))
  case find_and_lock_port =>
    obtain ⟨⟨hit, blockstate⟩, -, hr⟩ := Option.bind_eq_some_iff.mp h
    cases hr
    have hahead : effectAhead f := by simp [effectAhead, hevent]
    have hlock : f.status.event ≠ .lock := by simp [hevent]
    refine .operation (.next (.refl m a) hf ?_) _ hahead hlock
    exact .of_ahead rfl rfl rfl hahead hlock
  case find_and_lock_action =>
    cases h
    refine .silent ((Kept.unlockPort m a).next hf ⟨rfl, rfl, rfl, fun h => ?_, fun _ => ?_⟩)
    · revert h
      cases htype : f.access_type <;> simp [effectAhead, hevent, htype]
    · exact Or.inl (by simp [hevent])
  case find_and_lock_finish =>
    cases h
    refine .silent ((Kept.refl m a).next hf ⟨rfl, rfl, rfl, fun h => ?_, fun _ => ?_⟩)
    · revert h
      cases htype : f.access_type <;> simp [effectAhead, hevent, htype]
    · exact Or.inl (by simp [hevent])
  all_goals cases h

theorem load_handled (hasc : Ascending m) (hf : f ∈ m.accesses) (htype : f.access_type = .Load)
    (h : EventLMStoreLoadHandler m f c f.status.event = some r) :
    Handled m (.process f.id c) f r := by
  cases hevent : f.status.event <;> rw [hevent] at h
  case lock =>
    simp only [EventLMStoreLoadHandler] at h
    split at h <;> cases h
    case h_1 older _ => exact .silent ((Kept.refl m _).put hf (.wait hevent older.id))
    case h_2 hnone =>
      exact .silent ((Kept.refl m _).next hf
        (.pass rfl rfl rfl hevent (load_first hasc hf htype hnone)))
  case action =>
    simp only [EventLMStoreLoadHandler] at h
    split_ifs at h with herror <;> cases h
    · have hahead : effectAhead f := by simp [effectAhead, hevent, htype, herror]
      exact .silent ((Kept.refl m _).next hf (.of_ahead rfl rfl rfl hahead (by simp [hevent])))
    · exact .silent ((Kept.refl m _).next hf (.of_done rfl rfl rfl rfl (by simp [hevent])))
  case unlock =>
    cases h
    exact .silent ((Kept.refl m _).next hf (.of_done rfl rfl rfl rfl (by simp [hevent])))
  case finish =>
    cases h
    exact .silent (Kept.finishAccess m _ f)
  all_goals cases h

theorem store_handled (hasc : Ascending m) (hf : f ∈ m.accesses) (htype : f.access_type = .Store)
    (h : EventLMStoreStoreHandler mem_map m f c f.status.event = some r) :
    Handled m (.process f.id c) f r := by
  cases hevent : f.status.event <;> rw [hevent] at h
  case lock =>
    simp only [EventLMStoreStoreHandler] at h
    split at h <;> cases h
    case h_1 older _ => exact .silent ((Kept.refl m _).put hf (.wait hevent older.id))
    case h_2 hnone =>
      exact .silent ((Kept.refl m _).next hf
        (.pass rfl rfl rfl hevent (store_first hasc hf hnone)))
  case action =>
    have hahead : effectAhead f := by simp [effectAhead, hevent, htype]
    simp only [EventLMStoreStoreHandler] at h
    split_ifs at h with herror
    · cases h
      exact .silent ((Kept.refl m _).next hf (.of_ahead rfl rfl rfl hahead (by simp [hevent])))
    · obtain ⟨lmstore, -, hr⟩ := Option.bind_eq_some_iff.mp h
      cases hr
      have hlock : f.status.event ≠ .lock := by simp [hevent]
      refine .operation (.next (.lmstore m _ lmstore) hf ?_) _ hahead hlock
      exact .of_ahead rfl rfl rfl hahead hlock
  case unlock =>
    cases h
    exact .silent ((Kept.refl m _).next hf (.of_done rfl rfl rfl rfl (by simp [hevent])))
  case finish =>
    cases h
    exact .silent (Kept.finishAccess m _ f)
  all_goals cases h

/-- The lock event of allocations and deallocations. -/
theorem blockLock_handled (hasc : Ascending m) (hf : f ∈ m.accesses)
    (hload : f.access_type ≠ .Load) (hstore : f.access_type ≠ .Store)
    (hevent : f.status.event = .lock)
    (h : (match m.getInFlightWrite f <|> m.getInFlightAddress f.address f c with
      | some older => some (m.Wait f older .lock, none)
      | none => some (m.Next f .action 0, none)) = some r) :
    Handled m (.process f.id c) f r := by
  split at h <;> cases h
  case h_1 older _ => exact .silent ((Kept.refl m _).put hf (.wait hevent older.id))
  case h_2 hnone =>
    refine .silent (.next (.refl m _) hf (.pass rfl rfl rfl hevent ?_))
    exact block_first hasc hf hload hstore hnone

/-- The last part of allocations and deallocations, which ends in a call on the directory. -/
theorem blockProcess_handled (f' : Frame) {call : Option (Bool × LMStore)} {op : Operation}
    (hf : f ∈ m.accesses) (hevent : f.status.event = .process) (hid : f'.id = f.id)
    (haddress : f'.address = f.address) (htype : f'.access_type = f.access_type)
    (h : (if f'.pending ≠ 0 then some (m.put f', none)
      else if f'.error then some (m.Next f' .lock (m.getRetryLatency c), none)
      else do
        let (_, lmstore) ← call
        some ({ m with lmstore := lmstore }.Next f' .unlock 0,
          some ⟨f'.id, f'.address, op⟩)) = some r) :
    Handled m a f r := by
  have hahead : effectAhead f := by simp [effectAhead, hevent]
  have hlock : f.status.event ≠ .lock := by simp [hevent]
  split_ifs at h
  · cases h
    exact .silent ((Kept.refl m a).put hf (.of_ahead hid haddress htype hahead hlock))
  · cases h
    exact .silent (.next (.refl m a) hf (.of_ahead hid haddress htype hahead hlock))
  · obtain ⟨⟨done, lmstore⟩, -, hr⟩ := Option.bind_eq_some_iff.mp h
    cases hr
    rw [hid, haddress]
    refine .operation (.next (.lmstore m a lmstore) hf ?_) _ hahead hlock
    exact .of_ahead hid haddress htype hahead hlock

theorem process_handled (f' : Frame) (hf : f ∈ m.accesses) (hevent : f.status.event = .process)
    (hid : f'.id = f.id) (haddress : f'.address = f.address)
    (htype : f'.access_type = f.access_type) (h : handle mem_map m f' .process c = some r) :
    Handled m a f r := by
  rw [handle, if_neg (by decide)] at h
  cases hkind : f'.access_type <;> simp only [hkind] at h
  case ReadAlloc | NoReadAlloc | WriteDealloc | NoWriteDealloc =>
    exact blockProcess_handled { f' with pending := f'.pending - 1 } hf hevent hid haddress htype h
  all_goals cases h

theorem alloc_handled (hasc : Ascending m) (hf : f ∈ m.accesses)
    (htype : f.access_type = .ReadAlloc ∨ f.access_type = .NoReadAlloc)
    (hprocess : f.status.event ≠ .process)
    (h : EventLMStoreAllocHandler mem_map m f c f.status.event = some r) :
    Handled m (.process f.id c) f r := by
  have hload : f.access_type ≠ .Load := by rcases htype with h | h <;> simp [h]
  have hstore : f.access_type ≠ .Store := by rcases htype with h | h <;> simp [h]
  cases hevent : f.status.event <;> rw [hevent] at h
  case lock => exact blockLock_handled hasc hf hload hstore hevent h
  case action =>
    have hahead : effectAhead f := by simp [effectAhead, hevent, hload]
    have hlock : f.status.event ≠ .lock := by simp [hevent]
    simp only [EventLMStoreAllocHandler] at h
    split_ifs at h <;> cases h
    · exact .silent (.next (.refl m _) hf (.of_ahead rfl rfl rfl hahead hlock))
    · exact .silent ((Kept.refl m _).put hf (.of_ahead rfl rfl rfl hahead hlock))
  case process => exact absurd hevent hprocess
  case unlock =>
    cases h
    exact .silent (.next (.refl m _) hf (.of_done rfl rfl rfl rfl (by simp [hevent])))
  case finish =>
    cases h
    exact .silent (Kept.finishAccess m _ f)
  all_goals cases h

theorem dealloc_handled (hasc : Ascending m) (hf : f ∈ m.accesses)
    (htype : f.access_type = .WriteDealloc ∨ f.access_type = .NoWriteDealloc)
    (hprocess : f.status.event ≠ .process)
    (h : EventLMStoreDeallocHandler mem_map m f c f.status.event = some r) :
    Handled m (.process f.id c) f r := by
  have hload : f.access_type ≠ .Load := by rcases htype with h | h <;> simp [h]
  have hstore : f.access_type ≠ .Store := by rcases htype with h | h <;> simp [h]
  cases hevent : f.status.event <;> rw [hevent] at h
  case lock => exact blockLock_handled hasc hf hload hstore hevent h
  case action =>
    have hahead : effectAhead f := by simp [effectAhead, hevent, hload]
    have hlock : f.status.event ≠ .lock := by simp [hevent]
    simp only [EventLMStoreDeallocHandler] at h
    split_ifs at h
    · obtain ⟨⟨done, lmstore⟩, -, hr⟩ := Option.bind_eq_some_iff.mp h
      cases hr
      refine .operation (.next (.lmstore m _ lmstore) hf ?_) _ hahead hlock
      exact .of_ahead rfl rfl rfl hahead hlock
    · cases h
      exact .silent ((Kept.refl m _).put hf (.of_ahead rfl rfl rfl hahead hlock))
  case process => exact absurd hevent hprocess
  case unlock =>
    cases h
    exact .silent (.next (.refl m _) hf (.of_done rfl rfl rfl rfl (by simp [hevent])))
  case finish =>
    cases h
    exact .silent (Kept.finishAccess m _ f)
  all_goals cases h

theorem handle_handled (hasc : Ascending m) (hf : f ∈ m.accesses)
    (h : handle mem_map m f f.status.event c = some r) : Handled m (.process f.id c) f r := by
  by_cases hprocess : f.status.event = .process
  · rw [hprocess] at h
    exact process_handled f hf hprocess rfl rfl rfl h
  · unfold handle at h
    split_ifs at h
    · exact findAndLock_handled hf h
    · cases htype : f.access_type <;> simp only [htype] at h
      case Load => exact load_handled hasc hf htype h
      case Store => exact store_handled hasc hf htype h
      case ReadAlloc => exact alloc_handled hasc hf (Or.inl htype) hprocess h
      case NoReadAlloc => exact alloc_handled hasc hf (Or.inr htype) hprocess h
      case WriteDealloc => exact dealloc_handled hasc hf (Or.inl htype) hprocess h
      case NoWriteDealloc => exact dealloc_handled hasc hf (Or.inr htype) hprocess h

end Handlers

/-! Steps and runs. -/

/-- A step issues an access, or keeps those in flight; an operation is made for one of these. -/
theorem step_cases {mem_map : MemMap} {m m' : Module} {a : Action} {e : Option Effect}
    (hasc : Ascending m) (h : step mem_map m a = some (m', e)) :
    (e = none ∧ ∃ f, f.id = m.next_id ∧ f.status.event = .lock ∧ m' = m.StartAccess f) ∨
      Kept m a m' ∧ ∀ x ∈ e, ∃ f ∈ m.accesses, x.id = f.id ∧ x.address = f.address ∧
        effectAhead f ∧ f.status.event ≠ .lock := by
  have hhandled : ∀ {f : Frame}, f ∈ m.accesses → Handled m a f (m', e) →
      Kept m a m' ∧ ∀ x ∈ e, ∃ f ∈ m.accesses, x.id = f.id ∧ x.address = f.address ∧
        effectAhead f ∧ f.status.event ≠ .lock :=
    fun {f} hf h => ⟨h.kept, fun x hx => ⟨f, hf, h.effect x hx⟩⟩
  cases a with
  | access store address =>
    obtain ⟨m₁, haccess, hr⟩ := Option.map_eq_some_iff.mp h
    cases hr
    obtain ⟨-, hm⟩ := Option.ite_none_right_eq_some.mp haccess
    cases hm
    exact Or.inl ⟨rfl, _, rfl, rfl, rfl⟩
  | tick =>
    simp only [step] at h
    split_ifs at h
    cases h
    exact Or.inr ⟨(Kept.refl m _).congr rfl rfl, by simp⟩
  | process id c =>
    obtain ⟨f, hf, hstep⟩ := Option.bind_eq_some_iff.mp h
    split_ifs at hstep
    obtain rfl : f.id = id := by simpa using List.find?_some hf
    have hmem := List.mem_of_find?_eq_some hf
    exact Or.inr (hhandled hmem (handle_handled hasc hmem hstep))
  | reply id error c =>
    obtain ⟨f, hf, hstep⟩ := Option.bind_eq_some_iff.mp h
    split_ifs at hstep with hstatus
    have hevent : f.status.event = .process := by
      rw [hstatus]
      rfl
    have hmem := List.mem_of_find?_eq_some hf
    exact Or.inr (hhandled hmem (process_handled { f with error := error } hmem hevent
      rfl rfl rfl hstep))

theorem Kept.ascending {m m' : Module} {a : Action} (h : Kept m a m') (hasc : Ascending m) :
    Ascending m' := by
  constructor
  · have hids : (m.accesses.map Frame.id).Pairwise (· < ·) := List.pairwise_map.mpr hasc.1
    exact List.pairwise_map.mp (hids.sublist h.ids)
  · intro f' hf'
    obtain ⟨f, hf, hfollows⟩ := h.frames f' hf'
    rw [hfollows.id, h.next_id]
    exact hasc.2 f hf

theorem ascending_startAccess {m : Module} {f : Frame} (hasc : Ascending m)
    (hid : f.id = m.next_id) : Ascending (m.StartAccess f) := by
  constructor
  · refine List.pairwise_append.mpr ⟨hasc.1, List.pairwise_singleton _ _, fun g hg x hx => ?_⟩
    rw [List.mem_singleton.mp hx, hid]
    exact hasc.2 g hg
  · intro g hg
    change g.id < m.next_id + 1
    rcases List.mem_append.mp hg with hg | hg
    · have := hasc.2 g hg
      omega
    · rw [List.mem_singleton.mp hg]
      omega

theorem ascending_step {mem_map : MemMap} {m m' : Module} {a : Action} {e : Option Effect}
    (hasc : Ascending m) (h : step mem_map m a = some (m', e)) : Ascending m' := by
  rcases step_cases hasc h with ⟨-, f, hid, -, rfl⟩ | ⟨hkept, -⟩
  · exact ascending_startAccess hasc hid
  · exact hkept.ascending hasc

/-- What holds throughout: an access past its lock event leaves no older access to its entry behind
that has an effect ahead. -/
structure Orderly (mem_map : MemMap) (s : State) : Prop where
  ascending : Ascending s.1
  logged : ∀ x ∈ s.2, x.id < s.1.next_id
  locked : ∀ f ∈ s.1.accesses, ∀ older ∈ s.1.accesses, older.id < f.id →
    entryIndex mem_map older.address = entryIndex mem_map f.address →
    f.status.event ≠ .lock → ¬ effectAhead older
  order : InIssueOrder mem_map s

section Step

variable {mem_map : MemMap} {s : State} {a : Action}

/-- A new access is the youngest and has not passed its lock event. -/
theorem orderly_startAccess {f : Frame} (h : Orderly mem_map s) (hid : f.id = s.1.next_id)
    (hevent : f.status.event = .lock) : Orderly mem_map (s.1.StartAccess f, s.2) where
  ascending := ascending_startAccess h.ascending hid
  logged := fun x hx => (h.logged x hx).trans (Nat.lt_succ_self _)
  locked := by
    intro g hg older holder hlt hentry hlock
    rcases List.mem_append.mp hg with hg | hg
    · rcases List.mem_append.mp holder with holder | holder
      · exact h.locked g hg older holder hlt hentry hlock
      · have := h.ascending.2 g hg
        rw [List.mem_singleton.mp holder] at hlt
        omega
    · rw [List.mem_singleton.mp hg] at hlock
      exact absurd hevent hlock
  order := by
    refine ⟨h.order.sorted, fun x hx g hg hlt hentry => ?_⟩
    rcases List.mem_append.mp hg with hg | hg
    · exact h.order.none_ahead x hx g hg hlt hentry
    · have := h.logged x hx
      rw [List.mem_singleton.mp hg] at hlt
      omega

/-- An access in flight is past its lock event only when no older one has an effect ahead. -/
theorem locked_of_kept {m' : Module} (h : Orderly mem_map s) (hkept : Kept s.1 a m')
    (hclear : LocksClear mem_map s a) : ∀ f ∈ m'.accesses, ∀ older ∈ m'.accesses,
      older.id < f.id → entryIndex mem_map older.address = entryIndex mem_map f.address →
      f.status.event ≠ .lock → ¬ effectAhead older := by
  intro f' hf' older' holder' hlt hentry hlock hahead
  obtain ⟨f, hf, hfollows⟩ := hkept.frames f' hf'
  obtain ⟨older, holder, holderFollows⟩ := hkept.frames older' holder'
  rw [hfollows.id, holderFollows.id] at hlt
  rw [hfollows.address, holderFollows.address] at hentry
  have hbefore := holderFollows.effectAhead hahead
  rcases hfollows.lock hlock with hpast | ⟨⟨c, rfl⟩, hpasses⟩
  · exact h.locked f hf older holder hlt hentry hpast hbefore
  · exact hclear f hf rfl hpasses older holder hlt hentry hbefore

/-- The operation of an access that is past its lock event comes in order. -/
theorem inIssueOrder_operation {f : Frame} {x : Effect} (h : Orderly mem_map s)
    (hf : f ∈ s.1.accesses) (hid : x.id = f.id) (haddress : x.address = f.address)
    (hahead : effectAhead f) (hlock : f.status.event ≠ .lock) :
    InIssueOrder mem_map (s.1, s.2 ++ [x]) where
  sorted := by
    refine List.pairwise_append.mpr ⟨h.order.sorted, List.pairwise_singleton _ _, ?_⟩
    intro y hy z hz hentry
    rw [List.mem_singleton.mp hz, haddress] at hentry
    rw [List.mem_singleton.mp hz, hid]
    by_contra hlt
    exact h.order.none_ahead y hy f hf (by omega) hentry.symm hahead
  none_ahead := by
    intro y hy older holder hlt hentry
    rcases List.mem_append.mp hy with hy | hy
    · exact h.order.none_ahead y hy older holder hlt hentry
    · rw [List.mem_singleton.mp hy, hid] at hlt
      rw [List.mem_singleton.mp hy, haddress] at hentry
      exact h.locked f hf older holder hlt hentry hlock

theorem InIssueOrder.kept {m' : Module} {log : List Effect} (h : InIssueOrder mem_map (s.1, log))
    (hkept : Kept s.1 a m') : InIssueOrder mem_map (m', log) where
  sorted := h.sorted
  none_ahead := by
    intro x hx f' hf' hlt hentry hahead
    obtain ⟨f, hf, hfollows⟩ := hkept.frames f' hf'
    rw [hfollows.id] at hlt
    rw [hfollows.address] at hentry
    exact h.none_ahead x hx f hf hlt hentry (hfollows.effectAhead hahead)

theorem orderly_step {t : State} (h : Orderly mem_map s) (hstep : Steps mem_map s a t)
    (hclear : LocksClear mem_map s a) : Orderly mem_map t := by
  obtain ⟨⟨m', e⟩, hr, rfl⟩ := Option.map_eq_some_iff.mp hstep
  rcases step_cases h.ascending hr with ⟨rfl, f, hid, hevent, rfl⟩ | ⟨hkept, heffect⟩
  · rw [Option.toList_none, List.append_nil]
    exact orderly_startAccess h hid hevent
  · refine ⟨hkept.ascending h.ascending, fun x hx => ?_, locked_of_kept h hkept hclear, ?_⟩
    · change x.id < m'.next_id
      rw [hkept.next_id]
      rcases List.mem_append.mp hx with hx | hx
      · exact h.logged x hx
      · obtain ⟨f, hf, hid, -⟩ := heffect x (Option.mem_toList.mp hx)
        rw [hid]
        exact h.ascending.2 f hf
    · cases e with
      | none =>
        rw [Option.toList_none, List.append_nil]
        exact h.order.kept hkept
      | some x =>
        obtain ⟨f, hf, hid, haddress, hahead, hlock⟩ := heffect x rfl
        exact (inIssueOrder_operation h hf hid haddress hahead hlock).kept hkept

end Step

theorem orderly_new (mem_map : MemMap) (lmstore : LMStore)
    (num_ports log_block_size data_latency mm_block_size : ℕ) : Orderly mem_map
      (Module.new lmstore num_ports log_block_size data_latency mm_block_size, []) where
  ascending := ascending_new _ _ _ _ _
  logged := by simp
  locked := by simp [Module.new]
  order := ⟨List.Pairwise.nil, by simp⟩

/-- The effects on each entry take place in issue order in every run whose accesses pass their lock
events with no unfinished older access to their entry that the handlers do not wait for. -/
theorem inIssueOrder_of_locksClear (mem_map : MemMap) (lmstore : LMStore)
    (num_ports log_block_size data_latency mm_block_size : ℕ) {run : List (Action × State)}
    (hrun : IsRun (Steps mem_map)
      (Module.new lmstore num_ports log_block_size data_latency mm_block_size, []) run)
    (hclear : ∀ x ∈ transitions
      (Module.new lmstore num_ports log_block_size data_latency mm_block_size, []) run,
      LocksClear mem_map x.1 x.2.1) :
    ∀ t ∈ states (Module.new lmstore num_ports log_block_size data_latency mm_block_size, []) run,
      InIssueOrder mem_map t := by
  have hall := invariant (I := Orderly mem_map) (C := fun s a _ => LocksClear mem_map s a)
    (fun s a t h hstep hclear => orderly_step h hstep hclear) hrun
    (orderly_new mem_map lmstore num_ports log_block_size data_latency mm_block_size) hclear
  exact fun t ht => (hall t ht).order

def twoEntries : MemMap
  | 0x0000 => some (translated 0x71000110 (by norm_num))
  | 0x1000 => some (translated 0x72000000 (by norm_num))
  | 0x2000 => some (translated 0x73000110 (by norm_num))
  | 0x3000 => some (translated 0x71010220 (by norm_num))
  | 0x4000 => some (translated 0x72010000 (by norm_num))
  | _ => none

def onePort : State := (Module.new (LMStore.new 64 2 2 2 64) 1 6 2 64, [])

/-- The events of an access one after the other. -/
def events (id count : ℕ) : List Action := List.replicate count (.process id ⟨0, 0⟩)

def allocated (id address : ℕ) : List Action :=
  .access false address :: events id 4 ++ [.tick, .tick] ++ events id 1

/-- A block is allocated, loaded and deallocated. The deallocation comes when the load has looked up
its entry and is still in flight. -/
def overlapping : List Action :=
  allocated 0 0x0000 ++ .access false 0x1000 :: events 1 3 ++ .access false 0x2000 :: events 2 4 ++
    [.tick, .tick] ++ events 1 4 ++ [.tick, .tick] ++ events 1 1

theorem inIssueOrder_overlapping :
    (follow twoEntries onePort overlapping).length = overlapping.length ∧
      (∃ x ∈ transitions onePort (follow twoEntries onePort overlapping),
        ∃ older ∈ x.1.1.accesses, ∃ f ∈ x.1.1.accesses, older.id < f.id ∧ Passes x.1.1 f ∧
          entryIndex twoEntries older.address = entryIndex twoEntries f.address) ∧
      ∀ t ∈ states onePort (follow twoEntries onePort overlapping), InIssueOrder twoEntries t :=
  ⟨by decide +kernel, by decide +kernel,
    inIssueOrder_of_locksClear twoEntries (LMStore.new 64 2 2 2 64) 1 6 2 64
      (isRun_follow twoEntries onePort overlapping) (by decide +kernel)⟩

/-- A load of the other block holds the port when a block is loaded and then deallocated. -/
def portHeld : List Action :=
  allocated 0 0x0000 ++ allocated 1 0x3000 ++ .access false 0x4000 :: events 2 3 ++
    .access false 0x1000 :: events 3 2 ++ .access false 0x2000 :: events 4 4 ++
    [.tick, .tick] ++ events 2 1 ++ events 3 1

/-- The deallocation does not wait for the load, whose lookup comes after it. -/
theorem inIssueOrder_fails :
    ¬ ∀ (mem_map : MemMap) (lmstore : LMStore)
      (num_ports log_block_size data_latency mm_block_size : ℕ) (run : List (Action × State)),
      IsRun (Steps mem_map)
        (Module.new lmstore num_ports log_block_size data_latency mm_block_size, []) run →
      ∀ t ∈ states (Module.new lmstore num_ports log_block_size data_latency mm_block_size, [])
        run, InIssueOrder mem_map t := by
  intro h
  have horder := h twoEntries (LMStore.new 64 2 2 2 64) 1 6 2 64
    (follow twoEntries onePort portHeld) (isRun_follow twoEntries onePort portHeld)
  have hlast : ∃ t ∈ states onePort (follow twoEntries onePort portHeld),
      t.2 = [⟨0, 0x0000, .allocateBlock⟩, ⟨1, 0x3000, .allocateBlock⟩, ⟨2, 0x4000, .FindBlock⟩,
        ⟨4, 0x2000, .deallocateBlock⟩, ⟨3, 0x1000, .FindBlock⟩] := by decide +kernel
  obtain ⟨t, ht, hlog⟩ := hlast
  have hsorted := (horder t ht).sorted
  rw [hlog] at hsorted
  revert hsorted
  decide +kernel

end MMLMStore.LMStoreOrder
