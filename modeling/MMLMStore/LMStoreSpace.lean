import MMLMStore.LMStoreBounds

/-!
# Storage accounting over runs of allocations and deallocations

Runs of `allocateBlock` and `deallocateBlock` in which an allocation meets an invalid entry and a
deallocation a valid one. The running index equals the allocated total, and the allocated ranges
stay apart and inside the store, exactly under conditions on the single calls.
-/
namespace MMLMStore.LMStoreSpace
open LMStoreBounds (Shaped shaped_new)
open HexText LMStoreDecode LMStoreTables StepRuns StorageLedger

inductive Call
  | allocateBlock (address : ℕ)
  | deallocateBlock (address : ℕ)
  deriving DecidableEq, Repr

def named (mem_map : MemMap) (s : LMStore) (address : ℕ) : Option (ℕ × LMDir_t) :=
  (PhyToVirt mem_map address).bind (entryOf s)

def perform (mem_map : MemMap) (s : LMStore) : Call → Option (Bool × LMStore)
  | .allocateBlock address => allocateBlock mem_map s address
  | .deallocateBlock address => deallocateBlock mem_map s address

/-- An allocation names an invalid entry, a deallocation one that is not. -/
def Allowed (mem_map : MemMap) (s : LMStore) : Call → Prop
  | .allocateBlock address => ∀ x ∈ named mem_map s address, x.2.state = .BlockInvalid
  | .deallocateBlock address => ∀ x ∈ named mem_map s address, x.2.state ≠ .BlockInvalid

instance (mem_map : MemMap) (s : LMStore) : ∀ c : Call, Decidable (Allowed mem_map s c)
  | .allocateBlock address =>
    inferInstanceAs (Decidable (∀ x ∈ named mem_map s address, x.2.state = .BlockInvalid))
  | .deallocateBlock address =>
    inferInstanceAs (Decidable (∀ x ∈ named mem_map s address, x.2.state ≠ .BlockInvalid))

/-- One allowed call, together with the value it returns. -/
def CallStep (mem_map : MemMap) (s : LMStore) (c : Call × Bool) (t : LMStore) : Prop :=
  Allowed mem_map s c.1 ∧ perform mem_map s c.1 = some (c.2, t)

instance (mem_map : MemMap) (s : LMStore) (c : Call × Bool) (t : LMStore) :
    Decidable (CallStep mem_map s c t) := inferInstanceAs (Decidable (_ ∧ _))

/-- The run that a list of calls makes, up to the first call with no result. -/
def follow (mem_map : MemMap) : LMStore → List Call → List ((Call × Bool) × LMStore)
  | _, [] => []
  | s, c :: cs =>
    match perform mem_map s c with
    | none => []
    | some (r, t) => ((c, r), t) :: follow mem_map t cs

theorem mem_named {mem_map : MemMap} {s : LMStore} {address : ℕ} {x : ℕ × LMDir_t} :
    x ∈ named mem_map s address ↔
      ∃ v, PhyToVirt mem_map address = some v ∧ entryOf s v = some x := by
  simp [named, Option.bind_eq_some_iff]

def allocatedSize (s : LMStore) : ℕ :=
  ((s.LMDir.filter (·.state ≠ .BlockInvalid)).map LMDir_t.BlockSize).sum

def liveSize (e : LMDir_t) : ℕ := if e.state = .BlockInvalid then 0 else e.BlockSize

theorem allocatedSize_eq (s : LMStore) : allocatedSize s = (s.LMDir.map liveSize).sum := by
  unfold allocatedSize
  induction s.LMDir with
  | nil => rfl
  | cons e l ih =>
    by_cases h : e.state = .BlockInvalid
    · simpa [h, liveSize] using ih
    · simpa [h, liveSize] using ih

theorem sum_map_set {α : Type*} (f : α → ℕ) {l : List α} {i : ℕ} {e : α} (e' : α)
    (h : l[i]? = some e) : ((l.set i e').map f).sum + f e = (l.map f).sum + f e' := by
  induction l generalizing i with
  | nil => simp at h
  | cons a l ih =>
    cases i with
    | zero =>
      simp only [List.getElem?_cons_zero, Option.some.injEq] at h
      subst h
      simp only [List.set_cons_zero, List.map_cons, List.sum_cons]
      omega
    | succ i =>
      have hi := ih (by simpa using h)
      simp only [List.set_cons_succ, List.map_cons, List.sum_cons]
      omega

/-- What every reachable directory satisfies: entries are reached through two digits, so only the
first 256 are ever in use, and no block is larger than two digits say. -/
structure Bounded (s : LMStore) : Prop where
  dirIndex_lt : ∀ k i, dirIndex s k = some i → k < 256 → i < 256
  size_lt : ∀ e ∈ s.LMDir, e.BlockSize < 256
  far_invalid : ∀ i e, s.LMDir[i]? = some e → 256 ≤ i → e.state = .BlockInvalid
  index_lt : s.LMBIndex < 2 ^ 32

theorem bounded_new (BlockSize LMRefSize LMDirSize NumberOfBlocks lmsStoreSize : ℕ) :
    Bounded (LMStore.new BlockSize LMRefSize LMDirSize NumberOfBlocks lmsStoreSize) where
  dirIndex_lt := by
    intro k i h hk
    rw [dirIndex, new_LMRef] at h
    split_ifs at h
    · simp only [Option.map_some, Option.some.injEq] at h
      omega
    · simp at h
  size_lt := by
    intro e he
    rw [new_LMDir _ _ _ _ _ he]
    norm_num
  far_invalid := by
    intro i e he _
    rw [new_LMDir _ _ _ _ _ (List.mem_of_getElem? he)]
  index_lt := by
    change 0 < 2 ^ 32
    norm_num

theorem allocatedSize_lt {s : LMStore} (h : Bounded s) : allocatedSize s < 65536 := by
  have hsplit : (s.LMDir.map liveSize).sum =
      ((s.LMDir.take 256).map liveSize).sum + ((s.LMDir.drop 256).map liveSize).sum := by
    rw [← List.sum_append, ← List.map_append, List.take_append_drop]
  have hfar : ((s.LMDir.drop 256).map liveSize).sum = 0 := by
    rw [List.sum_eq_zero_iff]
    intro x hx
    obtain ⟨e, he, rfl⟩ := List.mem_map.mp hx
    obtain ⟨i, hi⟩ := List.getElem?_of_mem he
    rw [List.getElem?_drop] at hi
    simp [liveSize, h.far_invalid _ e hi (by omega)]
  have hnear : ((s.LMDir.take 256).map liveSize).sum ≤
      ((s.LMDir.take 256).map liveSize).length • 255 := by
    apply List.sum_le_card_nsmul
    intro x hx
    obtain ⟨e, he, rfl⟩ := List.mem_map.mp hx
    have := h.size_lt e (List.mem_of_mem_take he)
    unfold liveSize
    split_ifs <;> omega
  have hlen : ((s.LMDir.take 256).map liveSize).length ≤ 256 := by simp
  rw [allocatedSize_eq, hsplit, hfar]
  simp only [smul_eq_mul] at hnear
  nlinarith

theorem mem_install {s : LMStore} {i : ℕ} {e f : LMDir_t} {d : Decoded}
    (hf : f ∈ (s.install i e d).LMDir) : f ∈ s.LMDir ∨
      f = { e with LMBIndex := s.LMBIndex, BlockID := d.BlockID, state := .BlockExclusive,
                   BlockSize := d.BlockSize } :=
  List.mem_or_eq_of_mem_set hf

theorem mem_release {s : LMStore} {i freed : ℕ} {e f : LMDir_t}
    (hf : f ∈ (s.release i e freed).LMDir) :
    f ∈ s.LMDir ∨ f = { e with state := .BlockInvalid } :=
  List.mem_or_eq_of_mem_set hf

theorem bounded_install {s : LMStore} (h : Bounded s) {v : VirtAddr} {i : ℕ} {e : LMDir_t}
    (he : entryOf s v = some (i, e)) : Bounded (s.install i e (DecodeAddress v.text)) := by
  obtain ⟨hi, hget⟩ := entryOf_eq_some.mp he
  refine ⟨fun k j hj hk => h.dirIndex_lt k j hj hk, fun f hf => ?_, fun j f hf hj => ?_,
    Nat.mod_lt _ (by norm_num)⟩
  · rcases mem_install hf with hf | rfl
    · exact h.size_lt f hf
    · exact DecodeAddress_BlockSize_lt _
  · have hlt := h.dirIndex_lt _ _ hi (DecodeAddress_LMRefIndex_lt _)
    rw [LMStore.install, List.getElem?_set_ne (by omega)] at hf
    exact h.far_invalid j f hf hj

theorem bounded_release {s : LMStore} (h : Bounded s) {i freed : ℕ} {e : LMDir_t}
    (he : s.LMDir[i]? = some e) : Bounded (s.release i e freed) := by
  refine ⟨fun k j hj hk => h.dirIndex_lt k j hj hk, fun f hf => ?_, fun j f hf hj => ?_,
    Nat.mod_lt _ (by norm_num)⟩
  · rcases mem_release hf with hf | rfl
    · exact h.size_lt f hf
    · exact h.size_lt e (List.mem_of_getElem? he)
  · rw [LMStore.release, List.getElem?_set] at hf
    split_ifs at hf with hij hlen
    · cases hf; rfl
    · exact h.far_invalid j f hf hj

theorem bounded_step {mem_map : MemMap} {s t : LMStore} {c : Call × Bool} (h : Bounded s)
    (hstep : CallStep mem_map s c t) : Bounded t := by
  obtain ⟨address | address, r⟩ := c
  · rcases allocateBlock_cases hstep.2 with ⟨-, rfl, -⟩ | ⟨-, v, i, e, -, -, he, rfl⟩
    · exact h
    · exact bounded_install h he
  · rcases deallocateBlock_cases hstep.2 with ⟨-, rfl, -⟩ | ⟨-, v, i, e, freed, -, he, -, rfl⟩
    · exact h
    · exact bounded_release h (entryOf_eq_some.mp he).2

theorem allocatedSize_install {s : LMStore} {v : VirtAddr} {i : ℕ} {e : LMDir_t}
    (he : entryOf s v = some (i, e)) (hinvalid : e.state = .BlockInvalid) :
    allocatedSize (s.install i e (DecodeAddress v.text)) =
      allocatedSize s + (DecodeAddress v.text).BlockSize := by
  have hset := sum_map_set liveSize
    { e with LMBIndex := s.LMBIndex, BlockID := (DecodeAddress v.text).BlockID,
             state := .BlockExclusive, BlockSize := (DecodeAddress v.text).BlockSize }
    (entryOf_eq_some.mp he).2
  rw [allocatedSize_eq, allocatedSize_eq, LMStore.install]
  simpa [liveSize, hinvalid] using hset

theorem allocatedSize_release {s : LMStore} {i : ℕ} (freed : ℕ) {e : LMDir_t}
    (he : s.LMDir[i]? = some e) (hvalid : e.state ≠ .BlockInvalid) :
    allocatedSize (s.release i e freed) + e.BlockSize = allocatedSize s := by
  have hset := sum_map_set liveSize { e with state := .BlockInvalid } he
  rw [allocatedSize_eq, allocatedSize_eq, LMStore.release]
  simpa [liveSize, hvalid] using hset

/-- A deallocation gives back the size held at directory entry `LMDirIndex`; here that is the
size of the entry it names. -/
def FreesOwnSize (mem_map : MemMap) (s : LMStore) : Call → Prop
  | .allocateBlock _ => True
  | .deallocateBlock address => ∀ x ∈ named mem_map s address,
      ∀ freed ∈ s.LMDir[s.LMDirIndex]?, freed.BlockSize = x.2.BlockSize

instance (mem_map : MemMap) (s : LMStore) : ∀ c : Call, Decidable (FreesOwnSize mem_map s c)
  | .allocateBlock _ => isTrue trivial
  | .deallocateBlock address =>
    inferInstanceAs (Decidable (∀ x ∈ named mem_map s address,
      ∀ freed ∈ s.LMDir[s.LMDirIndex]?, freed.BlockSize = x.2.BlockSize))

theorem lmbIndex_step_iff {mem_map : MemMap} {s t : LMStore} {c : Call × Bool} (h : Bounded s)
    (hsum : s.LMBIndex = allocatedSize s) (hstep : CallStep mem_map s c t) :
    t.LMBIndex = allocatedSize t ↔ FreesOwnSize mem_map s c.1 := by
  obtain ⟨address | address, r⟩ := c
  · simp only [FreesOwnSize, iff_true]
    rcases allocateBlock_cases hstep.2 with ⟨-, rfl, -⟩ | ⟨-, v, i, e, hv, -, he, rfl⟩
    · exact hsum
    · have hsize := DecodeAddress_BlockSize_lt v.text
      have hlt := allocatedSize_lt h
      rw [allocatedSize_install he (hstep.1 (i, e) (mem_named.mpr ⟨v, hv, he⟩))]
      simp only [LMStore.install, addU32]
      omega
  · rcases deallocateBlock_cases hstep.2 with ⟨-, rfl, hnone⟩ | ⟨-, v, i, e, freed, hv, he, hf, rfl⟩
    · simp [FreesOwnSize, named, hnone, hsum]
    · have hget := (entryOf_eq_some.mp he).2
      have hmem : (i, e) ∈ named mem_map s address := mem_named.mpr ⟨v, hv, he⟩
      have hvalid := hstep.1 (i, e) hmem
      have hlt := allocatedSize_lt h
      have hsize := h.size_lt e (List.mem_of_getElem? hget)
      have hfreed := h.size_lt freed (List.mem_of_getElem? hf)
      have hrel := allocatedSize_release freed.BlockSize hget hvalid
      have hindex : (s.release i e freed.BlockSize).LMBIndex =
          allocatedSize (s.release i e freed.BlockSize) ↔ freed.BlockSize = e.BlockSize := by
        simp only [LMStore.release, subU32] at hrel ⊢
        omega
      rw [hindex]
      constructor
      · intro heq x hx zero hz
        cases Option.some.inj (hmem.symm.trans hx)
        cases Option.some.inj (hf.symm.trans hz)
        exact heq
      · intro hown
        exact hown (i, e) hmem freed hf

/-- The running index equals the allocated total after every call exactly when each deallocation
names an entry of the size held at directory entry `LMDirIndex`. -/
theorem lmbIndex_eq_allocatedSize_iff (mem_map : MemMap)
    {BlockSize LMRefSize LMDirSize NumberOfBlocks lmsStoreSize : ℕ}
    {run : List ((Call × Bool) × LMStore)}
    (hrun : IsRun (CallStep mem_map)
      (LMStore.new BlockSize LMRefSize LMDirSize NumberOfBlocks lmsStoreSize) run) :
    (∀ t ∈ states (LMStore.new BlockSize LMRefSize LMDirSize NumberOfBlocks lmsStoreSize) run,
      t.LMBIndex = allocatedSize t) ↔
    ∀ x ∈ transitions (LMStore.new BlockSize LMRefSize LMDirSize NumberOfBlocks lmsStoreSize) run,
      FreesOwnSize mem_map x.1 x.2.1.1 := by
  have hstart : (LMStore.new BlockSize LMRefSize LMDirSize NumberOfBlocks lmsStoreSize).LMBIndex =
      allocatedSize (LMStore.new BlockSize LMRefSize LMDirSize NumberOfBlocks lmsStoreSize) := by
    have hnone : (LMStore.new BlockSize LMRefSize LMDirSize NumberOfBlocks
        lmsStoreSize).LMDir.filter (·.state ≠ .BlockInvalid) = [] := by
      rw [List.filter_eq_nil_iff]
      intro e he
      simp [new_LMDir _ _ _ _ _ he]
    rw [allocatedSize, hnone]
    rfl
  have hgood := good_iff (P := fun t => t.LMBIndex = allocatedSize t)
    (Q := fun _ _ _ => True) (C := fun s c _ => FreesOwnSize mem_map s c.1)
    (fun s c t hI h => bounded_step hI h)
    (fun s c t hI hP h => by simpa using lmbIndex_step_iff hI hP h)
    hrun (bounded_new _ _ _ _ _) hstart
  simpa using hgood

/-- Two blocks of eight and four bytes at LMRef entries 0 and 1, with their allocation and
deallocation addresses at physical addresses 0 to 3. -/
def twoBlocks : MemMap
  | 0 => some (translated 0x71000108 (by norm_num))
  | 1 => some (translated 0x73000108 (by norm_num))
  | 2 => some (translated 0x71010204 (by norm_num))
  | 3 => some (translated 0x73010204 (by norm_num))
  | _ => none

/-- Entry 0 alone gives back what it took. -/
theorem lmbIndex_eq_allocatedSize_entry_zero :
    let run := follow twoBlocks (LMStore.new 64 2 2 2 64) [.allocateBlock 0, .deallocateBlock 1]
    run.length = 2 ∧ ∀ t ∈ states (LMStore.new 64 2 2 2 64) run, t.LMBIndex = allocatedSize t :=
  ⟨by decide, (lmbIndex_eq_allocatedSize_iff twoBlocks (by decide)).mpr (by decide)⟩

/-- Entry 1 after its allocation and deallocation: the four bytes stay counted. -/
theorem lmbIndex_eq_allocatedSize_fails :
    ¬ ∀ (mem_map : MemMap) (BlockSize LMRefSize LMDirSize NumberOfBlocks lmsStoreSize : ℕ)
      (run : List ((Call × Bool) × LMStore)),
      IsRun (CallStep mem_map)
        (LMStore.new BlockSize LMRefSize LMDirSize NumberOfBlocks lmsStoreSize) run →
      ∀ t ∈ states (LMStore.new BlockSize LMRefSize LMDirSize NumberOfBlocks lmsStoreSize) run,
        t.LMBIndex = allocatedSize t := by
  intro h
  have hrun := h twoBlocks 64 2 2 2 64
    (follow twoBlocks (LMStore.new 64 2 2 2 64) [.allocateBlock 2, .deallocateBlock 3]) (by decide)
  revert hrun
  decide

/-! Placement of the blocks in the storage. -/

def storage (e : LMDir_t) : Finset ℕ := Finset.Ico e.LMBIndex (e.LMBIndex + e.BlockSize)

/-- Entries in use occupy disjoint ranges inside the store. -/
structure Placed (s : LMStore) : Prop where
  disjoint : ∀ (i j : ℕ) (e f : LMDir_t), i ≠ j → s.LMDir[i]? = some e → s.LMDir[j]? = some f →
    e.state ≠ .BlockInvalid → f.state ≠ .BlockInvalid → Disjoint (storage e) (storage f)
  inside : ∀ e ∈ s.LMDir, e.state ≠ .BlockInvalid → storage e ⊆ Finset.Ico 0 s.LMStoreSize

def requestedSize (mem_map : MemMap) (address : ℕ) : Option ℕ :=
  (requested mem_map address).map Prod.snd

def RefusesOverflow (mem_map : MemMap) (s : LMStore) (c : Call × Bool) (t : LMStore) : Prop :=
  match c with
  | (.allocateBlock address, r) => ∀ size ∈ requestedSize mem_map address,
      s.LMStoreSize < s.LMBIndex + size → r = false ∧ t.LMDir = s.LMDir ∧ t.LMBIndex = s.LMBIndex
  | (.deallocateBlock _, _) => True

/-- The bytes from the running index on, as many as the allocation asks for, are free and inside
the store. -/
def StartsFree (mem_map : MemMap) (s : LMStore) : Call → Prop
  | .allocateBlock address => ∀ size ∈ requestedSize mem_map address,
      s.LMBIndex + size ≤ s.LMStoreSize ∧ ∀ e ∈ s.LMDir, e.state ≠ .BlockInvalid →
        Disjoint (Finset.Ico s.LMBIndex (s.LMBIndex + size)) (storage e)
  | .deallocateBlock _ => True

/-- A new block placed on free bytes keeps all blocks apart, and only such a one does. -/
theorem placed_install_iff {s : LMStore} {i : ℕ} {e : LMDir_t} {d : Decoded} (h : Placed s)
    (he : s.LMDir[i]? = some e) (hinvalid : e.state = .BlockInvalid)
    (hfit : s.LMBIndex + d.BlockSize ≤ s.LMStoreSize) :
    Placed (s.install i e d) ↔ ∀ f ∈ s.LMDir, f.state ≠ .BlockInvalid →
      Disjoint (Finset.Ico s.LMBIndex (s.LMBIndex + d.BlockSize)) (storage f) := by
  have hlen : i < s.LMDir.length := (List.getElem?_eq_some_iff.mp he).1
  have hself : (s.install i e d).LMDir[i]? =
      some { e with LMBIndex := s.LMBIndex, BlockID := d.BlockID, state := .BlockExclusive,
                    BlockSize := d.BlockSize } := by
    rw [LMStore.install, List.getElem?_set_self hlen]
  have hother : ∀ j, i ≠ j → (s.install i e d).LMDir[j]? = s.LMDir[j]? := by
    intro j hj
    rw [LMStore.install, List.getElem?_set_ne hj]
  constructor
  · intro hplaced f hf hvalid
    obtain ⟨j, hj⟩ := List.getElem?_of_mem hf
    have hne : i ≠ j := by
      rintro rfl
      rw [he] at hj
      cases hj
      exact hvalid hinvalid
    exact hplaced.disjoint i j _ f hne hself (by rw [hother j hne, hj]) (by simp) hvalid
  · intro hfree
    refine ⟨fun j k f g hne hj hk hf hg => ?_, fun f hf hvalid => ?_⟩
    · rcases eq_or_ne i j with rfl | hij
      · rw [hself] at hj
        cases hj
        rw [hother k hne] at hk
        exact hfree g (List.mem_of_getElem? hk) hg
      · rw [hother j hij] at hj
        rcases eq_or_ne i k with rfl | hik
        · rw [hself] at hk
          cases hk
          exact (hfree f (List.mem_of_getElem? hj) hf).symm
        · rw [hother k hik] at hk
          exact h.disjoint j k f g hne hj hk hf hg
    · rcases mem_install hf with hf | rfl
      · exact h.inside f hf hvalid
      · exact Finset.Ico_subset_Ico (Nat.zero_le _) hfit

theorem placed_release {s : LMStore} {i freed : ℕ} {e : LMDir_t} (h : Placed s) :
    Placed (s.release i e freed) := by
  have hback : ∀ (j : ℕ) (f : LMDir_t), (s.release i e freed).LMDir[j]? = some f →
      f.state ≠ .BlockInvalid →
      s.LMDir[j]? = some f := by
    intro j f hj hvalid
    rw [LMStore.release, List.getElem?_set] at hj
    split_ifs at hj with hij hlen
    · cases hj
      exact absurd rfl hvalid
    · exact hj
  refine ⟨fun j k f g hne hj hk hf hg => ?_, fun f hf hvalid => ?_⟩
  · exact h.disjoint j k f g hne (hback j f hj hf) (hback k g hk hg) hf hg
  · obtain ⟨j, hj⟩ := List.getElem?_of_mem hf
    exact h.inside f (List.mem_of_getElem? (hback j f hj hvalid)) hvalid

theorem placed_step_iff {mem_map : MemMap} {s t : LMStore} {c : Call × Bool} (h : Placed s)
    (hstep : CallStep mem_map s c t) :
    (Placed t ∧ RefusesOverflow mem_map s c t) ↔ StartsFree mem_map s c.1 := by
  obtain ⟨address | address, r⟩ := c
  · rcases allocateBlock_cases hstep.2 with ⟨-, rfl, hrefused⟩ | ⟨rfl, v, i, e, hv, hp, he, rfl⟩
    · simp [RefusesOverflow, StartsFree, requestedSize, requested_of_refused hrefused, h]
    · have hreq : requestedSize mem_map address = some (DecodeAddress v.text).BlockSize := by
        rw [requestedSize, requested_of_accepted hv hp, Option.map_some]
      have hget := (entryOf_eq_some.mp he).2
      have hinvalid := hstep.1 (i, e) (mem_named.mpr ⟨v, hv, he⟩)
      have hrefuse : RefusesOverflow mem_map s (.allocateBlock address, true)
          (s.install i e (DecodeAddress v.text)) ↔
          s.LMBIndex + (DecodeAddress v.text).BlockSize ≤ s.LMStoreSize := by
        simp [RefusesOverflow, hreq]
      have hfree : StartsFree mem_map s (.allocateBlock address) ↔
          s.LMBIndex + (DecodeAddress v.text).BlockSize ≤ s.LMStoreSize ∧
            ∀ f ∈ s.LMDir, f.state ≠ .BlockInvalid → Disjoint (Finset.Ico s.LMBIndex
              (s.LMBIndex + (DecodeAddress v.text).BlockSize)) (storage f) := by
        simp [StartsFree, hreq]
      rw [hrefuse, hfree, and_comm]
      exact and_congr_right fun hfit => placed_install_iff h hget hinvalid hfit
  · simp only [RefusesOverflow, StartsFree, and_true, iff_true]
    rcases deallocateBlock_cases hstep.2 with ⟨-, rfl, -⟩ | ⟨-, v, i, e, freed, -, -, -, rfl⟩
    · exact h
    · exact placed_release h

/-! The calls. -/

def booked (mem_map : MemMap) (g : Ledger) : Call → Ledger
  | .allocateBlock address => g.allocateAt mem_map address
  | .deallocateBlock address => g.deallocateAt mem_map address

/-- A block of this size lies behind another one, and does not reach round to it, by the bytes
allocated and given back since that one was. An empty block is nowhere in the way. -/
def Clears (size : ℕ) (b : Block) : Prop :=
  size = 0 ∨ b.size = 0 ∨ (b.size : ℤ) ≤ b.since % 2 ^ 32 ∧ b.since % 2 ^ 32 + size ≤ 2 ^ 32

instance (size : ℕ) (b : Block) : Decidable (Clears size b) :=
  inferInstanceAs (Decidable (_ ∨ _ ∨ _))

/-- By the calls so far, an allocation ends within the store and clears every block that was
allocated and not freed since. -/
def HasRoom (mem_map : MemMap) (LMStoreSize : ℕ) (g : Ledger) : Call → Prop
  | .allocateBlock address => ∀ x ∈ requested mem_map address,
      g.offset + x.2 ≤ LMStoreSize ∧ ∀ b ∈ g.blocks, Clears x.2 b
  | .deallocateBlock _ => True

instance (mem_map : MemMap) (LMStoreSize : ℕ) (g : Ledger) :
    ∀ c : Call, Decidable (HasRoom mem_map LMStoreSize g c)
  | .allocateBlock address => inferInstanceAs (Decidable (∀ x ∈ requested mem_map address,
      g.offset + x.2 ≤ LMStoreSize ∧ ∀ b ∈ g.blocks, Clears x.2 b))
  | .deallocateBlock _ => isTrue trivial

/-- The valid entries hold the blocks of the ledger, where the bytes since have put them. -/
structure Holds (g : Ledger) (s : LMStore) : Prop where
  balanced : Balanced g s
  shaped : Shaped s
  entries : ∀ i e, s.LMDir[i]? = some e → e.state ≠ .BlockInvalid →
    ∃ b ∈ g.blocks, b.entry = i ∧ b.size = e.BlockSize ∧
      (e.LMBIndex : ℤ) = (g.balance - b.since) % 2 ^ 32
  blocks : ∀ b ∈ g.blocks, ∃ e, s.LMDir[b.entry]? = some e ∧ e.state ≠ .BlockInvalid ∧
    b.size = e.BlockSize ∧ (e.LMBIndex : ℤ) = (g.balance - b.since) % 2 ^ 32

theorem disjoint_ranges_iff (a n b k : ℕ) :
    Disjoint (Finset.Ico a (a + n)) (Finset.Ico b (b + k)) ↔
      n = 0 ∨ k = 0 ∨ a + n ≤ b ∨ b + k ≤ a := by
  rw [Finset.disjoint_left]
  simp only [Finset.mem_Ico]
  constructor
  · intro h
    by_contra hmeet
    exact h (a := max a b) (by omega) (by omega)
  · intro h x hx hx'
    omega

/-- Two ranges inside the store, by the distance between their starts. -/
theorem disjoint_iff_clears {LMStoreSize L E n : ℕ} {balance : ℤ} {b : Block}
    (hsize : LMStoreSize < 2 ^ 32) (hL : (L : ℤ) = balance % 2 ^ 32)
    (hE : (E : ℤ) = (balance - b.since) % 2 ^ 32) (hfit : L + n ≤ LMStoreSize)
    (hinside : b.size = 0 ∨ E + b.size ≤ LMStoreSize) :
    Disjoint (Finset.Ico L (L + n)) (Finset.Ico E (E + b.size)) ↔ Clears n b := by
  rw [disjoint_ranges_iff, Clears]
  omega

section Steps

variable {mem_map : MemMap} {g : Ledger} {s t : LMStore}

theorem Placed.end_le (h : Placed s) {i : ℕ} {e : LMDir_t} (he : s.LMDir[i]? = some e)
    (hvalid : e.state ≠ .BlockInvalid) :
    e.BlockSize = 0 ∨ e.LMBIndex + e.BlockSize ≤ s.LMStoreSize := by
  by_contra hover
  have hlast : e.LMBIndex + e.BlockSize - 1 ∈ storage e := by
    rw [storage, Finset.mem_Ico]
    omega
  have hbelow := Finset.mem_Ico.mp (h.inside e (List.mem_of_getElem? he) hvalid hlast)
  omega

/-- The state and the ledger agree on which allocations have room. -/
theorem startsFree_iff_hasRoom (h : Holds g s) (hplaced : Placed s)
    (hsize : s.LMStoreSize < 2 ^ 32) (c : Call) :
    StartsFree mem_map s c ↔ HasRoom mem_map s.LMStoreSize g c := by
  cases c with
  | deallocateBlock address => exact Iff.rfl
  | allocateBlock address =>
    simp only [StartsFree, HasRoom, requestedSize]
    cases requested mem_map address with
    | none => simp
    | some x =>
      simp only [Option.map_some, Option.mem_some_iff, forall_eq']
      have hindex := h.balanced.LMBIndex
      have hfit : s.LMBIndex + x.2 ≤ s.LMStoreSize ↔ g.offset + x.2 ≤ s.LMStoreSize := by
        rw [← hindex]
        norm_cast
      rw [← hfit]
      refine and_congr_right fun hfit => ?_
      constructor
      · intro hfree b hb
        obtain ⟨e, he, hvalid, hblock, hE⟩ := h.blocks b hb
        have hend := hplaced.end_le he hvalid
        rw [← hblock] at hend
        rw [← disjoint_iff_clears hsize hindex hE hfit hend, hblock]
        exact hfree e (List.mem_of_getElem? he) hvalid
      · intro hclear e he hvalid
        obtain ⟨i, hi⟩ := List.getElem?_of_mem he
        obtain ⟨b, hb, -, hblock, hE⟩ := h.entries i e hi hvalid
        have hend := hplaced.end_le hi hvalid
        rw [← hblock] at hend
        rw [storage, ← hblock, disjoint_iff_clears hsize hindex hE hfit hend]
        exact hclear b hb

theorem Holds.install (h : Holds g s) {i : ℕ} {e : LMDir_t} (he : s.LMDir[i]? = some e)
    (hinvalid : e.state = .BlockInvalid) (d : Decoded) :
    Holds (g.allocate i d.BlockSize) (s.install i e d) where
  balanced := h.balanced.allocate he d
  shaped := h.shaped.update i _ _
  entries := by
    intro j f hf hvalid
    have hlen := (List.getElem?_eq_some_iff.mp he).1
    rw [LMStore.install, List.getElem?_set, if_pos hlen] at hf
    simp only [Ledger.allocate, Ledger.move]
    split_ifs at hf with hj
    · refine ⟨_, List.mem_cons_self, hj, ?_, ?_⟩
      · rw [← Option.some.inj hf]
      · rw [← Option.some.inj hf, add_sub_cancel_right]
        exact h.balanced.LMBIndex
    · obtain ⟨b, hb, hentry, hblock, hE⟩ := h.entries j f hf hvalid
      refine ⟨_, List.mem_cons_of_mem _ (List.mem_map_of_mem hb), hentry, hblock, ?_⟩
      rw [add_sub_add_right_eq_sub]
      exact hE
  blocks := by
    intro b hb
    have hlen := (List.getElem?_eq_some_iff.mp he).1
    simp only [Ledger.allocate, Ledger.move] at hb ⊢
    rcases List.mem_cons.mp hb with rfl | hold
    · refine ⟨_, List.getElem?_set_self hlen, by simp, rfl, ?_⟩
      rw [add_sub_cancel_right]
      exact h.balanced.LMBIndex
    · obtain ⟨b, hmem, rfl⟩ := List.mem_map.mp hold
      obtain ⟨f, hf, hvalid, hblock, hE⟩ := h.blocks b hmem
      have hne : i ≠ b.entry := by
        rintro rfl
        rw [he] at hf
        cases hf
        exact hvalid hinvalid
      refine ⟨f, ?_, hvalid, hblock, ?_⟩
      · rw [LMStore.install, List.getElem?_set_ne hne]
        exact hf
      · rw [add_sub_add_right_eq_sub]
        exact hE

theorem Holds.release (h : Holds g s) {i : ℕ} {e freed : LMDir_t} (he : s.LMDir[i]? = some e)
    (hfreed : s.LMDir[s.LMDirIndex]? = some freed) :
    Holds (g.deallocate i) (s.release i e freed.BlockSize) where
  balanced := h.balanced.deallocate he hfreed
  shaped := h.shaped.update i _ _
  entries := by
    intro j f hf hvalid
    have hlen := (List.getElem?_eq_some_iff.mp he).1
    rw [LMStore.release, List.getElem?_set, if_pos hlen] at hf
    simp only [Ledger.deallocate, Ledger.move]
    split_ifs at hf with hj
    · rw [← Option.some.inj hf] at hvalid
      exact absurd rfl hvalid
    · obtain ⟨b, hb, hentry, hblock, hE⟩ := h.entries j f hf hvalid
      refine ⟨{ b with since := b.since + -g.firstSize }, ?_, hentry, hblock, ?_⟩
      · rw [List.mem_filter]
        exact ⟨List.mem_map_of_mem hb, by simpa [hentry] using Ne.symm hj⟩
      · rw [add_sub_add_right_eq_sub]
        exact hE
  blocks := by
    intro b hb
    simp only [Ledger.deallocate, Ledger.move] at hb ⊢
    obtain ⟨hold, hentry⟩ := List.mem_filter.mp hb
    obtain ⟨b, hmem, rfl⟩ := List.mem_map.mp hold
    obtain ⟨f, hf, hvalid, hblock, hE⟩ := h.blocks b hmem
    have hne : i ≠ b.entry := by
      rintro rfl
      simp at hentry
    refine ⟨f, ?_, hvalid, hblock, ?_⟩
    · rw [LMStore.release, List.getElem?_set_ne hne]
      exact hf
    · rw [add_sub_add_right_eq_sub]
      exact hE

theorem Holds.step {c : Call × Bool} (h : Holds g s) (hstep : CallStep mem_map s c t) :
    Holds (booked mem_map g c.1) t := by
  obtain ⟨address | address, r⟩ := c
  · simp only [booked, Ledger.allocateAt]
    rcases allocateBlock_cases hstep.2 with ⟨-, rfl, hrefused⟩ | ⟨-, v, i, e, hv, hp, he, rfl⟩
    · rw [requested_of_refused hrefused]
      exact h
    · have hinvalid := hstep.1 (i, e) (mem_named.mpr ⟨v, hv, he⟩)
      obtain rfl := index_of_entryOf h.shaped.direct he
      rw [requested_of_accepted hv hp]
      exact h.install (entryOf_eq_some.mp he).2 hinvalid _
  · simp only [booked, Ledger.deallocateAt, freed]
    rcases deallocateBlock_cases hstep.2 with
      ⟨-, rfl, hv⟩ | ⟨-, v, i, e, freed, hv, he, hfreed, rfl⟩
    · rw [hv]
      exact h
    · obtain rfl := index_of_entryOf h.shaped.direct he
      rw [hv]
      exact h.release (entryOf_eq_some.mp he).2 hfreed

theorem LMStoreSize_step {c : Call × Bool} (hstep : CallStep mem_map s c t) :
    t.LMStoreSize = s.LMStoreSize := by
  obtain ⟨address | address, r⟩ := c
  · rcases allocateBlock_cases hstep.2 with ⟨-, rfl, -⟩ | ⟨-, v, i, e, -, -, -, rfl⟩ <;> rfl
  · rcases deallocateBlock_cases hstep.2 with ⟨-, rfl, -⟩ | ⟨-, v, i, e, freed, -, -, -, rfl⟩ <;> rfl

end Steps

theorem placed_new (BlockSize LMRefSize LMDirSize NumberOfBlocks lmsStoreSize : ℕ) :
    Placed (.new BlockSize LMRefSize LMDirSize NumberOfBlocks lmsStoreSize) := by
  refine ⟨fun i j e f _ hi _ hvalid _ => ?_, fun e he hvalid => ?_⟩
  · exact absurd (by rw [new_LMDir _ _ _ _ _ (List.mem_of_getElem? hi)]) hvalid
  · exact absurd (by rw [new_LMDir _ _ _ _ _ he]) hvalid

theorem holds_new (BlockSize LMRefSize LMDirSize NumberOfBlocks lmsStoreSize : ℕ) :
    Holds .new (.new BlockSize LMRefSize LMDirSize NumberOfBlocks lmsStoreSize) where
  balanced := balanced_new _ _ _ _ _
  shaped := shaped_new _ _ _ _ _
  entries := by
    intro i e hi hvalid
    exact absurd (by rw [new_LMDir _ _ _ _ _ (List.mem_of_getElem? hi)]) hvalid
  blocks := by simp [Ledger.new]

/-- Blocks stay disjoint and inside the store, and what cannot fit is refused, exactly when every
allocation has room by the sizes and the order of the allocations and deallocations before it. -/
theorem placed_iff_hasRoom (mem_map : MemMap)
    {BlockSize LMRefSize LMDirSize NumberOfBlocks lmsStoreSize : ℕ} (hsize : lmsStoreSize < 2 ^ 32)
    {run : List ((Call × Bool) × LMStore)}
    (hrun : IsRun (CallStep mem_map)
      (LMStore.new BlockSize LMRefSize LMDirSize NumberOfBlocks lmsStoreSize) run) :
    ((∀ t ∈ states (LMStore.new BlockSize LMRefSize LMDirSize NumberOfBlocks lmsStoreSize) run,
        Placed t) ∧
      ∀ x ∈ transitions (LMStore.new BlockSize LMRefSize LMDirSize NumberOfBlocks lmsStoreSize)
        run, RefusesOverflow mem_map x.1 x.2.1 x.2.2) ↔
    ∀ x ∈ ghosts (fun g _ c _ => booked mem_map g c.1) .new
        (LMStore.new BlockSize LMRefSize LMDirSize NumberOfBlocks lmsStoreSize) run,
      HasRoom mem_map lmsStoreSize x.1 x.2.2.1.1 := by
  let start := LMStore.new BlockSize LMRefSize LMDirSize NumberOfBlocks lmsStoreSize
  have hplaced : Placed start := placed_new _ _ _ _ _
  have hstates : ((∀ t ∈ states start run, Placed t) ∧
      ∀ x ∈ transitions start run, RefusesOverflow mem_map x.1 x.2.1 x.2.2) ↔
      ∀ x ∈ transitions start run, StartsFree mem_map x.1 x.2.1.1 :=
    good_iff (I := fun _ => True) (C := fun s c _ => StartsFree mem_map s c.1)
      (fun _ _ _ _ _ => trivial) (fun s c t _ hP h => placed_step_iff hP h) hrun trivial hplaced
  rw [hstates]
  have hstep : ∀ (g : Ledger) s (c : Call × Bool) t,
      Holds g s ∧ Placed s ∧ s.LMStoreSize = lmsStoreSize → CallStep mem_map s c t →
      (StartsFree mem_map s c.1 ↔ HasRoom mem_map lmsStoreSize g c.1) ∧
        (StartsFree mem_map s c.1 → Holds (booked mem_map g c.1) t ∧ Placed t ∧
          t.LMStoreSize = lmsStoreSize) := by
    intro g s c t ⟨hholds, hplaced, hstore⟩ hstep
    refine ⟨?_, fun hfree => ⟨hholds.step hstep, ?_, (LMStoreSize_step hstep).trans hstore⟩⟩
    · rw [← hstore]
      exact startsFree_iff_hasRoom hholds hplaced (hstore ▸ hsize) c.1
    · exact ((placed_step_iff hplaced hstep).mpr hfree).1
  exact transitions_iff_ghosts hstep hrun ⟨holds_new _ _ _ _ _, hplaced, rfl⟩

/-- Two blocks, freed in the order of their allocation: each gives back the size of the first. -/
theorem placed_two_blocks :
    let run := follow twoBlocks (LMStore.new 64 2 2 2 16)
      [.allocateBlock 0, .allocateBlock 2, .deallocateBlock 1, .deallocateBlock 3]
    run.length = 4 ∧ ∀ t ∈ states (LMStore.new 64 2 2 2 16) run, Placed t :=
  ⟨by decide, ((placed_iff_hasRoom twoBlocks (by norm_num) (by decide)).mpr (by decide)).1⟩

/-- Freeing the first of two blocks moves the index back into the second: the next allocation
overlaps it. -/
theorem placed_fails :
    ¬ ∀ (mem_map : MemMap) (BlockSize LMRefSize LMDirSize NumberOfBlocks lmsStoreSize : ℕ)
      (run : List ((Call × Bool) × LMStore)),
      IsRun (CallStep mem_map)
        (LMStore.new BlockSize LMRefSize LMDirSize NumberOfBlocks lmsStoreSize) run →
      (∀ t ∈ states (LMStore.new BlockSize LMRefSize LMDirSize NumberOfBlocks lmsStoreSize) run,
        Placed t) ∧
      ∀ x ∈ transitions (LMStore.new BlockSize LMRefSize LMDirSize NumberOfBlocks lmsStoreSize)
        run, RefusesOverflow mem_map x.1 x.2.1 x.2.2 := by
  intro h
  have hrun := h twoBlocks 64 2 2 2 64 (follow twoBlocks (LMStore.new 64 2 2 2 64)
    [.allocateBlock 0, .allocateBlock 2, .deallocateBlock 1, .allocateBlock 0]) (by decide)
  have hlast := hrun.1 ((states (LMStore.new 64 2 2 2 64) (follow twoBlocks
    (LMStore.new 64 2 2 2 64) [.allocateBlock 0, .allocateBlock 2, .deallocateBlock 1,
      .allocateBlock 0])).getLast (by simp [states])) (List.getLast_mem _)
  have hdisjoint := hlast.disjoint 0 1 ⟨4, 1, 8, false, .BlockExclusive⟩
    ⟨8, 2, 4, false, .BlockExclusive⟩ (by decide) (by decide) (by decide) (by decide) (by decide)
  revert hdisjoint
  decide

end MMLMStore.LMStoreSpace
