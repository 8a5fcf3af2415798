import MMLMStore.StepRuns
import MMLMStore.StorageLedger

/-!
# Array bounds of an LMStore

The geometry that the configuration accepts, the array elements that the constructor writes and
those that the operations use. The sizes of the arrays are three values of the configuration; the
indices are two digits of an address and the running storage index.
-/
namespace MMLMStore.LMStoreBounds
open HexText LMStoreDecode LMStoreTables StepRuns StorageLedger

/-- Variables of a geometry section, as read; each is an `int`. -/
structure Geometry where
  BlockSize : ℤ
  LMRefSize : ℤ
  LMDirSize : ℤ
  LMStoreSize : ℤ
  numBlocks : ℤ
  Latency : ℤ
  Ports : ℤ

def Geometry.default : Geometry := ⟨64, 64, 64, 64, 64, 1, 2⟩

def toUnsigned (i : ℤ) : ℕ := (i % 2 ^ 32).toNat

/-- The checks and the store that is made. The number of blocks is not checked. -/
def ConfigReadLMStore (g : Geometry) : Except String LMStore :=
  if g.BlockSize < 1 ∨ g.BlockSize.toNat &&& (g.BlockSize - 1).toNat ≠ 0 then
    .error "block size must be power of two."
  else if g.LMRefSize < 0 then .error "invalid value for variable 'LMRefSize'."
  else if g.LMDirSize < 0 then .error "invalid value for variable 'LMDirSize'."
  else if g.LMStoreSize < 0 then .error "invalid value for variable 'LMStoreSize'."
  else if g.Latency < 0 then .error "invalid value for variable 'Latency'."
  else if g.Ports < 1 then .error "invalid value for variable 'NumPorts'."
  else .ok (.new (toUnsigned g.BlockSize) (toUnsigned g.LMRefSize) (toUnsigned g.LMDirSize)
    (toUnsigned g.numBlocks) (toUnsigned g.LMStoreSize))

inductive Table
  | BlkDescriptor
  | LMRef
  | LMDir
  | LMStorage
  deriving DecidableEq

/-- Elements that the constructor allocates. -/
def Table.size (s : LMStore) : Table → ℕ
  | .BlkDescriptor => s.NumberOfBlocks
  | .LMRef => s.LMRefSize
  | .LMDir => s.LMDirSize
  | .LMStorage => s.LMDirSize

/-- Elements that a loop of the constructor writes. -/
def filled (t : Table) (n : ℕ) : List (Table × ℕ) := (List.range n).map fun i => (t, i)

/-- Elements that the constructor writes; `initLMStorage` writes the descriptors. -/
def constructed (s : LMStore) : List (Table × ℕ) :=
  filled .BlkDescriptor s.NumberOfBlocks ++ filled .LMRef s.LMRefSize ++
    filled .LMDir s.LMDirSize ++ filled .BlkDescriptor s.LMDirSize

def getBlock (mem_map : MemMap) (s : LMStore) (address : ℕ) : Option Block_t := do
  let v ← PhyToVirt mem_map address
  let (_, e) ← entryOf s v
  s.LMStorage[e.LMBIndex]?

inductive Operation
  | FindBlock
  | getBlock
  | setBlockState
  | allocateBlock
  | deallocateBlock
  deriving DecidableEq

/-- Elements used on the way to the directory entry of an address. -/
def entryUse (s : LMStore) (v : VirtAddr) : List (Table × ℕ) :=
  (.LMRef, (DecodeAddress v.text).LMRefIndex) ::
    ((dirIndex s (DecodeAddress v.text).LMRefIndex).toList.map fun i => (.LMDir, i))

/-- Elements that an operation uses, as far as the indices can be read. -/
def used (s : LMStore) (v : VirtAddr) : Operation → List (Table × ℕ)
  | .FindBlock => entryUse s v
  | .getBlock => entryUse s v ++ ((entryOf s v).toList.map fun x => (.LMStorage, x.2.LMBIndex))
  | .setBlockState =>
    if addrPrefix v.text ≠ ['7', '1'] ∧ addrPrefix v.text ≠ ['7', '2'] ∧
      addrPrefix v.text ≠ ['7', '3'] ∧ addrPrefix v.text ≠ ['7', '4'] ∧
      addrPrefix v.text ≠ ['7', '5'] ∧ addrPrefix v.text ≠ ['7', '6'] then [] else entryUse s v
  | .allocateBlock =>
    if addrPrefix v.text ≠ ['7', '1'] ∧ addrPrefix v.text ≠ ['7', '4'] then [] else entryUse s v
  | .deallocateBlock => entryUse s v ++ [(.LMDir, s.LMDirIndex)]

def InBounds (s : LMStore) (uses : List (Table × ℕ)) : Prop := ∀ x ∈ uses, x.2 < x.1.size s

instance (s : LMStore) (uses : List (Table × ℕ)) : Decidable (InBounds s uses) :=
  inferInstanceAs (Decidable (∀ x ∈ uses, _))

/-- The LMRef index that an address spells in its third and fourth digits. -/
def writtenIndex (v : VirtAddr) : ℕ := readHex (substr v.text 2 2)

/-- The index is below both sizes, and the storage index of its entry below the second. -/
def IndexFits (s : LMStore) (v : VirtAddr) : Prop :=
  writtenIndex v < s.LMRefSize ∧ writtenIndex v < s.LMDirSize ∧
    ∀ e ∈ s.LMDir[writtenIndex v]?, e.LMBIndex < s.LMDirSize

inductive Call
  | setBlockState (address : ℕ) (state : BlockState)
  | allocateBlock (address : ℕ)
  | deallocateBlock (address : ℕ)
  deriving DecidableEq

def perform (mem_map : MemMap) (s : LMStore) : Call → Option LMStore
  | .setBlockState address state => setBlockState mem_map s address state
  | .allocateBlock address => (allocateBlock mem_map s address).map Prod.snd
  | .deallocateBlock address => (deallocateBlock mem_map s address).map Prod.snd

def Calls (mem_map : MemMap) (s : LMStore) (c : Call) (t : LMStore) : Prop :=
  perform mem_map s c = some t

/-! Which index an address names. -/

theorem LMRefIndex_eq (t : Text) : (DecodeAddress t).LMRefIndex =
    if (t[1]?).elim OpCodeType.InvalidCode opCodeOf = .InvalidCode then 0
    else readHex (substr t 2 2) := by
  unfold DecodeAddress
  split <;> simp_all

/-- Operations that the LMStore serves use the index that is written. -/
theorem LMRefIndex_of_operation {v : VirtAddr} (h : addrPrefix v.text ∈
    [['7', '1'], ['7', '2'], ['7', '3'], ['7', '4'], ['7', '5']]) :
    (DecodeAddress v.text).LMRefIndex = writtenIndex v := by
  simp only [List.mem_cons, List.not_mem_nil, or_false] at h
  rw [LMRefIndex_eq, writtenIndex, if_neg]
  rcases h with h | h | h | h | h <;> rw [second_digit h] <;> decide

/-! The indices in a reachable state. -/

/-- What the constructor sets up and the calls leave alone. -/
structure Shaped (s : LMStore) : Prop where
  dirIndex : ∀ i, dirIndex s i = if i < s.LMRefSize then some i else none
  LMDir : s.LMDir.length = s.LMDirSize
  LMStorage : s.LMStorage.length = s.LMDirSize
  LMDirIndex : s.LMDirIndex = 0

theorem shaped_new (BlockSize LMRefSize LMDirSize NumberOfBlocks lmsStoreSize : ℕ) :
    Shaped (.new BlockSize LMRefSize LMDirSize NumberOfBlocks lmsStoreSize) where
  dirIndex := by
    intro i
    rw [LMStoreTables.dirIndex, new_LMRef]
    change _ = if i < LMRefSize then some i else none
    split_ifs <;> rfl
  LMDir := by simp [LMStore.new, initLMStorage, initLMDir, initLMRef, initBlkDescriptor]
  LMStorage := by simp [LMStore.new, initLMStorage, initLMDir, initLMRef, initBlkDescriptor]
  LMDirIndex := rfl

theorem Shaped.update {s : LMStore} (h : Shaped s) (i index : ℕ) (e : LMDir_t) :
    Shaped { s with LMDir := s.LMDir.set i e, LMBIndex := index } where
  dirIndex := h.dirIndex
  LMDir := (List.length_set ..).trans h.LMDir
  LMStorage := h.LMStorage
  LMDirIndex := h.LMDirIndex

theorem perform_cases {mem_map : MemMap} {s t : LMStore} {c : Call} (h : Calls mem_map s c t) :
    t = s ∨ ∃ i index e, t = { s with LMDir := s.LMDir.set i e, LMBIndex := index } := by
  cases c with
  | setBlockState address state =>
    rcases setBlockState_cases h with ⟨rfl, -⟩ | ⟨v, i, e, -, -, -, rfl⟩
    · exact Or.inl rfl
    · exact Or.inr ⟨i, _, _, rfl⟩
  | allocateBlock address =>
    obtain ⟨⟨r, u⟩, hu, rfl⟩ := Option.map_eq_some_iff.mp h
    rcases allocateBlock_cases hu with ⟨-, rfl, -⟩ | ⟨-, v, i, e, -, -, -, rfl⟩
    · exact Or.inl rfl
    · exact Or.inr ⟨i, _, _, rfl⟩
  | deallocateBlock address =>
    obtain ⟨⟨r, u⟩, hu, rfl⟩ := Option.map_eq_some_iff.mp h
    rcases deallocateBlock_cases hu with ⟨-, rfl, -⟩ | ⟨-, v, i, e, freed, -, -, -, rfl⟩
    · exact Or.inl rfl
    · exact Or.inr ⟨i, _, _, rfl⟩

theorem shaped_step {mem_map : MemMap} {s t : LMStore} {c : Call} (h : Shaped s)
    (hcall : Calls mem_map s c t) : Shaped t := by
  rcases perform_cases hcall with rfl | ⟨i, index, e, rfl⟩
  · exact h
  · exact h.update i index e

section Uses

variable {s : LMStore} {v : VirtAddr}

theorem inBounds_entryUse_iff (h : Shaped s) : InBounds s (entryUse s v) ↔
    (DecodeAddress v.text).LMRefIndex < s.LMRefSize ∧
      (DecodeAddress v.text).LMRefIndex < s.LMDirSize := by
  unfold InBounds entryUse
  rw [List.forall_mem_cons, h.dirIndex]
  refine and_congr_right fun hlt => ?_
  rw [if_pos (show (DecodeAddress v.text).LMRefIndex < s.LMRefSize from hlt)]
  simp [Table.size]

theorem entryOf_eq (h : Shaped s) : entryOf s v =
    if InBounds s (entryUse s v) then
      (s.LMDir[(DecodeAddress v.text).LMRefIndex]?).map fun e =>
        ((DecodeAddress v.text).LMRefIndex, e)
    else none := by
  simp only [inBounds_entryUse_iff h, entryOf, h.dirIndex, Option.bind_eq_bind]
  by_cases href : (DecodeAddress v.text).LMRefIndex < s.LMRefSize
  · rw [if_pos href, Option.bind_some]
    by_cases hdir : (DecodeAddress v.text).LMRefIndex < s.LMDirSize
    · rw [if_pos ⟨href, hdir⟩]
      cases s.LMDir[(DecodeAddress v.text).LMRefIndex]? <;> rfl
    · rw [if_neg fun h => hdir h.2, List.getElem?_eq_none (by rw [h.LMDir]; omega)]
      rfl
  · rw [if_neg href, if_neg fun h => href h.1]
    rfl

theorem isSome_entryOf_iff (h : Shaped s) :
    (entryOf s v).isSome ↔ InBounds s (entryUse s v) := by
  rw [entryOf_eq h]
  split_ifs with hbounds
  · have hlt := ((inBounds_entryUse_iff h).mp hbounds).2
    rw [← h.LMDir] at hlt
    simp [hlt, hbounds]
  · simp [hbounds]

/-- An operation reads past no array exactly when the elements listed for it are within bounds. -/
theorem returns_iff (h : Shaped s) {mem_map : MemMap} {address : ℕ}
    (hv : PhyToVirt mem_map address = some v) (state : BlockState) :
    ((FindBlock mem_map s address).isSome ↔ InBounds s (used s v .FindBlock)) ∧
    ((getBlock mem_map s address).isSome ↔ InBounds s (used s v .getBlock)) ∧
    ((setBlockState mem_map s address state).isSome ↔ InBounds s (used s v .setBlockState)) ∧
    ((allocateBlock mem_map s address).isSome ↔ InBounds s (used s v .allocateBlock)) ∧
    ((deallocateBlock mem_map s address).isSome ↔ InBounds s (used s v .deallocateBlock)) := by
  have hentry := isSome_entryOf_iff (v := v) h
  have hempty : InBounds s [] := by simp [InBounds]
  have hset : addrPrefix v.text ∉
      [['7', '1'], ['7', '2'], ['7', '3'], ['7', '4'], ['7', '5'], ['7', '6']] ↔
      addrPrefix v.text ≠ ['7', '1'] ∧ addrPrefix v.text ≠ ['7', '2'] ∧
      addrPrefix v.text ≠ ['7', '3'] ∧ addrPrefix v.text ≠ ['7', '4'] ∧
      addrPrefix v.text ≠ ['7', '5'] ∧ addrPrefix v.text ≠ ['7', '6'] := by simp
  have happend : ∀ l l', InBounds s (l ++ l') ↔ InBounds s l ∧ InBounds s l' :=
    fun l l' => List.forall_mem_append
  cases hfound : entryOf s v with
  | none =>
    have hnot : ¬ InBounds s (entryUse s v) := by
      rw [← hentry, hfound]
      simp
    simp only [FindBlock, getBlock, setBlockState, allocateBlock, deallocateBlock, hv, used,
      Option.bind_eq_bind, Option.bind_some, hfound, Option.bind_none, happend]
    refine ⟨by simp [hnot], by simp [hnot], ?_, ?_, by simp [hnot]⟩
    · simp only [hset]
      split_ifs <;> simp [hempty, hnot]
    · split_ifs <;> simp [hempty, hnot]
  | some x =>
    have hbounds : InBounds s (entryUse s v) := by
      rw [← hentry, hfound]
      rfl
    have hlt : 0 < s.LMDirSize :=
      (Nat.zero_le _).trans_lt ((inBounds_entryUse_iff h).mp hbounds).2
    simp only [FindBlock, getBlock, setBlockState, allocateBlock, deallocateBlock, hv, used,
      Option.bind_eq_bind, Option.bind_some, hfound, happend, hbounds, true_and]
    refine ⟨by simp, ?_, ?_, ?_, ?_⟩
    · simp [InBounds, Table.size, h.LMStorage]
    · simp only [hset]
      split_ifs <;> simp [hempty, hbounds]
    · split_ifs <;> simp [hempty, hbounds]
    · simp [InBounds, Table.size, h.LMDirIndex, h.LMDir, hlt]

theorem inBounds_iff (h : Shaped s) (hoperation : addrPrefix v.text ∈
    [['7', '1'], ['7', '2'], ['7', '3'], ['7', '4'], ['7', '5']]) :
    (∀ op, InBounds s (used s v op)) ↔ IndexFits s v := by
  have hentry := inBounds_entryUse_iff (v := v) h
  rw [LMRefIndex_of_operation hoperation] at hentry
  unfold IndexFits
  rw [← and_assoc, ← hentry]
  constructor
  · intro hall
    have hbounds : InBounds s (entryUse s v) := hall .FindBlock
    refine ⟨hbounds, fun e he => ?_⟩
    refine hall .getBlock (.LMStorage, e.LMBIndex) (List.mem_append_right _ ?_)
    rw [entryOf_eq h, if_pos hbounds, LMRefIndex_of_operation hoperation]
    rw [Option.mem_def] at he
    rw [he]
    exact List.mem_cons_self
  · rintro ⟨hbounds, hstorage⟩ op
    have hguarded : ∀ (c : Prop) [Decidable c], InBounds s (if c then [] else entryUse s v) := by
      intro c _
      split_ifs
      · exact fun x hx => absurd hx List.not_mem_nil
      · exact hbounds
    cases op with
    | FindBlock => exact hbounds
    | getBlock =>
      intro x hx
      rcases List.mem_append.mp hx with hx | hx
      · exact hbounds x hx
      · obtain ⟨y, hy, rfl⟩ := List.mem_map.mp hx
        rw [entryOf_eq h, if_pos hbounds, LMRefIndex_of_operation hoperation,
          Option.mem_toList] at hy
        obtain ⟨e, he, rfl⟩ := Option.map_eq_some_iff.mp hy
        exact hstorage e he
    | setBlockState => exact hguarded _
    | allocateBlock => exact hguarded _
    | deallocateBlock =>
      intro x hx
      rcases List.mem_append.mp hx with hx | hx
      · exact hbounds x hx
      · rw [List.mem_singleton.mp hx, h.LMDirIndex]
        exact (Nat.zero_le _).trans_lt (hentry.mp hbounds).2

end Uses

/-! The configuration. -/

theorem eq_of_ConfigReadLMStore {g : Geometry} {s : LMStore} (h : ConfigReadLMStore g = .ok s) :
    s = .new (toUnsigned g.BlockSize) (toUnsigned g.LMRefSize) (toUnsigned g.LMDirSize)
      (toUnsigned g.numBlocks) (toUnsigned g.LMStoreSize) := by
  unfold ConfigReadLMStore at h
  split_ifs at h
  exact (Except.ok.inj h).symm

/-- The descriptors are written as often as there are directory entries. -/
theorem inBounds_constructed_iff (s : LMStore) :
    InBounds s (constructed s) ↔ s.LMDirSize ≤ s.NumberOfBlocks := by
  have hfilled : ∀ t n, InBounds s (filled t n) ↔ n ≤ t.size s := by
    intro t n
    unfold InBounds filled
    rw [List.forall_mem_map]
    constructor
    · intro h
      by_contra hlarge
      have := h (t.size s) (List.mem_range.mpr (by omega))
      exact absurd this (lt_irrefl _)
    · intro h i hi
      exact (List.mem_range.mp hi).trans_le h
  have happend : ∀ l l', InBounds s (l ++ l') ↔ InBounds s l ∧ InBounds s l' :=
    fun l l' => List.forall_mem_append
  unfold constructed
  simp only [happend, hfilled, Table.size, le_refl, true_and]

theorem Shaped.direct {s : LMStore} (h : Shaped s) : Direct s := by
  intro i j hj
  rw [h.dirIndex] at hj
  split_ifs at hj
  exact (Option.some.inj hj).symm

/-! The calls. -/

def booked (mem_map : MemMap) (g : Ledger) : Call → Ledger
  | .setBlockState _ _ => g
  | .allocateBlock address => g.allocateAt mem_map address
  | .deallocateBlock address => g.deallocateAt mem_map address

/-- A block that is allocated starts below the number of directory entries. -/
def StartsBelow (mem_map : MemMap) (LMDirSize : ℕ) (g : Ledger) : Call → Prop
  | .allocateBlock address => (requested mem_map address).isSome → g.offset < LMDirSize
  | _ => True

instance (mem_map : MemMap) (LMDirSize : ℕ) (g : Ledger) :
    ∀ c, Decidable (StartsBelow mem_map LMDirSize g c)
  | .setBlockState _ _ => isTrue trivial
  | .allocateBlock _ => inferInstanceAs (Decidable (_ → _))
  | .deallocateBlock _ => isTrue trivial

/-- Indices that the configuration makes room for. -/
def IndexConfigured (g : Geometry) (v : VirtAddr) : Prop :=
  writtenIndex v < toUnsigned g.LMRefSize ∧ writtenIndex v < toUnsigned g.LMDirSize

instance (g : Geometry) (v : VirtAddr) : Decidable (IndexConfigured g v) :=
  inferInstanceAs (Decidable (_ ∧ _))

section Run

variable {mem_map : MemMap} {LMRefSize LMDirSize : ℕ}

/-- The state of a run from tables of these sizes, with its ledger. -/
structure Kept (LMRefSize LMDirSize : ℕ) (g : Ledger) (s : LMStore) : Prop where
  balanced : Balanced g s
  shaped : Shaped s
  LMRefSize : s.LMRefSize = LMRefSize
  LMDirSize : s.LMDirSize = LMDirSize

theorem Kept.step {g : Ledger} {s t : LMStore} {c : Call} (h : Kept LMRefSize LMDirSize g s)
    (hcall : Calls mem_map s c t) : Kept LMRefSize LMDirSize (booked mem_map g c) t := by
  refine ⟨?_, shaped_step h.shaped hcall, ?_, ?_⟩
  · cases c with
    | setBlockState address state =>
      rcases setBlockState_cases hcall with ⟨rfl, -⟩ | ⟨v, i, e, -, -, he, rfl⟩
      · exact h.balanced
      · refine ⟨h.balanced.LMBIndex, h.balanced.LMDirIndex, fun f hf => ?_⟩
        have hlen := (List.getElem?_eq_some_iff.mp (entryOf_eq_some.mp he).2).1
        rw [List.getElem?_set, if_pos hlen] at hf
        split_ifs at hf with hi
        · rw [← Option.some.inj hf]
          exact h.balanced.firstSize e (hi ▸ (entryOf_eq_some.mp he).2)
        · exact h.balanced.firstSize f hf
    | allocateBlock address =>
      obtain ⟨⟨r, u⟩, hu, rfl⟩ := Option.map_eq_some_iff.mp hcall
      exact h.balanced.allocateBlock h.shaped.direct hu
    | deallocateBlock address =>
      obtain ⟨⟨r, u⟩, hu, rfl⟩ := Option.map_eq_some_iff.mp hcall
      exact h.balanced.deallocateBlock h.shaped.direct hu
  · rcases perform_cases hcall with rfl | ⟨i, index, e, rfl⟩
    · exact h.LMRefSize
    · exact h.LMRefSize
  · rcases perform_cases hcall with rfl | ⟨i, index, e, rfl⟩
    · exact h.LMDirSize
    · exact h.LMDirSize

/-- Storage index that a call puts into an entry. -/
theorem getElem?_step {s t : LMStore} {c : Call} (hcall : Calls mem_map s c t) {i : ℕ} {f : LMDir_t}
    (hf : t.LMDir[i]? = some f) :
    (∃ e, s.LMDir[i]? = some e ∧ f.LMBIndex = e.LMBIndex) ∨
      f.LMBIndex = s.LMBIndex ∧ ∃ address, c = .allocateBlock address ∧
        (requested mem_map address).isSome := by
  have hset : ∀ (j : ℕ) (e e' : LMDir_t), s.LMDir[j]? = some e → (s.LMDir.set j e')[i]? = some f →
      (f = e' ∧ s.LMDir[i]? = some e) ∨ ∃ e, s.LMDir[i]? = some e ∧ f.LMBIndex = e.LMBIndex := by
    intro j e e' he hf
    rw [List.getElem?_set, if_pos (List.getElem?_eq_some_iff.mp he).1] at hf
    split_ifs at hf with hj
    · exact Or.inl ⟨(Option.some.inj hf).symm, hj ▸ he⟩
    · exact Or.inr ⟨f, hf, rfl⟩
  cases c with
  | setBlockState address state =>
    rcases setBlockState_cases hcall with ⟨rfl, -⟩ | ⟨v, j, e, -, -, he, rfl⟩
    · exact Or.inl ⟨f, hf, rfl⟩
    · rcases hset j e _ (entryOf_eq_some.mp he).2 hf with ⟨rfl, hi⟩ | hold
      · exact Or.inl ⟨e, hi, rfl⟩
      · exact Or.inl hold
  | allocateBlock address =>
    obtain ⟨⟨r, u⟩, hu, rfl⟩ := Option.map_eq_some_iff.mp hcall
    rcases allocateBlock_cases hu with ⟨-, rfl, -⟩ | ⟨-, v, j, e, hv, hp, he, rfl⟩
    · exact Or.inl ⟨f, hf, rfl⟩
    · rcases hset j e _ (entryOf_eq_some.mp he).2 hf with ⟨rfl, -⟩ | hold
      · exact Or.inr ⟨rfl, address, rfl, by simp [requested_of_accepted hv hp]⟩
      · exact Or.inl hold
  | deallocateBlock address =>
    obtain ⟨⟨r, u⟩, hu, rfl⟩ := Option.map_eq_some_iff.mp hcall
    rcases deallocateBlock_cases hu with ⟨-, rfl, -⟩ | ⟨-, v, j, e, freed, -, he, -, rfl⟩
    · exact Or.inl ⟨f, hf, rfl⟩
    · rcases hset j e _ (entryOf_eq_some.mp he).2 hf with ⟨rfl, hi⟩ | hold
      · exact Or.inl ⟨e, hi, rfl⟩
      · exact Or.inl hold

def AllBelow (s : LMStore) : Prop := ∀ e ∈ s.LMDir, e.LMBIndex < s.LMDirSize

theorem allBelow_step {g : Ledger} {s t : LMStore} {c : Call}
    (h : Kept LMRefSize LMDirSize g s) (hbelow : AllBelow s) (hcall : Calls mem_map s c t)
    (hstarts : StartsBelow mem_map LMDirSize g c) : AllBelow t := by
  intro f hf
  obtain ⟨i, hi⟩ := List.getElem?_of_mem hf
  rw [(h.step hcall).LMDirSize]
  rcases getElem?_step hcall hi with ⟨e, he, hindex⟩ | ⟨hindex, address, rfl, hrequested⟩
  · rw [hindex, ← h.LMDirSize]
    exact hbelow e (List.mem_of_getElem? he)
  · have hoffset := hstarts hrequested
    rw [← h.balanced.LMBIndex] at hoffset
    omega

/-- A block that was allocated is named by the address that it was allocated at. -/
theorem startsBelow_of_fits {g : Ledger} {s t : LMStore} {c : Call}
    (h : Kept LMRefSize LMDirSize g s) (hcall : Calls mem_map s c t)
    (hfits : ∀ address, ServesAddress mem_map address → ∀ v ∈ PhyToVirt mem_map address,
      IndexFits t v) : StartsBelow mem_map LMDirSize g c := by
  cases c with
  | setBlockState address state => trivial
  | deallocateBlock address => trivial
  | allocateBlock address =>
    intro hrequested
    obtain ⟨⟨r, u⟩, hu, rfl⟩ := Option.map_eq_some_iff.mp hcall
    rcases allocateBlock_cases hu with ⟨-, rfl, hrefused⟩ | ⟨-, v, i, e, hv, hp, he, rfl⟩
    · simp [requested_of_refused hrefused] at hrequested
    · have hoperation : addrPrefix v.text ∈
          [['7', '1'], ['7', '2'], ['7', '3'], ['7', '4'], ['7', '5']] := by
        rcases hp with hp | hp <;> simp [hp]
      obtain ⟨-, -, hstorage⟩ := hfits address (ServesAddress_iff.mpr ⟨v, hv, hoperation⟩) v hv
      have hindex := index_of_entryOf h.shaped.direct he
      rw [LMRefIndex_of_operation hoperation] at hindex
      have hlen := (List.getElem?_eq_some_iff.mp (entryOf_eq_some.mp he).2).1
      have hbelow := hstorage { e with
        LMBIndex := s.LMBIndex, BlockID := (DecodeAddress v.text).BlockID,
        state := .BlockExclusive, BlockSize := (DecodeAddress v.text).BlockSize } (by
          rw [LMStore.install, ← hindex]
          exact List.getElem?_set_self hlen)
      rw [← h.balanced.LMBIndex, ← h.LMDirSize]
      exact_mod_cast hbelow

/-- The indices of all addresses are within bounds in all states exactly when those in the addresses
are and every block starts below the number of directory entries. -/
theorem fits_run_iff {s₀ : LMStore} (h : Kept LMRefSize LMDirSize .new s₀)
    (hzero : ∀ e ∈ s₀.LMDir, e.LMBIndex = 0) {run : List (Call × LMStore)}
    (hrun : IsRun (Calls mem_map) s₀ run) :
    (∀ s ∈ states s₀ run, ∀ address, ServesAddress mem_map address →
      ∀ v ∈ PhyToVirt mem_map address, IndexFits s v) ↔
    (∀ address, ServesAddress mem_map address → ∀ v ∈ PhyToVirt mem_map address,
      writtenIndex v < LMRefSize ∧ writtenIndex v < LMDirSize) ∧
      ∀ x ∈ ghosts (fun ledger _ c _ => booked mem_map ledger c) .new s₀ run,
        StartsBelow mem_map LMDirSize x.1 x.2.2.1 := by
  constructor
  · intro hfits
    constructor
    · intro address hserved v hv
      obtain ⟨href, hdir, -⟩ := hfits s₀ List.mem_cons_self address hserved v hv
      exact ⟨h.LMRefSize ▸ href, h.LMDirSize ▸ hdir⟩
    · intro x hx
      have hstep : ∀ (ledger : Ledger) s c t, Kept LMRefSize LMDirSize ledger s →
          Calls mem_map s c t → Kept LMRefSize LMDirSize (booked mem_map ledger c) t :=
        fun _ _ _ _ hkept hcall => hkept.step hcall
      obtain ⟨hkept, hcall⟩ := ghosts_invariant hstep hrun h x hx
      exact startsBelow_of_fits hkept hcall (hfits _ (mem_states_of_ghost hx))
  · rintro ⟨hconfigured, hstarts⟩ s hs address hserved v hv
    obtain ⟨href, hdir⟩ := hconfigured address hserved v hv
    have hpos : 0 < LMDirSize := (Nat.zero_le _).trans_lt hdir
    have hfirst : AllBelow s₀ := fun e he => by rw [hzero e he, h.LMDirSize]; exact hpos
    have hstep : ∀ (ledger : Ledger) s c t, Kept LMRefSize LMDirSize ledger s ∧ AllBelow s →
        Calls mem_map s c t → StartsBelow mem_map LMDirSize ledger c →
        Kept LMRefSize LMDirSize (booked mem_map ledger c) t ∧ AllBelow t :=
      fun _ _ _ _ hR hcall hC => ⟨hR.1.step hcall, allBelow_step hR.1 hR.2 hcall hC⟩
    obtain ⟨ledger, hkept, hbelow⟩ := ghosts_states (R := fun ledger s =>
      Kept LMRefSize LMDirSize ledger s ∧ AllBelow s) hstep hrun ⟨h, hfirst⟩ hstarts s hs
    refine ⟨hkept.LMRefSize ▸ href, hkept.LMDirSize ▸ hdir, fun e he => ?_⟩
    exact hbelow e (List.mem_of_getElem? he)

end Run

/-- The constructor and the operations on all addresses that are served stay inside the arrays
exactly when there are no more directory entries than blocks, the index in each of these addresses
is below both configured sizes, and each block that a call allocates starts below the number of
directory entries, by the sizes that the calls before it have allocated and given back. -/
theorem inBounds_run_iff {g : Geometry} {s₀ : LMStore} (hread : ConfigReadLMStore g = .ok s₀)
    {mem_map : MemMap} {run : List (Call × LMStore)} (hrun : IsRun (Calls mem_map) s₀ run) :
    (InBounds s₀ (constructed s₀) ∧ ∀ s ∈ states s₀ run, ∀ address,
      ServesAddress mem_map address → ∀ v ∈ PhyToVirt mem_map address, ∀ op,
        InBounds s (used s v op)) ↔
    toUnsigned g.LMDirSize ≤ toUnsigned g.numBlocks ∧
      (∀ address, ServesAddress mem_map address → ∀ v ∈ PhyToVirt mem_map address,
        IndexConfigured g v) ∧
      ∀ x ∈ ghosts (fun ledger _ c _ => booked mem_map ledger c) .new s₀ run,
        StartsBelow mem_map (toUnsigned g.LMDirSize) x.1 x.2.2.1 := by
  have hnew := eq_of_ConfigReadLMStore hread
  have hkept : Kept (toUnsigned g.LMRefSize) (toUnsigned g.LMDirSize) .new s₀ := by
    rw [hnew]
    exact ⟨balanced_new _ _ _ _ _, shaped_new _ _ _ _ _, rfl, rfl⟩
  have hzero : ∀ e ∈ s₀.LMDir, e.LMBIndex = 0 := by
    intro e he
    rw [hnew] at he
    rw [new_LMDir _ _ _ _ _ he]
  have hsizes : s₀.LMDirSize ≤ s₀.NumberOfBlocks ↔
      toUnsigned g.LMDirSize ≤ toUnsigned g.numBlocks := by rw [hnew]; rfl
  have hall := invariant_all (fun _ _ _ h hcall => shaped_step h hcall) hrun hkept.shaped
  refine and_congr ((inBounds_constructed_iff s₀).trans hsizes) ?_
  refine Iff.trans (forall₂_congr fun s hs => ?_) (fits_run_iff hkept hzero hrun)
  refine forall₂_congr fun address hserved => forall₂_congr fun v hv => ?_
  obtain ⟨w, hw, hoperation⟩ := ServesAddress_iff.mp hserved
  rw [Option.mem_def, hw] at hv
  obtain rfl := Option.some.inj hv
  exact inBounds_iff (hall s hs) hoperation

/-- An allocation of two bytes and an access, both of LMRef index 1. -/
def indexOne : MemMap
  | 0x0000 => some (translated 0x71010002 (by norm_num))
  | 0x1000 => some (translated 0x72010004 (by norm_num))
  | _ => none

def fourEntries : Geometry :=
  { Geometry.default with LMRefSize := 4, LMDirSize := 4, numBlocks := 4 }

theorem writtenIndex_indexOne {address : ℕ} {v : VirtAddr} (hv : v ∈ PhyToVirt indexOne address) :
    writtenIndex v = 1 := by
  unfold PhyToVirt indexOne at hv
  split at hv
  · rw [← Option.some.inj hv]
    decide
  · rw [← Option.some.inj hv]
    decide
  · cases hv

theorem inBounds_fourEntries :
    InBounds (.new 64 4 4 4 64) (constructed (.new 64 4 4 4 64)) ∧
    ∀ s ∈ states (.new 64 4 4 4 64)
      (trace (perform indexOne) (.new 64 4 4 4 64) [.allocateBlock 0x0000, .allocateBlock 0x0000]),
      ∀ address, ServesAddress indexOne address → ∀ v ∈ PhyToVirt indexOne address, ∀ op,
        InBounds s (used s v op) := by
  have hread : ConfigReadLMStore fourEntries = .ok (.new 64 4 4 4 64) := by rfl
  refine (inBounds_run_iff hread (isRun_trace (perform indexOne) _ _)).mpr ⟨by decide, ?_, ?_⟩
  · intro address _ v hv
    rw [IndexConfigured, writtenIndex_indexOne hv]
    decide
  · decide +kernel

/-- With the default sizes, the LMRef index 0x40 of an allocation lies past the tables. -/
theorem inBounds_fails :
    ¬ ∀ (g : Geometry) (s₀ : LMStore), ConfigReadLMStore g = .ok s₀ → ∀ (mem_map : MemMap)
      (run : List (Call × LMStore)), IsRun (Calls mem_map) s₀ run →
      InBounds s₀ (constructed s₀) ∧ ∀ s ∈ states s₀ run, ∀ address,
        ServesAddress mem_map address → ∀ v ∈ PhyToVirt mem_map address, ∀ op,
          InBounds s (used s v op) := by
  intro h
  let mem_map : MemMap := fun _ => some (translated 0x71400010 (by norm_num))
  obtain ⟨-, hused⟩ := h .default (.new 64 64 64 64 64) (by rfl) mem_map [] trivial
  have hbounds := hused _ List.mem_cons_self 0 (by decide) _ rfl .FindBlock
    (.LMRef, 0x40) List.mem_cons_self
  exact absurd hbounds (by decide)

end MMLMStore.LMStoreBounds
