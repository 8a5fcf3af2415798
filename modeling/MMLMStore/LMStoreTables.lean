import MMLMStore.LMStoreDecode

/-!
# LMStore tables

The reference table, the directory and the running storage index of class `LMStore`, its
constructor, and the operations that look a block up or change its directory entry. An index
outside a table has no result (`none`): the source reads past the array there.
-/
namespace MMLMStore.LMStoreTables
open HexText LMStoreDecode

inductive BlockState
  | BlockInvalid
  | BlockModified
  | BlockExclusive
  | BlockShared
  deriving DecidableEq, Repr

structure Block_t where
  BlockID : ℕ
  state : BlockState
  size : ℕ
  deriving DecidableEq, Repr

structure LMRef_t where
  LMDirIndex1 : ℕ
  LMDirIndex2 : ℕ
  deriving DecidableEq, Repr

structure LMDir_t where
  LMBIndex : ℕ
  BlockID : ℕ
  BlockSize : ℕ
  info : Bool
  state : BlockState
  deriving DecidableEq, Repr

structure LMStore where
  BlockSize : ℕ
  LMRefSize : ℕ
  LMDirSize : ℕ
  LMStoreSize : ℕ
  NumberOfBlocks : ℕ
  /-- A starting address to free space in the storage. -/
  LMBIndex : ℕ
  LMDirIndex : ℕ
  BlkDescriptor : List Block_t
  LMRef : List LMRef_t
  LMDir : List LMDir_t
  LMStorage : List Block_t
  deriving DecidableEq, Repr

def addU32 (a b : ℕ) : ℕ := (a + b) % 2 ^ 32

def subU32 (a b : ℕ) : ℕ := (a + (2 ^ 32 - b % 2 ^ 32)) % 2 ^ 32

/-- `for (i = 0; i < n; ++i) a[i] = f(i)`. -/
def fill {α : Type*} (n : ℕ) (f : ℕ → α) (a : List α) : List α :=
  (List.range n).foldl (fun a i => a.set i (f i)) a

def emptyBlock : Block_t := ⟨0, .BlockInvalid, 0⟩

def initBlkDescriptor (NumberOfBlocks : ℕ) (s : LMStore) : LMStore :=
  { s with BlkDescriptor := fill NumberOfBlocks (fun _ => emptyBlock) s.BlkDescriptor }

def initLMRef (LMRefSize : ℕ) (s : LMStore) : LMStore :=
  { s with LMRef := fill LMRefSize (fun i => ⟨i, 0⟩) s.LMRef }

def initLMDir (LMDirSize : ℕ) (s : LMStore) : LMStore :=
  { s with LMDir := fill LMDirSize (fun _ => ⟨0, 0, 0, false, .BlockInvalid⟩) s.LMDir }

/-- Writes the descriptor array, although it is named for the storage array. -/
def initLMStorage (LMDirSize : ℕ) (s : LMStore) : LMStore :=
  { s with BlkDescriptor := fill LMDirSize (fun _ => emptyBlock) s.BlkDescriptor }

/-- The constructor. Array elements start at zero here; only initialised ones are read. -/
def LMStore.new (BlockSize LMRefSize LMDirSize NumberOfBlocks lmsStoreSize : ℕ) : LMStore :=
  let allocated : LMStore :=
    { BlockSize := BlockSize, LMRefSize := LMRefSize, LMDirSize := LMDirSize,
      LMStoreSize := lmsStoreSize, NumberOfBlocks := NumberOfBlocks,
      LMBIndex := 0, LMDirIndex := 0,
      BlkDescriptor := List.replicate NumberOfBlocks emptyBlock,
      LMRef := List.replicate LMRefSize ⟨0, 0⟩,
      LMDir := List.replicate LMDirSize ⟨0, 0, 0, false, .BlockInvalid⟩,
      LMStorage := List.replicate LMDirSize emptyBlock }
  initLMStorage LMDirSize (initLMDir LMDirSize (initLMRef LMRefSize
    (initBlkDescriptor NumberOfBlocks allocated)))

def dirIndex (s : LMStore) (LMRefIndex : ℕ) : Option ℕ :=
  (s.LMRef[LMRefIndex]?).map LMRef_t.LMDirIndex1

/-- Directory entry that a virtual address names, with its index. -/
def entryOf (s : LMStore) (v : VirtAddr) : Option (ℕ × LMDir_t) := do
  let LMDirIndx ← dirIndex s (DecodeAddress v.text).LMRefIndex
  let e ← s.LMDir[LMDirIndx]?
  some (LMDirIndx, e)

/-- Hit flag and block state. An unmapped address is not looked up. -/
def FindBlock (mem_map : MemMap) (s : LMStore) (address : ℕ) : Option (Bool × BlockState) := do
  let v ← PhyToVirt mem_map address
  let (_, e) ← entryOf s v
  some (e.state ≠ .BlockInvalid, e.state)

def getBlockSize (mem_map : MemMap) (address : ℕ) : ℕ :=
  match PhyToVirt mem_map address with
  | none => 0
  | some v => (DecodeAddress v.text).BlockSize

def setBlockState (mem_map : MemMap) (s : LMStore) (address : ℕ) (state : BlockState) :
    Option LMStore :=
  match PhyToVirt mem_map address with
  | none => some s
  | some v =>
    if addrPrefix v.text ∉ [['7', '1'], ['7', '2'], ['7', '3'], ['7', '4'], ['7', '5'], ['7', '6']]
    then some s
    else do
      let (LMDirIndx, e) ← entryOf s v
      some { s with LMDir := s.LMDir.set LMDirIndx { e with state := state } }

/-- Directory and index after an allocation at one entry. -/
def LMStore.install (s : LMStore) (LMDirIndx : ℕ) (e : LMDir_t) (d : Decoded) : LMStore :=
  { s with
    LMDir := s.LMDir.set LMDirIndx
      { e with LMBIndex := s.LMBIndex, BlockID := d.BlockID, state := .BlockExclusive,
               BlockSize := d.BlockSize }
    LMBIndex := addU32 s.LMBIndex d.BlockSize }

def allocateBlock (mem_map : MemMap) (s : LMStore) (address : ℕ) : Option (Bool × LMStore) :=
  match PhyToVirt mem_map address with
  | none => some (false, s)
  | some v =>
    if addrPrefix v.text ≠ ['7', '1'] ∧ addrPrefix v.text ≠ ['7', '4'] then some (false, s)
    else do
      -- no capacity check is made: the one in the source is commented out
      let (LMDirIndx, e) ← entryOf s v
      some (true, s.install LMDirIndx e (DecodeAddress v.text))

def LMStore.release (s : LMStore) (LMDirIndx : ℕ) (e : LMDir_t) (freed : ℕ) : LMStore :=
  { s with
    LMDir := s.LMDir.set LMDirIndx { e with state := .BlockInvalid }
    LMBIndex := subU32 s.LMBIndex freed }

def deallocateBlock (mem_map : MemMap) (s : LMStore) (address : ℕ) : Option (Bool × LMStore) :=
  match PhyToVirt mem_map address with
  | none => some (false, s)
  | some v => do
    let (LMDirIndx, e) ← entryOf s v
    -- the size given back is read at the member `LMDirIndex`, not at the local `LMDirIndx`
    let freed ← s.LMDir[s.LMDirIndex]?
    some (true, s.release LMDirIndx e freed.BlockSize)

@[simp] theorem length_fill {α : Type*} (n : ℕ) (f : ℕ → α) (a : List α) :
    (fill n f a).length = a.length := by
  unfold fill
  induction n with
  | zero => rfl
  | succ n ih => simp [List.range_succ, ih]

theorem getElem?_fill {α : Type*} (n : ℕ) (f : ℕ → α) (a : List α) (j : ℕ) :
    (fill n f a)[j]? = if j < n then a[j]?.map (fun _ => f j) else a[j]? := by
  unfold fill
  induction n with
  | zero => simp
  | succ n ih =>
    rw [List.range_succ, List.foldl_append, List.foldl_cons, List.foldl_nil, List.getElem?_set, ih]
    have hlen : ((List.range n).foldl (fun a i => a.set i (f i)) a).length = a.length :=
      length_fill n f a
    rw [hlen]
    rcases lt_trichotomy n j with h | rfl | h
    · simp [h.ne, show ¬ j < n by omega, show ¬ j < n + 1 by omega]
    · by_cases ha : n < a.length <;> simp [ha]
    · simp [h.ne', h, show j < n + 1 by omega]

theorem new_LMRef (BlockSize LMRefSize LMDirSize NumberOfBlocks lmsStoreSize i : ℕ) :
    (LMStore.new BlockSize LMRefSize LMDirSize NumberOfBlocks lmsStoreSize).LMRef[i]? =
      if i < LMRefSize then some ⟨i, 0⟩ else none := by
  simp only [LMStore.new, initLMStorage, initLMDir, initLMRef, initBlkDescriptor, getElem?_fill]
  split_ifs with h <;> simp [h]

theorem new_LMDir (BlockSize LMRefSize LMDirSize NumberOfBlocks lmsStoreSize : ℕ) {e : LMDir_t}
    (he : e ∈ (LMStore.new BlockSize LMRefSize LMDirSize NumberOfBlocks lmsStoreSize).LMDir) :
    e = ⟨0, 0, 0, false, .BlockInvalid⟩ := by
  obtain ⟨i, hi⟩ := List.getElem?_of_mem he
  simp only [LMStore.new, initLMStorage, initLMDir, initLMRef, initBlkDescriptor,
    getElem?_fill] at hi
  by_cases h : i < LMDirSize
  · simpa [h] using hi.symm
  · simp [h] at hi

theorem entryOf_eq_some {s : LMStore} {v : VirtAddr} {i : ℕ} {e : LMDir_t} :
    entryOf s v = some (i, e) ↔
      dirIndex s (DecodeAddress v.text).LMRefIndex = some i ∧ s.LMDir[i]? = some e := by
  unfold entryOf
  cases hd : dirIndex s (DecodeAddress v.text).LMRefIndex with
  | none => simp
  | some k =>
    cases hk : s.LMDir[k]? with
    | none =>
      simp only [Option.bind_eq_bind, Option.bind_some, hk, Option.bind_none]
      constructor
      · intro h; cases h
      · rintro ⟨h, hi⟩
        cases h
        rw [hk] at hi
        cases hi
    | some f =>
      simp only [Option.bind_eq_bind, Option.bind_some, hk, Option.some.injEq, Prod.mk.injEq]
      constructor
      · rintro ⟨rfl, rfl⟩
        exact ⟨rfl, hk⟩
      · rintro ⟨rfl, h⟩
        rw [hk] at h
        exact ⟨rfl, Option.some.inj h⟩

theorem setBlockState_cases {mem_map : MemMap} {s t : LMStore} {address : ℕ} {state : BlockState}
    (h : setBlockState mem_map s address state = some t) :
    (t = s ∧ ∀ v, PhyToVirt mem_map address = some v → addrPrefix v.text ∉
      [['7', '1'], ['7', '2'], ['7', '3'], ['7', '4'], ['7', '5'], ['7', '6']]) ∨
    ∃ v i e, PhyToVirt mem_map address = some v ∧ addrPrefix v.text ∈
      [['7', '1'], ['7', '2'], ['7', '3'], ['7', '4'], ['7', '5'], ['7', '6']] ∧
      entryOf s v = some (i, e) ∧ t = { s with LMDir := s.LMDir.set i { e with state := state } } := by
  unfold setBlockState at h
  cases hv : PhyToVirt mem_map address with
  | none =>
    simp only [hv] at h
    exact Or.inl ⟨(Option.some.inj h).symm, by simp⟩
  | some v =>
    simp only [hv] at h
    split_ifs at h with hprefix
    · obtain ⟨⟨i, e⟩, he, ht⟩ := Option.bind_eq_some_iff.mp h
      exact Or.inr ⟨v, i, e, rfl, hprefix, he, (Option.some.inj ht).symm⟩
    · refine Or.inl ⟨(Option.some.inj h).symm, fun w hw => ?_⟩
      rwa [← Option.some.inj hw]

theorem allocateBlock_cases {mem_map : MemMap} {s t : LMStore} {address : ℕ} {r : Bool}
    (h : allocateBlock mem_map s address = some (r, t)) :
    (r = false ∧ t = s ∧ ∀ v, PhyToVirt mem_map address = some v →
      addrPrefix v.text ≠ ['7', '1'] ∧ addrPrefix v.text ≠ ['7', '4']) ∨
    (r = true ∧ ∃ v i e, PhyToVirt mem_map address = some v ∧
      (addrPrefix v.text = ['7', '1'] ∨ addrPrefix v.text = ['7', '4']) ∧
      entryOf s v = some (i, e) ∧ t = s.install i e (DecodeAddress v.text)) := by
  unfold allocateBlock at h
  cases hv : PhyToVirt mem_map address with
  | none =>
    simp only [hv, Option.some.injEq, Prod.mk.injEq] at h
    exact Or.inl ⟨h.1.symm, h.2.symm, by simp⟩
  | some v =>
    simp only [hv] at h
    split_ifs at h with hp
    · simp only [Option.some.injEq, Prod.mk.injEq] at h
      refine Or.inl ⟨h.1.symm, h.2.symm, fun w hw => ?_⟩
      cases hw
      exact hp
    · cases he : entryOf s v with
      | none => simp [he] at h
      | some x =>
        obtain ⟨i, e⟩ := x
        simp only [he, Option.bind_eq_bind, Option.bind_some, Option.some.injEq,
          Prod.mk.injEq] at h
        exact Or.inr ⟨h.1.symm, v, i, e, rfl, by tauto, he, h.2.symm⟩

theorem deallocateBlock_cases {mem_map : MemMap} {s t : LMStore} {address : ℕ} {r : Bool}
    (h : deallocateBlock mem_map s address = some (r, t)) :
    (r = false ∧ t = s ∧ PhyToVirt mem_map address = none) ∨
    (r = true ∧ ∃ v i e freed, PhyToVirt mem_map address = some v ∧
      entryOf s v = some (i, e) ∧ s.LMDir[s.LMDirIndex]? = some freed ∧
      t = s.release i e freed.BlockSize) := by
  unfold deallocateBlock at h
  cases hv : PhyToVirt mem_map address with
  | none =>
    simp only [hv, Option.some.injEq, Prod.mk.injEq] at h
    exact Or.inl ⟨h.1.symm, h.2.symm, rfl⟩
  | some v =>
    simp only [hv] at h
    cases he : entryOf s v with
    | none => simp [he] at h
    | some x =>
      obtain ⟨i, e⟩ := x
      cases hf : s.LMDir[s.LMDirIndex]? with
      | none => simp [he, hf] at h
      | some freed =>
        simp only [he, hf, Option.bind_eq_bind, Option.bind_some, Option.some.injEq,
          Prod.mk.injEq] at h
        exact Or.inr ⟨h.1.symm, v, i, e, freed, rfl, he, rfl, h.2.symm⟩

end MMLMStore.LMStoreTables
