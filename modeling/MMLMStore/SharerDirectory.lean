import MMLMStore.AccessList
import MMLMStore.AlignedBlocks

/-!
# Sharers and owners of one block

A module keeps, for every sub-block of a block, one sharer bit for each node of its high network
and an owner. The sub-block size is the least block size of the module and its higher modules. The
directory here is the row of one set and way: a handler touches only the block it has locked.
-/
namespace MMLMStore.SharerDirectory

open AlignedBlocks
open AccessList (ModuleType)

/-- A module seen from the level below it; `index` is its node in that level's high network. -/
structure MemModule where
  name : String
  type : ModuleType
  blockSize : ℕ
  subBlockSize : ℕ
  index : ℕ
  deriving DecidableEq, Repr

/-- A module, its higher modules and the number of nodes of its high network, with what reading the
configuration checks: powers of two that do not decrease on the way to main memory. -/
structure Geometry where
  blockSize : ℕ
  highModules : List MemModule
  numNodes : ℕ
  blockSize_power : blockSize.isPowerOfTwo
  blockSize_int : blockSize < 2 ^ 31
  high_power : ∀ h ∈ highModules, h.blockSize.isPowerOfTwo
  high_le : ∀ h ∈ highModules, h.blockSize ≤ blockSize
  sub_power : ∀ h ∈ highModules, h.subBlockSize.isPowerOfTwo
  sub_le : ∀ h ∈ highModules, h.subBlockSize ≤ h.blockSize
  index_lt : ∀ h ∈ highModules, h.index < numNodes
  index_inj : ∀ h ∈ highModules, ∀ h' ∈ highModules, h.index = h'.index → h = h'

namespace Geometry

variable (g : Geometry)

def subBlockSize : ℕ :=
  g.highModules.foldl (fun size high => min size high.blockSize) g.blockSize

def numSubBlocks : ℕ := g.blockSize / g.subBlockSize

def getUserData (i : ℕ) : Option MemModule := g.highModules.find? fun h => h.index = i

def directoryEntryTag (tag z : ℕ) : ℕ := (tag + z * g.subBlockSize) % 2 ^ 32

end Geometry

/-- The least of a list of sizes: it has every property all of them have, and bounds them. -/
theorem foldl_min_blockSize (p : ℕ → Prop) (l : List MemModule) (size : ℕ) (hsize : p size)
    (hl : ∀ h ∈ l, p h.blockSize) :
    p (l.foldl (fun size high => min size high.blockSize) size) ∧
      l.foldl (fun size high => min size high.blockSize) size ≤ size ∧
      ∀ h ∈ l, l.foldl (fun size high => min size high.blockSize) size ≤ h.blockSize := by
  induction l generalizing size with
  | nil => simp [hsize]
  | cons a l ih =>
    have hmin : p (min size a.blockSize) := by
      rcases Nat.le_total size a.blockSize with h | h
      · rw [Nat.min_eq_left h]
        exact hsize
      · rw [Nat.min_eq_right h]
        exact hl a List.mem_cons_self
    obtain ⟨hp, hle, hall⟩ := ih (min size a.blockSize) hmin
      (fun h hh => hl h (List.mem_cons_of_mem a hh))
    simp only [List.foldl_cons]
    refine ⟨hp, le_trans hle (Nat.min_le_left _ _), fun h hh => ?_⟩
    rcases List.mem_cons.mp hh with rfl | hh
    · exact le_trans hle (Nat.min_le_right _ _)
    · exact hall h hh

namespace Geometry

variable (g : Geometry)

theorem subBlockSize_power : g.subBlockSize.isPowerOfTwo :=
  (foldl_min_blockSize Nat.isPowerOfTwo _ _ g.blockSize_power g.high_power).1

theorem subBlockSize_le : g.subBlockSize ≤ g.blockSize :=
  (foldl_min_blockSize Nat.isPowerOfTwo _ _ g.blockSize_power g.high_power).2.1

theorem subBlockSize_le_high {h : MemModule} (hh : h ∈ g.highModules) :
    g.subBlockSize ≤ h.blockSize :=
  (foldl_min_blockSize Nat.isPowerOfTwo _ _ g.blockSize_power g.high_power).2.2 h hh

theorem subBlockSize_pos : 0 < g.subBlockSize := pos_of_isPowerOfTwo g.subBlockSize_power

theorem subBlockSize_dvd : g.subBlockSize ∣ g.blockSize :=
  dvd_of_le_of_isPowerOfTwo g.subBlockSize_power g.blockSize_power g.subBlockSize_le

theorem subBlockSize_dvd_high {h : MemModule} (hh : h ∈ g.highModules) :
    g.subBlockSize ∣ h.blockSize :=
  dvd_of_le_of_isPowerOfTwo g.subBlockSize_power (g.high_power h hh) (g.subBlockSize_le_high hh)

theorem high_dvd {h : MemModule} (hh : h ∈ g.highModules) : h.blockSize ∣ g.blockSize :=
  dvd_of_le_of_isPowerOfTwo (g.high_power h hh) g.blockSize_power (g.high_le h hh)

theorem blockSize_dvd_space : g.blockSize ∣ 2 ^ 32 :=
  dvd_of_le_of_isPowerOfTwo g.blockSize_power ⟨32, rfl⟩ (by have := g.blockSize_int; omega)

theorem subBlockSize_mul : g.subBlockSize * g.numSubBlocks = g.blockSize :=
  Nat.mul_div_cancel' g.subBlockSize_dvd

theorem getUserData_eq_some {i : ℕ} {h : MemModule} :
    g.getUserData i = some h ↔ h ∈ g.highModules ∧ h.index = i := by
  constructor
  · intro hi
    exact ⟨List.mem_of_find?_eq_some hi, by simpa using List.find?_some hi⟩
  · intro hh
    obtain ⟨hmem, rfl⟩ := hh
    cases hfind : g.getUserData h.index with
    | none =>
      have := List.find?_eq_none.mp hfind h hmem
      simp at this
    | some h' =>
      have hmem' := List.mem_of_find?_eq_some hfind
      have hidx : h'.index = h.index := by simpa using List.find?_some hfind
      rw [g.index_inj h' hmem' h hmem hidx]

/-- Tag of a block of the module: an aligned 32-bit address. -/
structure BlockTag where
  val : ℕ
  aligned : g.blockSize ∣ val
  lt : val < 2 ^ 32

end Geometry

namespace Geometry

variable {g : Geometry}

theorem BlockTag.add_le (t : g.BlockTag) : t.val + g.blockSize ≤ 2 ^ 32 := by
  obtain ⟨q, hq⟩ := t.aligned
  obtain ⟨r, hr⟩ := g.blockSize_dvd_space
  have hlt := t.lt
  rw [hq, hr] at hlt ⊢
  have hqr : q + 1 ≤ r := Nat.lt_of_mul_lt_mul_left hlt
  calc g.blockSize * q + g.blockSize = g.blockSize * (q + 1) := (Nat.mul_succ _ _).symm
    _ ≤ g.blockSize * r := Nat.mul_le_mul_left _ hqr

theorem subBlock_lt {z : ℕ} (hz : z < g.numSubBlocks) :
    g.subBlockSize * z + g.subBlockSize ≤ g.blockSize := by
  calc g.subBlockSize * z + g.subBlockSize = g.subBlockSize * (z + 1) := (Nat.mul_succ _ _).symm
    _ ≤ g.subBlockSize * g.numSubBlocks := Nat.mul_le_mul_left _ hz
    _ = g.blockSize := g.subBlockSize_mul

/-- Inside a block the address of a sub-block does not wrap. -/
theorem directoryEntryTag_eq (t : g.BlockTag) {z : ℕ} (hz : z < g.numSubBlocks) :
    g.directoryEntryTag t.val z = t.val + g.subBlockSize * z := by
  have hle := t.add_le
  have hsub := subBlock_lt hz
  have hpos := g.subBlockSize_pos
  rw [directoryEntryTag, Nat.mul_comm z]
  apply Nat.mod_eq_of_lt
  omega

/-- First of the sub-blocks that lie in a higher module's block together with a given one. -/
def firstSubBlock (g : Geometry) (h : MemModule) (z : ℕ) : ℕ :=
  blockBase (h.blockSize / g.subBlockSize) z

theorem firstSubBlock_le (h : MemModule) (z : ℕ) : g.firstSubBlock h z ≤ z := blockBase_le _ z

/-- The block of a higher module that contains a sub-block starts at its first sub-block. -/
theorem blockBase_directoryEntryTag (t : g.BlockTag) {h : MemModule} (hh : h ∈ g.highModules)
    {z : ℕ} (hz : z < g.numSubBlocks) :
    blockBase h.blockSize (g.directoryEntryTag t.val z) =
      t.val + g.subBlockSize * g.firstSubBlock h z := by
  have hpos : 0 < h.blockSize := pos_of_isPowerOfTwo (g.high_power h hh)
  have hmul : g.subBlockSize * (h.blockSize / g.subBlockSize) = h.blockSize :=
    Nat.mul_div_cancel' (g.subBlockSize_dvd_high hh)
  rw [directoryEntryTag_eq t hz, blockBase_add hpos (dvd_trans (g.high_dvd hh) t.aligned)]
  congr 1
  rw [firstSubBlock, ← blockBase_mul g.subBlockSize_pos, hmul]

/-- A sub-block starts a higher module's block exactly when it is the first one there. -/
theorem dvd_directoryEntryTag (t : g.BlockTag) {h : MemModule} (hh : h ∈ g.highModules) {z : ℕ}
    (hz : z < g.numSubBlocks) :
    h.blockSize ∣ g.directoryEntryTag t.val z ↔ g.firstSubBlock h z = z := by
  rw [← blockBase_eq_self, blockBase_directoryEntryTag t hh hz, directoryEntryTag_eq t hz,
    Nat.add_left_cancel_iff]
  constructor
  · intro heq
    exact Nat.eq_of_mul_eq_mul_left g.subBlockSize_pos heq
  · intro heq
    rw [heq]

theorem firstSubBlock_firstSubBlock (h : MemModule) (z : ℕ) :
    g.firstSubBlock h (g.firstSubBlock h z) = g.firstSubBlock h z :=
  blockBase_eq_self.mpr (dvd_blockBase _ z)

/-- Sub-blocks of one block of a higher module have one first sub-block. -/
theorem blockBase_directoryEntryTag_inj (t : g.BlockTag) {h : MemModule} (hh : h ∈ g.highModules)
    {z z' : ℕ} (hz : z < g.numSubBlocks) (hz' : z' < g.numSubBlocks) :
    blockBase h.blockSize (g.directoryEntryTag t.val z) =
      blockBase h.blockSize (g.directoryEntryTag t.val z') ↔
      g.firstSubBlock h z = g.firstSubBlock h z' := by
  rw [blockBase_directoryEntryTag t hh hz, blockBase_directoryEntryTag t hh hz',
    Nat.add_left_cancel_iff]
  constructor
  · intro heq
    exact Nat.eq_of_mul_eq_mul_left g.subBlockSize_pos heq
  · intro heq
    rw [heq]

end Geometry

/-- One row of the directory. The sharers are nodes of higher modules, and their number is
counted. -/
structure Directory (g : Geometry) where
  sharers : ℕ → ℕ → Bool
  owner : ℕ → Option ℕ
  numSharers : ℕ → ℕ
  sharer_high : ∀ z i, sharers z i = true → ∃ h ∈ g.highModules, h.index = i
  numSharers_eq : ∀ z,
    numSharers z = ((Finset.range g.numNodes).filter fun i => sharers z i = true).card

namespace Directory

variable {g : Geometry}

def setSharer (d : Directory g) (z : ℕ) (h : MemModule) (hh : h ∈ g.highModules) : Directory g :=
  if hset : d.sharers z h.index = true then d else
  { sharers := fun z' i => if z' = z ∧ i = h.index then true else d.sharers z' i
    owner := d.owner
    numSharers := fun z' => if z' = z then d.numSharers z' + 1 else d.numSharers z'
    sharer_high := by
      intro z' i hi
      split_ifs at hi with hc
      · exact ⟨h, hh, hc.2.symm⟩
      · exact d.sharer_high z' i hi
    numSharers_eq := by
      intro z'
      by_cases hz : z' = z
      · subst hz
        have hnew : ((Finset.range g.numNodes).filter fun i =>
            (if z' = z' ∧ i = h.index then true else d.sharers z' i) = true) =
            insert h.index ((Finset.range g.numNodes).filter fun i => d.sharers z' i = true) := by
          ext i
          have hlt := g.index_lt h hh
          by_cases hi : i = h.index
          · simp [hi, hlt]
          · simp [hi]
        rw [hnew, Finset.card_insert_of_notMem (by simp [hset]), ← d.numSharers_eq, if_pos rfl]
      · simp [hz, d.numSharers_eq] }

def clearSharer (d : Directory g) (z i : ℕ) : Directory g :=
  if hclear : d.sharers z i = false then d else
  { sharers := fun z' j => if z' = z ∧ j = i then false else d.sharers z' j
    owner := d.owner
    numSharers := fun z' => if z' = z then d.numSharers z' - 1 else d.numSharers z'
    sharer_high := by
      intro z' j hj
      split_ifs at hj
      exact d.sharer_high z' j hj
    numSharers_eq := by
      intro z'
      by_cases hz : z' = z
      · subst hz
        have hnew : ((Finset.range g.numNodes).filter fun j =>
            (if z' = z' ∧ j = i then false else d.sharers z' j) = true) =
            ((Finset.range g.numNodes).filter fun j => d.sharers z' j = true).erase i := by
          ext j
          by_cases hj : j = i
          · simp [hj]
          · simp [hj]
        have hset : d.sharers z' i = true := by simpa using hclear
        obtain ⟨h, hh, hi⟩ := d.sharer_high z' i hset
        have hmem : i ∈ (Finset.range g.numNodes).filter fun j => d.sharers z' j = true := by
          have hlt := g.index_lt h hh
          rw [hi] at hlt
          simp [hset, hlt]
        rw [hnew, Finset.card_erase_of_mem hmem, ← d.numSharers_eq, if_pos rfl]
      · simp [hz, d.numSharers_eq] }

def setOwner (d : Directory g) (z : ℕ) (owner : Option ℕ) : Directory g :=
  { d with owner := fun z' => if z' = z then owner else d.owner z' }

@[simp] theorem setSharer_sharers (d : Directory g) (z : ℕ) (h : MemModule)
    (hh : h ∈ g.highModules) (z' i : ℕ) :
    (d.setSharer z h hh).sharers z' i = if z' = z ∧ i = h.index then true else d.sharers z' i := by
  unfold setSharer
  split
  · next hset =>
    split_ifs with hc
    · rw [hc.1, hc.2, hset]
    · rfl
  · rfl

@[simp] theorem setSharer_owner (d : Directory g) (z : ℕ) (h : MemModule)
    (hh : h ∈ g.highModules) : (d.setSharer z h hh).owner = d.owner := by
  unfold setSharer
  split <;> rfl

@[simp] theorem clearSharer_sharers (d : Directory g) (z i z' j : ℕ) :
    (d.clearSharer z i).sharers z' j = if z' = z ∧ j = i then false else d.sharers z' j := by
  unfold clearSharer
  split
  · next hclear =>
    split_ifs with hc
    · rw [hc.1, hc.2, hclear]
    · rfl
  · rfl

@[simp] theorem clearSharer_owner (d : Directory g) (z i : ℕ) :
    (d.clearSharer z i).owner = d.owner := by
  unfold clearSharer
  split <;> rfl

@[simp] theorem setOwner_sharers (d : Directory g) (z : ℕ) (o : Option ℕ) :
    (d.setOwner z o).sharers = d.sharers := rfl

@[simp] theorem setOwner_owner (d : Directory g) (z : ℕ) (o : Option ℕ) (z' : ℕ) :
    (d.setOwner z o).owner z' = if z' = z then o else d.owner z' := rfl

def dropNode (d : Directory g) (z i : ℕ) : Directory g :=
  let cleared := d.clearSharer z i
  if cleared.owner z = some i then cleared.setOwner z none else cleared

@[simp] theorem dropNode_sharers (d : Directory g) (z i z' j : ℕ) :
    (d.dropNode z i).sharers z' j = if z' = z ∧ j = i then false else d.sharers z' j := by
  by_cases ho : d.owner z = some i
  · simp [dropNode, ho]
  · simp [dropNode, ho]

@[simp] theorem dropNode_owner (d : Directory g) (z i z' : ℕ) :
    (d.dropNode z i).owner z' =
      if z' = z ∧ d.owner z' = some i then none else d.owner z' := by
  simp only [dropNode, clearSharer_owner]
  by_cases hz : z' = z
  · subst hz
    by_cases ho : d.owner z' = some i
    · simp [ho]
    · simp [ho]
  · split <;> simp [hz]

structure SameRow (d d' : Directory g) (z : ℕ) : Prop where
  sharers : ∀ i, d.sharers z i = d'.sharers z i
  owner : d.owner z = d'.owner z

theorem SameRow.rfl {d : Directory g} {z : ℕ} : SameRow d d z := ⟨fun _ => .refl _, .refl _⟩

theorem SameRow.trans {d₁ d₂ d₃ : Directory g} {z : ℕ} (h : SameRow d₁ d₂ z)
    (h' : SameRow d₂ d₃ z) : SameRow d₁ d₃ z :=
  ⟨fun i => (h.sharers i).trans (h'.sharers i), h.owner.trans h'.owner⟩

/-- A loop over sub-blocks whose body keeps to its own sub-block acts on each of them once. -/
theorem foldl_sameRow (f : ℕ → Directory g → Directory g)
    (hother : ∀ z d z', z' ≠ z → SameRow (f z d) d z')
    (hown : ∀ z d d', SameRow d d' z → SameRow (f z d) (f z d') z)
    (l : List ℕ) (hl : l.Nodup) (d : Directory g) (z : ℕ) :
    SameRow (l.foldl (fun d z => f z d) d) (if z ∈ l then f z d else d) z := by
  induction l generalizing d with
  | nil => exact SameRow.rfl
  | cons a l ih =>
    obtain ⟨hnew, hnodup⟩ := List.nodup_cons.mp hl
    have hrest := ih hnodup (f a d)
    rw [List.foldl_cons]
    by_cases hz : z = a
    · subst hz
      rw [if_neg hnew] at hrest
      rw [if_pos List.mem_cons_self]
      exact hrest
    · have hhead := hother a d z hz
      by_cases hmem : z ∈ l
      · rw [if_pos hmem] at hrest
        rw [if_pos (List.mem_cons_of_mem a hmem)]
        exact hrest.trans (hown z _ _ hhead)
      · rw [if_neg hmem] at hrest
        rw [if_neg (by simp [hz, hmem])]
        exact hrest.trans hhead

theorem foldl_range_sameRow {f : ℕ → Directory g → Directory g}
    (hother : ∀ z d z', z' ≠ z → SameRow (f z d) d z')
    (hown : ∀ z d d', SameRow d d' z → SameRow (f z d) (f z d') z) (d : Directory g) {z : ℕ}
    (hz : z < g.numSubBlocks) :
    SameRow ((List.range g.numSubBlocks).foldl (fun d z => f z d) d) (f z d) z := by
  have hrow := foldl_sameRow f hother hown (List.range g.numSubBlocks) List.nodup_range d z
  rw [if_pos (List.mem_range.mpr hz)] at hrow
  exact hrow

theorem setOwner_other (z : ℕ) (o : Option ℕ) (d : Directory g) (z' : ℕ) (hz : z' ≠ z) :
    SameRow (d.setOwner z o) d z' :=
  ⟨fun _ => .refl _, by simp [hz]⟩

theorem setOwner_own (z : ℕ) (o : Option ℕ) (d d' : Directory g) (h : SameRow d d' z) :
    SameRow (d.setOwner z o) (d'.setOwner z o) z :=
  ⟨fun i => h.sharers i, by simp⟩

theorem setSharer_other (z : ℕ) {m : MemModule} (hm : m ∈ g.highModules) (d : Directory g)
    (z' : ℕ) (hz : z' ≠ z) : SameRow (d.setSharer z m hm) d z' := by
  constructor
  · intro i
    simp [hz]
  · simp

theorem setSharer_own (z : ℕ) {m : MemModule} (hm : m ∈ g.highModules) (d d' : Directory g)
    (h : SameRow d d' z) : SameRow (d.setSharer z m hm) (d'.setSharer z m hm) z := by
  constructor
  · intro i
    simp [h.sharers i]
  · simp [h.owner]

theorem dropNode_other (z i : ℕ) (d : Directory g) (z' : ℕ) (hz : z' ≠ z) :
    SameRow (d.dropNode z i) d z' := by
  constructor
  · intro j
    simp [hz]
  · simp [hz]

theorem dropNode_own (z i : ℕ) (d d' : Directory g) (h : SameRow d d' z) :
    SameRow (d.dropNode z i) (d'.dropNode z i) z := by
  constructor
  · intro j
    simp [h.sharers j]
  · simp [h.owner]

theorem exists_userData (d : Directory g) {z i : ℕ} (hi : d.sharers z i = true) :
    ∃ h ∈ g.highModules, h.index = i ∧ g.getUserData i = some h := by
  obtain ⟨h, hh, hidx⟩ := d.sharer_high z i hi
  exact ⟨h, hh, hidx, g.getUserData_eq_some.mpr ⟨hh, hidx⟩⟩

end Directory

end MMLMStore.SharerDirectory
