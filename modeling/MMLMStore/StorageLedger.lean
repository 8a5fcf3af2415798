import MMLMStore.LMStoreTables

/-!
# Ledger of the allocations

What allocations and deallocations amount to, reckoned from their entries and sizes alone. Every
deallocation gives back the size that was allocated last at directory entry 0, whichever entry it
frees. The storage index of an LMStore is the balance of the ledger, as an `unsigned`.
-/
namespace MMLMStore.StorageLedger
open LMStoreDecode LMStoreTables

/-- A block that was allocated and not freed since. -/
structure Block where
  entry : ℕ
  size : ℕ
  /-- Bytes allocated since, the block's own included, less those given back since. -/
  since : ℤ
  deriving DecidableEq, Repr

structure Ledger where
  /-- Bytes allocated, less those given back. -/
  balance : ℤ
  /-- Size allocated last at entry 0. -/
  firstSize : ℕ
  blocks : List Block
  deriving DecidableEq, Repr

namespace Ledger

def new : Ledger := ⟨0, 0, []⟩

variable (g : Ledger)

/-- Moves the balance, and with it the bytes since every block. -/
def move (bytes : ℤ) : Ledger :=
  { g with
    balance := g.balance + bytes
    blocks := g.blocks.map fun b => { b with since := b.since + bytes } }

def allocate (entry size : ℕ) : Ledger :=
  let g := g.move size
  { g with
    firstSize := if entry = 0 then size else g.firstSize
    blocks := ⟨entry, size, size⟩ :: g.blocks }

def deallocate (entry : ℕ) : Ledger :=
  { g.move (-g.firstSize) with
    blocks := (g.move (-g.firstSize)).blocks.filter (·.entry ≠ entry) }

def offset : ℤ := g.balance % 2 ^ 32

end Ledger

/-- Entry and size that `allocateBlock` reads at an address that it accepts. -/
def requested (mem_map : MemMap) (address : ℕ) : Option (ℕ × ℕ) :=
  (PhyToVirt mem_map address).bind fun v =>
    if addrPrefix v.text = ['7', '1'] ∨ addrPrefix v.text = ['7', '4'] then
      some ((DecodeAddress v.text).LMRefIndex, (DecodeAddress v.text).BlockSize)
    else none

def freed (mem_map : MemMap) (address : ℕ) : Option ℕ :=
  (PhyToVirt mem_map address).map fun v => (DecodeAddress v.text).LMRefIndex

def Ledger.allocateAt (g : Ledger) (mem_map : MemMap) (address : ℕ) : Ledger :=
  (requested mem_map address).elim g fun x => g.allocate x.1 x.2

def Ledger.deallocateAt (g : Ledger) (mem_map : MemMap) (address : ℕ) : Ledger :=
  (freed mem_map address).elim g g.deallocate

/-- The LMStore has the storage index of the ledger and gives back the size that it names. -/
structure Balanced (g : Ledger) (s : LMStore) : Prop where
  LMBIndex : (s.LMBIndex : ℤ) = g.offset
  LMDirIndex : s.LMDirIndex = 0
  firstSize : ∀ e ∈ s.LMDir[0]?, e.BlockSize = g.firstSize

/-- The LMRef table names every directory entry by its own index. -/
def Direct (s : LMStore) : Prop := ∀ i j, dirIndex s i = some j → j = i

theorem balanced_new (BlockSize LMRefSize LMDirSize NumberOfBlocks lmsStoreSize : ℕ) :
    Balanced .new (.new BlockSize LMRefSize LMDirSize NumberOfBlocks lmsStoreSize) where
  LMBIndex := rfl
  LMDirIndex := rfl
  firstSize := by
    intro e he
    rw [new_LMDir _ _ _ _ _ (List.mem_of_getElem? he)]
    rfl

section Calls

variable {g : Ledger} {s t : LMStore} {mem_map : MemMap} {address : ℕ}

theorem Balanced.allocate (h : Balanced g s) {i : ℕ} {e : LMDir_t} (he : s.LMDir[i]? = some e)
    (d : Decoded) : Balanced (g.allocate i d.BlockSize) (s.install i e d) where
  LMBIndex := by
    have hindex := h.LMBIndex
    simp only [LMStore.install, Ledger.allocate, Ledger.move, Ledger.offset, addU32] at hindex ⊢
    push_cast
    omega
  LMDirIndex := h.LMDirIndex
  firstSize := by
    intro f hf
    have hlen := (List.getElem?_eq_some_iff.mp he).1
    rw [LMStore.install, List.getElem?_set, if_pos hlen] at hf
    simp only [Ledger.allocate, Ledger.move]
    split_ifs at hf ⊢ with hi
    · rw [← Option.some.inj hf]
    · exact h.firstSize f hf

theorem Balanced.deallocate (h : Balanced g s) {i : ℕ} {e freed : LMDir_t}
    (he : s.LMDir[i]? = some e) (hfreed : s.LMDir[s.LMDirIndex]? = some freed) :
    Balanced (g.deallocate i) (s.release i e freed.BlockSize) where
  LMBIndex := by
    have hindex := h.LMBIndex
    rw [h.LMDirIndex] at hfreed
    have hsize := h.firstSize freed hfreed
    simp only [LMStore.release, Ledger.deallocate, Ledger.move, Ledger.offset, subU32] at hindex ⊢
    omega
  LMDirIndex := h.LMDirIndex
  firstSize := by
    intro f hf
    have hlen := (List.getElem?_eq_some_iff.mp he).1
    rw [LMStore.release, List.getElem?_set, if_pos hlen] at hf
    simp only [Ledger.deallocate, Ledger.move]
    split_ifs at hf with hi
    · rw [← Option.some.inj hf]
      exact h.firstSize e (hi ▸ he)
    · exact h.firstSize f hf

theorem requested_of_refused (h : ∀ v, PhyToVirt mem_map address = some v →
    addrPrefix v.text ≠ ['7', '1'] ∧ addrPrefix v.text ≠ ['7', '4']) :
    requested mem_map address = none := by
  unfold requested
  cases hv : PhyToVirt mem_map address with
  | none => rfl
  | some v => simp [h v hv]

theorem requested_of_accepted {v : VirtAddr} (hv : PhyToVirt mem_map address = some v)
    (hp : addrPrefix v.text = ['7', '1'] ∨ addrPrefix v.text = ['7', '4']) :
    requested mem_map address =
      some ((DecodeAddress v.text).LMRefIndex, (DecodeAddress v.text).BlockSize) := by
  simp [requested, hv, hp]

theorem index_of_entryOf (hdirect : Direct s) {v : VirtAddr} {i : ℕ} {e : LMDir_t}
    (he : entryOf s v = some (i, e)) : i = (DecodeAddress v.text).LMRefIndex :=
  hdirect _ _ (entryOf_eq_some.mp he).1

theorem Balanced.allocateBlock (h : Balanced g s) (hdirect : Direct s) {r : Bool}
    (hcall : LMStoreTables.allocateBlock mem_map s address = some (r, t)) :
    Balanced (g.allocateAt mem_map address) t := by
  unfold Ledger.allocateAt
  rcases allocateBlock_cases hcall with ⟨-, rfl, hrefused⟩ | ⟨-, v, i, e, hv, hp, he, rfl⟩
  · rw [requested_of_refused hrefused]
    exact h
  · obtain rfl := index_of_entryOf hdirect he
    rw [requested_of_accepted hv hp]
    exact h.allocate (entryOf_eq_some.mp he).2 _

theorem Balanced.deallocateBlock (h : Balanced g s) (hdirect : Direct s) {r : Bool}
    (hcall : LMStoreTables.deallocateBlock mem_map s address = some (r, t)) :
    Balanced (g.deallocateAt mem_map address) t := by
  unfold Ledger.deallocateAt freed
  rcases deallocateBlock_cases hcall with ⟨-, rfl, hv⟩ | ⟨-, v, i, e, freed, hv, he, hfreed, rfl⟩
  · rw [hv]
    exact h
  · obtain rfl := index_of_entryOf hdirect he
    rw [hv]
    exact h.deallocate (entryOf_eq_some.mp he).2 hfreed

end Calls

end MMLMStore.StorageLedger
