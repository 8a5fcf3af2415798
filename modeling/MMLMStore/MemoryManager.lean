import MMLMStore.OrderedMaps
import MMLMStore.PageSpace

/-!
# Memory manager

`Manager` hands out pieces of a memory space. A piece of up to one page is cut out of a hole, and
holes come from whole pages; a larger piece gets pages of its own. A piece that is given back is
merged with the hole after it, and a page that is one hole is unmapped. Merging it with the hole
before it goes on with a chunk that was deleted.
-/
namespace MMLMStore.MemoryManager

open KeyedTable OrderedMaps PagedMemory PageSpace

def MapBaseAddress : ℕ := 0xb7fb0000

inductive Error
  | OutOfMemory
  | NotAllocated
  deriving DecidableEq, Repr

/-- The text thrown, without the prefix of its class. -/
def Error.message : Error → String
  | .OutOfMemory => "Guest program out of memory."
  | .NotAllocated =>
    "Trying to free a pointer not created by Allocate or has already been freed."

/-- A piece of memory, under its address in the table of chunks. -/
structure Chunk where
  size : ℕ
  is_allocated : Bool
  deriving DecidableEq, Repr

/-- Chunks by address, addresses of holes by size; `mapped` says which tags the manager has mapped
and not unmapped since. -/
structure Manager where
  memory : Memory
  chunks : Table ℕ Chunk
  holes : MultiTable ℕ ℕ
  mapped : ℕ → Bool

def Manager.new (memory : Memory) : Manager := ⟨memory, .empty, .empty, fun _ => false⟩

/-- `ceil((double) a / b)`, without rounding. -/
def ceil (a b : ℕ) : ℕ := (a + b - 1) / b

/-- It is the ceiling of the rational number. -/
theorem ceil_eq {a b : ℕ} (hb : 0 < b) : ceil a b = ⌈(a : ℚ) / b⌉₊ := by
  have hb' : (0 : ℚ) < b := by exact_mod_cast hb
  refine le_antisymm ?_ (Nat.ceil_le.mpr ?_)
  · refine le_of_forall_ge fun k hk => ?_
    rw [Nat.ceil_le, div_le_iff₀ hb'] at hk
    have hle : a ≤ k * b := by exact_mod_cast hk
    have hlt : (a + b - 1) / b < k + 1 := by
      rw [Nat.div_lt_iff_lt_mul hb, Nat.succ_mul]
      omega
    exact Nat.lt_succ_iff.mp hlt
  · rw [div_le_iff₀ hb']
    have hmod := Nat.mod_lt (a + b - 1) hb
    have hdiv := Nat.div_add_mod' (a + b - 1) b
    have hle : a ≤ ceil a b * b := by
      unfold ceil
      omega
    exact_mod_cast hle

def getNextAlignedAddress (address alignment : ℕ) : ℕ := ceil address alignment * alignment

def isInSamePage (addr1 addr2 : ℕ) : Prop := addr1 / PageSize = addr2 / PageSize

instance (addr1 addr2 : ℕ) : Decidable (isInSamePage addr1 addr2) :=
  inferInstanceAs (Decidable (_ = _))

namespace Manager

variable (s : Manager)

/-- Map pages of the memory; no result if the loop does not end. -/
def Map (address size perm : ℕ) : Option Manager :=
  (tags address size).bind fun visited => (PageSpace.Map s.memory address size perm).map
    fun memory => { s with
      memory := memory
      mapped := fun tag => s.mapped tag || visited.contains tag }

def Unmap (address size : ℕ) : Option Manager :=
  (tags address size).bind fun visited => (PageSpace.Unmap s.memory address size).map
    fun memory => { s with
      memory := memory
      mapped := fun tag => s.mapped tag && !visited.contains tag }

def CreateHole (addr size : ℕ) : Manager :=
  { s with chunks := s.chunks.insert addr ⟨size, false⟩, holes := s.holes.insert size addr }

/-- It asserts that the chunk is a hole. -/
def RemoveHole (addr : ℕ) : Option Manager :=
  (s.chunks.find? addr).bind fun hole =>
    if hole.is_allocated then none
    else
      some { s with
        chunks := erase s.chunks addr
        holes := s.holes.erase (hole.size, addr) }

def CreatePointer (addr size : ℕ) : Manager :=
  { s with chunks := s.chunks.insert addr ⟨size, true⟩ }

def RemovePointer (addr : ℕ) : Manager := { s with chunks := erase s.chunks addr }

def DeallocatePage (addr : ℕ) : Option Manager := s.Unmap addr PageSize

def RequestOnePage (base_address : ℕ) : Option (Manager × Except Error ℕ) :=
  (MapSpace s.memory base_address PageSize).bind fun addr =>
    if addr = noSpace then some (s, .error .OutOfMemory)
    else (s.Map addr PageSize 7).map fun s => (s.CreateHole addr PageSize, .ok addr)

def canHoleContain (hole size alignment : ℕ) : Bool :=
  (s.chunks.find? hole).elim false fun chunk =>
    let gap := getNextAlignedAddress hole alignment - hole
    size + gap ≤ chunk.size

/-- Hole in front of the pointer, hole behind it, pointer. -/
def AllocateIn (hole size alignment : ℕ) : Option (Manager × ℕ) :=
  (s.chunks.find? hole).bind fun chunk => (s.RemoveHole hole).map fun s =>
    let aligned_address := getNextAlignedAddress hole alignment
    let hole1_size := aligned_address - hole
    let s := if 0 < hole1_size then s.CreateHole hole hole1_size else s
    -- an unsigned difference: a piece that does not fit leaves a very large hole
    let hole2_size := (Space + chunk.size - size - hole1_size) % Space
    let s := if 0 < hole2_size then s.CreateHole (hole + hole1_size + size) hole2_size else s
    (s.CreatePointer aligned_address size, aligned_address)

def AllocateLarge (size : ℕ) : Option (Manager × Except Error ℕ) :=
  let page_aligned_size := ceil size PageSize * PageSize
  (MapSpaceDown s.memory MapBaseAddress page_aligned_size).bind fun address =>
    if address = noSpace then some (s, .error .OutOfMemory)
    else
      (s.Map address size 7).map fun s =>
        (s.CreatePointer address page_aligned_size, .ok address)

/-- The first of the holes that are large enough and can contain the aligned piece, or a new
page. -/
def Allocate (size alignment : ℕ) : Option (Manager × Except Error ℕ) :=
  if PageSize < alignment then none
  else if PageSize < size then s.AllocateLarge size
  else
    match (s.holes.lowerBound size).find? fun hole => s.canHoleContain hole.2 size alignment with
    | some hole => (s.AllocateIn hole.2 size alignment).map fun r => (r.1, .ok r.2)
    | none =>
      (s.RequestOnePage MapBaseAddress).bind fun r =>
        match r.2 with
        | .error e => some (r.1, .error e)
        | .ok hole => (r.1.AllocateIn hole size alignment).map fun r => (r.1, .ok hole)

/-- It asserts that both are holes, one after the other. -/
def Merge2Holes (hole1 hole2 : ℕ) : Option Manager :=
  (s.chunks.find? hole1).bind fun chunk1 => (s.chunks.find? hole2).bind fun chunk2 =>
    if chunk1.is_allocated ∨ chunk2.is_allocated ∨ hole1 + chunk1.size ≠ hole2 then none
    else
      (s.RemoveHole hole2).bind fun s => (s.RemoveHole hole1).map fun s =>
        s.CreateHole hole1 (chunk1.size + chunk2.size)

def mergeForward (addr : ℕ) : Option Manager :=
  match next? s.chunks addr with
  | some (next, chunk) =>
    if isInSamePage addr next ∧ chunk.is_allocated = false then s.Merge2Holes addr next
    else some s
  | none => some s

/-- Merge a hole with the chunk before it; the address is that of the hole then. `Merge2Holes`
deletes the chunk before, and its address is read after that, which has no result. -/
def mergeBack (addr : ℕ) : Option (Manager × ℕ) :=
  match prev? s.chunks addr with
  | some (prev, chunk) =>
    if isInSamePage addr prev ∧ chunk.is_allocated = false then none else some (s, addr)
  | none => some (s, addr)

/-- Unmap the page if it is free. -/
def releasePage (merged_addr : ℕ) : Option Manager :=
  (s.chunks.find? merged_addr).bind fun chunk =>
    if chunk.size = PageSize then
      (s.DeallocatePage merged_addr).bind fun s => s.RemoveHole merged_addr
    else some s

def MergeHoles (hole : ℕ) : Option Manager :=
  (s.chunks.find? hole).bind fun chunk =>
    if chunk.is_allocated then none
    else (s.mergeForward hole).bind fun s => (s.mergeBack hole).bind fun r => r.1.releasePage r.2

def deallocatePages (s : Manager) (address : ℕ) : ℕ → Option Manager
  | 0 => some s
  | n + 1 => (s.DeallocatePage address).bind fun s => s.deallocatePages (address + PageSize) n

def FreeLarge (pointer size : ℕ) : Option Manager :=
  (s.deallocatePages pointer (size / PageSize)).map fun s => s.RemovePointer pointer

def Free (address : ℕ) : Option (Manager × Except Error Unit) :=
  match s.chunks.find? address with
  | none => some (s, .error .NotAllocated)
  | some chunk =>
    if PageSize < chunk.size then (s.FreeLarge address chunk.size).map fun s => (s, .ok ())
    else
      (((s.RemovePointer address).CreateHole address chunk.size).MergeHoles address).map
        fun s => (s, .ok ())

end Manager

end MMLMStore.MemoryManager
