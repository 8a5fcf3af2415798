import MMLMStore.AlignedBlocks
import MMLMStore.CacheReplacement

/-!
# Block lookup

A cache looks a block up with unsigned arithmetic. The module that owns the cache does it again with
the tag in an `int`, where a shift copies the sign, and also takes a transient tag as a hit while
the directory entry is locked.
-/
namespace MMLMStore.BlockLookup

open AlignedBlocks
open CacheReplacement (BlockState)

/-- The configuration reads the numbers as `int`s and checks that they are positive. -/
structure Geometry where
  num_sets : BitVec 32
  num_ways : BitVec 32
  block_size : BitVec 32
  sets_power : num_sets.toNat.isPowerOfTwo
  ways_power : num_ways.toNat.isPowerOfTwo
  size_power : block_size.toNat.isPowerOfTwo
  ways_int : num_ways.toNat < 2 ^ 31

namespace Geometry

variable (g : Geometry)

def block_mask : BitVec 32 := g.block_size - 1

def log_block_size : ℕ := g.block_size.toNat.log2

end Geometry

structure Block where
  tag : BitVec 32
  transient_tag : BitVec 32
  state : BlockState
  deriving DecidableEq, Repr

abbrev Blocks := ℕ → ℕ → Block

/-- Access that locks each directory entry, 0 for none. -/
abbrev Locks := ℕ → ℕ → ℤ

def isEntryLocked (locks : Locks) (set way : ℕ) : Bool := locks set way ≠ 0

/-- Only the divisor of an interleaved range takes part in a lookup. -/
inductive RangeType
  | RangeInvalid
  | RangeBounds
  | RangeInterleaved (mod : BitVec 32)
  deriving DecidableEq, Repr

structure Found where
  hit : Bool
  set : BitVec 32
  way : ℕ
  state : BlockState
  deriving DecidableEq, Repr

def tagOf (g : Geometry) (address : BitVec 32) : BitVec 32 := address &&& ~~~g.block_mask

namespace Cache

def FindBlock (g : Geometry) (blocks : Blocks) (address : BitVec 32) : Found :=
  let set := (address >>> g.log_block_size) % g.num_sets
  let block := blocks set.toNat
  match (List.range g.num_ways.toNat).find? fun way =>
      (block way).tag = tagOf g address ∧ (block way).state ≠ .BlockInvalid with
  | some way => ⟨true, set, way, (block way).state⟩
  | none => ⟨false, 0, 0, .BlockInvalid⟩

end Cache

namespace Module

/-- Any other range type is a panic. The quotient is one of `int`s, the remainder is not. -/
def setOf (g : Geometry) (range : RangeType) (tag : BitVec 32) : Option (BitVec 32) :=
  match range with
  | .RangeInterleaved mod => some ((tag.sshiftRight g.log_block_size).sdiv mod % g.num_sets)
  | .RangeBounds => some (tag.sshiftRight g.log_block_size % g.num_sets)
  | .RangeInvalid => none

/-- The number of ways is converted to an `int`. The tag is returned as well. -/
def FindBlock (g : Geometry) (blocks : Blocks) (locks : Locks) (range : RangeType)
    (address : BitVec 32) : Option (BitVec 32 × Found) := do
  let tag := tagOf g address
  let set ← setOf g range tag
  let block := blocks set.toNat
  match (List.range g.num_ways.toInt.toNat).find? fun way =>
      (block way).tag = tag ∧ (block way).state ≠ .BlockInvalid ∨
        (block way).transient_tag = tag ∧ isEntryLocked locks set.toNat way with
  | some way => some (tag, ⟨true, set, way, (block way).state⟩)
  | none => some (tag, ⟨false, set, 0, .BlockInvalid⟩)

end Module

/-- A shift that copies the sign and one that brings in zeros differ only in the top bits. -/
theorem sshiftRight_mod {w k n : ℕ} (h : k + n ≤ w) (x : BitVec w) :
    (x.sshiftRight k).toNat % 2 ^ n = (x >>> k).toNat % 2 ^ n := by
  apply Nat.eq_of_testBit_eq
  intro i
  rw [Nat.testBit_mod_two_pow, Nat.testBit_mod_two_pow]
  by_cases hi : i < n
  · have hw : i < w := by omega
    have hk : k + i < w := by omega
    rw [BitVec.testBit_toNat, BitVec.testBit_toNat, BitVec.getLsbD_sshiftRight,
      BitVec.getLsbD_ushiftRight]
    simp [hk, Nat.not_le.mpr hw]
  · simp [hi]

/-- Clearing the bits of a mask below `2 ^ k` leaves the bits that a shift by `k` keeps. -/
theorem and_not_mask_shift {w k : ℕ} (x mask : BitVec w) (hmask : mask.toNat = 2 ^ k - 1) :
    (x &&& ~~~mask) >>> k = x >>> k := by
  apply BitVec.eq_of_getLsbD_eq
  intro i hi
  have hbit : mask.getLsbD (k + i) = false := by
    rw [← BitVec.testBit_toNat, hmask, Nat.testBit_two_pow_sub_one]
    simp
  simp only [BitVec.getLsbD_ushiftRight, BitVec.getLsbD_and, BitVec.getLsbD_not, hbit]
  by_cases hk : k + i < w
  · simp [hk]
  · simp [hk, BitVec.getLsbD_of_ge x (k + i) (Nat.le_of_not_lt hk)]

namespace Geometry

variable (g : Geometry)

theorem block_size_eq : g.block_size.toNat = 2 ^ g.log_block_size := by
  obtain ⟨k, hk⟩ := g.size_power
  rw [log_block_size, hk, Nat.log2_two_pow]

theorem block_mask_eq : g.block_mask.toNat = 2 ^ g.log_block_size - 1 := by
  have hpos := pos_of_isPowerOfTwo g.size_power
  have hlt := g.block_size.isLt
  have hone : (1 : BitVec 32).toNat = 1 := rfl
  rw [block_mask, BitVec.toNat_sub, ← block_size_eq, hone]
  omega

/-- With at most `2 ^ 32` bytes in its sets the sign never reaches the index of a set. -/
theorem setOf_tag (h : g.block_size.toNat * g.num_sets.toNat ≤ 2 ^ 32) (address : BitVec 32) :
    (tagOf g address).sshiftRight g.log_block_size % g.num_sets =
      (address >>> g.log_block_size) % g.num_sets := by
  obtain ⟨n, hn⟩ := g.sets_power
  have hbits : g.log_block_size + n ≤ 32 := by
    apply (Nat.pow_le_pow_iff_right Nat.one_lt_two).mp
    rw [Nat.pow_add, ← block_size_eq, ← hn]
    exact h
  apply BitVec.eq_of_toNat_eq
  rw [BitVec.toNat_umod, BitVec.toNat_umod, hn, sshiftRight_mod hbits, tagOf,
    and_not_mask_shift _ _ g.block_mask_eq]

theorem num_ways_toInt : g.num_ways.toInt.toNat = g.num_ways.toNat := by
  have hways := g.ways_int
  rw [BitVec.toInt_eq_toNat_of_lt (by omega)]
  exact Int.toNat_natCast _

end Geometry

/-- With no entry locked the two lookups agree, up to the set returned for a miss. -/
theorem findBlock_agree (g : Geometry) (h : g.block_size.toNat * g.num_sets.toNat ≤ 2 ^ 32)
    (blocks : Blocks) (locks : Locks) (hlocks : ∀ set way, isEntryLocked locks set way = false)
    (address : BitVec 32) :
    ∃ found, Module.FindBlock g blocks locks .RangeBounds address =
        some (tagOf g address, found) ∧
      found.hit = (Cache.FindBlock g blocks address).hit ∧
      found.way = (Cache.FindBlock g blocks address).way ∧
      found.state = (Cache.FindBlock g blocks address).state ∧
      (found.hit = true → found.set = (Cache.FindBlock g blocks address).set) := by
  simp only [Module.FindBlock, Module.setOf, Cache.FindBlock, Option.bind_eq_bind, Option.bind_some,
    g.setOf_tag h, g.num_ways_toInt, hlocks, Bool.false_eq_true, and_false, or_false]
  split
  · exact ⟨_, rfl, rfl, rfl, rfl, fun _ => rfl⟩
  · exact ⟨_, rfl, rfl, rfl, rfl, fun hhit => by cases hhit⟩

def halves : Geometry where
  num_sets := 2
  num_ways := 2
  block_size := 2 ^ 31
  sets_power := ⟨1, rfl⟩
  ways_power := ⟨1, rfl⟩
  size_power := ⟨31, by decide⟩
  ways_int := by decide

def upperHalf : Blocks := fun set way =>
  if set = 1 ∧ way = 1 then ⟨2 ^ 31, 0, .BlockShared⟩ else ⟨0, 0, .BlockInvalid⟩

theorem findBlock_upperHalf :
    Module.FindBlock halves upperHalf (fun _ _ => 0) .RangeBounds 0xfffffff0 =
        some (2 ^ 31, ⟨true, 1, 1, .BlockShared⟩) ∧
      ∃ found, Module.FindBlock halves upperHalf (fun _ _ => 0) .RangeBounds 0xfffffff0 =
          some (tagOf halves 0xfffffff0, found) ∧
        found.hit = (Cache.FindBlock halves upperHalf 0xfffffff0).hit ∧
        found.way = (Cache.FindBlock halves upperHalf 0xfffffff0).way ∧
        found.state = (Cache.FindBlock halves upperHalf 0xfffffff0).state ∧
        (found.hit = true → found.set = (Cache.FindBlock halves upperHalf 0xfffffff0).set) :=
  ⟨by decide +kernel,
    findBlock_agree halves (by decide) upperHalf (fun _ _ => 0) (fun _ _ => rfl) 0xfffffff0⟩

end MMLMStore.BlockLookup
