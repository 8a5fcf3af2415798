import Mathlib

/-!
# Aligned blocks

Blocks of `n` consecutive numbers that start at the multiples of `n`. `blockBase n x` is the start
of the block of `x`; it is unchanged by a shift of whole larger blocks and scales with the unit.
-/
namespace MMLMStore.AlignedBlocks

/-- First number of the block of `n` numbers that contains `x`. -/
def blockBase (n x : ℕ) : ℕ := n * (x / n)

theorem dvd_blockBase (n x : ℕ) : n ∣ blockBase n x := Dvd.intro _ rfl

theorem blockBase_le (n x : ℕ) : blockBase n x ≤ x := Nat.mul_div_le x n

theorem lt_blockBase_add {n : ℕ} (hn : 0 < n) (x : ℕ) : x < blockBase n x + n := by
  have := Nat.lt_mul_div_succ x hn
  rw [Nat.mul_succ] at this
  exact this

/-- The start of a block is the one multiple of `n` at most `n - 1` below the number. -/
theorem eq_blockBase_iff {n : ℕ} (hn : 0 < n) {a x : ℕ} :
    a = blockBase n x ↔ n ∣ a ∧ a ≤ x ∧ x < a + n := by
  constructor
  · intro h
    subst h
    exact ⟨dvd_blockBase n x, blockBase_le n x, lt_blockBase_add hn x⟩
  · intro h
    obtain ⟨⟨q, rfl⟩, hle, hlt⟩ := h
    have hq : x / n = q := by
      apply Nat.div_eq_of_lt_le
      · rw [Nat.mul_comm]
        exact hle
      · rw [Nat.mul_comm, Nat.mul_succ]
        exact hlt
    rw [blockBase, hq]

theorem blockBase_eq_self {n x : ℕ} : blockBase n x = x ↔ n ∣ x := by
  constructor
  · intro h
    rw [← h]
    exact dvd_blockBase n x
  · intro h
    exact Nat.mul_div_cancel' h

/-- Whole blocks in front of a number shift the start of its block. -/
theorem blockBase_add {n a : ℕ} (hn : 0 < n) (ha : n ∣ a) (x : ℕ) :
    blockBase n (a + x) = a + blockBase n x := by
  symm
  apply (eq_blockBase_iff hn).mpr
  have hle := blockBase_le n x
  have hlt := lt_blockBase_add hn x
  exact ⟨Nat.dvd_add ha (dvd_blockBase n x), by omega, by omega⟩

/-- Counting in units of `s`, a block of `s * n` is a block of `n`. -/
theorem blockBase_mul {s : ℕ} (hs : 0 < s) (n x : ℕ) :
    blockBase (s * n) (s * x) = s * blockBase n x := by
  rw [blockBase, Nat.mul_div_mul_left _ _ hs, Nat.mul_assoc, blockBase]

theorem mem_block_iff {n : ℕ} (hn : 0 < n) (x y : ℕ) :
    (blockBase n x ≤ y ∧ y < blockBase n x + n) ↔ blockBase n y = blockBase n x := by
  rw [eq_comm, eq_blockBase_iff hn, and_iff_right (dvd_blockBase n x)]

/-- Of two powers of two the smaller divides the larger. -/
theorem dvd_of_le_of_isPowerOfTwo {a b : ℕ} (ha : a.isPowerOfTwo) (hb : b.isPowerOfTwo)
    (h : a ≤ b) : a ∣ b := by
  obtain ⟨k, rfl⟩ := ha
  obtain ⟨m, rfl⟩ := hb
  exact Nat.pow_dvd_pow 2 ((Nat.pow_le_pow_iff_right Nat.one_lt_two).mp h)

theorem pos_of_isPowerOfTwo {a : ℕ} (ha : a.isPowerOfTwo) : 0 < a := by
  obtain ⟨k, rfl⟩ := ha
  exact Nat.two_pow_pos k

end MMLMStore.AlignedBlocks
