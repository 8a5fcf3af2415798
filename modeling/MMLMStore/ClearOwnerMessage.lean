import MMLMStore.WriteRequestOwner

/-!
# The message that clears an owner

A non-coherent store to an exclusive block has the module below clear it as the owner. The loop that
looks for the sub-blocks runs over the size of the whole directory, in steps of the number of
sub-blocks.
-/
namespace MMLMStore.ClearOwnerMessage
open AlignedBlocks SharerDirectory WriteRequestOwner

variable {g : Geometry}

/-- The message at its target, where the block is found and locked. -/
structure MessageFrame (g : Geometry) where
  module : MemModule
  high : module ∈ g.highModules
  address : ℕ
  /-- The address is the base of the requesting module's own block. -/
  aligned : module.blockSize ∣ address
  address_lt : address < 2 ^ 32
  /-- Sets times ways of the target's directory. -/
  directorySize : ℕ

def asInt (a : ℕ) : ℤ := if a < 2 ^ 31 then a else a - 2 ^ 32

namespace MessageFrame

variable (f : MessageFrame g)

def tag : g.BlockTag := tagOf g f.address f.address_lt

/-- The test of the loop, on values of type `int`. -/
def Selects (z : ℕ) : Prop := asInt f.address = asInt f.tag.val + z * g.numSubBlocks

instance (z : ℕ) : Decidable (f.Selects z) := inferInstanceAs (Decidable (_ = _))

/-- The body of the loop; no result where `getEntry` fails its assertion. -/
def clearEntry (d : Directory g) (z : ℕ) : Option (Directory g) :=
  if f.Selects z then if z < g.numSubBlocks then some (d.setOwner z none) else none else some d

/-- Event `message_action` of a `MessageClearOwner`, without a lock error. -/
def messageAction (d : Directory g) : Option (Directory g) :=
  (List.range f.directorySize).foldlM f.clearEntry d

def InBlock (z : ℕ) : Prop :=
  blockBase f.module.blockSize (g.directoryEntryTag f.tag.val z) = f.address

/-- The owners of the sub-blocks of the module's block are cleared, and no others. -/
def Clears (d : Directory g) : Prop :=
  ∃ d', f.messageAction d = some d' ∧ ∀ z < g.numSubBlocks,
    (f.InBlock z → d'.owner z = none) ∧ (¬f.InBlock z → d'.owner z = d.owner z)

def offset : ℕ := f.address - f.tag.val

/-- The offset is that many times the number of sub-blocks, and the loop goes so far. -/
def Hits (z : ℕ) : Prop := z < f.directorySize ∧ z * g.numSubBlocks = f.offset

instance (z : ℕ) : Decidable (f.Hits z) := inferInstanceAs (Decidable (_ ∧ _))

/-- A sub-block that is hit belongs to the entry, and of the sub-blocks that have an owner those of
the module's block are hit. -/
structure Suits (d : Directory g) : Prop where
  inEntry : ∀ z, f.Hits z → z < g.numSubBlocks
  owned : ∀ z < g.numSubBlocks, d.owner z ≠ none → (f.InBlock z ↔ f.Hits z)

/-! The test. -/

theorem tag_le : f.tag.val ≤ f.address := blockBase_le _ _

theorem asInt_address : asInt f.address = asInt f.tag.val + (f.offset : ℤ) := by
  have hB := pos_of_isPowerOfTwo g.blockSize_power
  have hle := f.tag_le
  have hlt : f.address < f.tag.val + g.blockSize := lt_blockBase_add hB f.address
  -- the target's block lies on one side of the sign bit
  obtain ⟨q, hq⟩ := f.tag.aligned
  obtain ⟨r, hr⟩ : g.blockSize ∣ 2 ^ 31 :=
    dvd_of_le_of_isPowerOfTwo g.blockSize_power ⟨31, rfl⟩ g.blockSize_int.le
  have hside : f.tag.val < 2 ^ 31 → f.address < 2 ^ 31 := by
    intro hlow
    rw [hq, hr] at hlow
    have hqr : q + 1 ≤ r := Nat.lt_of_mul_lt_mul_left hlow
    have hend := Nat.mul_le_mul_left g.blockSize hqr
    rw [Nat.mul_succ, ← hq, ← hr] at hend
    omega
  unfold asInt offset
  split_ifs <;> omega

theorem selects_iff (z : ℕ) : f.Selects z ↔ z * g.numSubBlocks = f.offset := by
  rw [Selects, f.asInt_address]
  constructor
  · intro h
    have hz : ((z * g.numSubBlocks : ℕ) : ℤ) = (f.offset : ℤ) := by
      push_cast
      omega
    exact_mod_cast hz
  · intro h
    rw [← h]
    push_cast
    rfl

theorem foldlM_clearEntry (l : List ℕ) (d : Directory g) :
    l.foldlM f.clearEntry d =
      if ∀ z ∈ l, f.Selects z → z < g.numSubBlocks then
        some (l.foldl (fun d z => if f.Selects z then d.setOwner z none else d) d)
      else none := by
  induction l generalizing d with
  | nil => simp
  | cons a l ih =>
    rw [List.foldlM_cons, List.foldl_cons]
    by_cases hselects : f.Selects a
    · by_cases hlt : a < g.numSubBlocks
      · simp [clearEntry, hselects, hlt, ih]
      · simp [clearEntry, hselects, hlt]
    · simp [clearEntry, hselects, ih]

theorem clearOwner_sameRow (d : Directory g) (l : List ℕ) (hl : l.Nodup) (z : ℕ) :
    (l.foldl (fun d z => if f.Selects z then d.setOwner z none else d) d).owner z =
      if z ∈ l ∧ f.Selects z then none else d.owner z := by
  have hrow := Directory.foldl_sameRow (fun z d => if f.Selects z then d.setOwner z none else d)
    (fun z d z' hne => by
      split
      · exact Directory.setOwner_other z none d z' hne
      · exact Directory.SameRow.rfl)
    (fun z d d' h => by
      split
      · exact Directory.setOwner_own z none d d' h
      · exact h)
    l hl d z
  rw [hrow.owner]
  by_cases hmem : z ∈ l
  · by_cases hselects : f.Selects z
    · simp [hmem, hselects]
    · simp [hmem, hselects]
  · simp [hmem]

theorem messageAction_eq_some_iff (d d' : Directory g) : f.messageAction d = some d' ↔
    (∀ z, f.Hits z → z < g.numSubBlocks) ∧ d' = (List.range f.directorySize).foldl
      (fun d z => if f.Selects z then d.setOwner z none else d) d := by
  have hall : (∀ z ∈ List.range f.directorySize, f.Selects z → z < g.numSubBlocks) ↔
      ∀ z, f.Hits z → z < g.numSubBlocks := by
    simp only [List.mem_range, f.selects_iff, Hits, and_imp]
  rw [messageAction, foldlM_clearEntry, ← hall]
  split_ifs with hin
  · rw [Option.some.injEq, and_iff_right hin, eq_comm]
  · exact iff_of_false nofun fun h => hin h.1

theorem cleared_owner (d : Directory g) (z : ℕ) : ((List.range f.directorySize).foldl
    (fun d z => if f.Selects z then d.setOwner z none else d) d).owner z =
      if f.Hits z then none else d.owner z := by
  rw [f.clearOwner_sameRow d _ List.nodup_range z]
  exact if_congr (and_congr List.mem_range (f.selects_iff z)) rfl rfl

/-! Geometries for which the loop is right. -/

theorem offset_eq : ∃ z < g.numSubBlocks, f.offset = g.subBlockSize * z := by
  have hB := pos_of_isPowerOfTwo g.blockSize_power
  have hlt : f.address < f.tag.val + g.blockSize := lt_blockBase_add hB f.address
  obtain ⟨z, hz⟩ : g.subBlockSize ∣ f.offset := Nat.dvd_sub
    (dvd_trans (g.subBlockSize_dvd_high f.high) f.aligned)
    (dvd_trans g.subBlockSize_dvd f.tag.aligned)
  refine ⟨z, ?_, hz⟩
  have hoffset : g.subBlockSize * z < g.subBlockSize * g.numSubBlocks := by
    rw [← hz, g.subBlockSize_mul, offset]
    have := f.tag_le
    omega
  exact Nat.lt_of_mul_lt_mul_left hoffset

theorem inBlock_iff {z : ℕ} (hz : z < g.numSubBlocks) : f.InBlock z ↔
    f.offset ≤ g.subBlockSize * z ∧ g.subBlockSize * z < f.offset + f.module.blockSize := by
  have hpos : 0 < f.module.blockSize := pos_of_isPowerOfTwo (g.high_power f.module f.high)
  have hle := f.tag_le
  rw [InBlock, eq_comm, eq_blockBase_iff hpos, and_iff_right f.aligned,
    Geometry.directoryEntryTag_eq f.tag hz, offset]
  omega

theorem inBlock_next {z₀ : ℕ} (hlt : z₀ < g.numSubBlocks) (hoffset : f.offset = g.subBlockSize * z₀)
    (hne : f.module.blockSize ≠ g.subBlockSize) :
    z₀ + 1 < g.numSubBlocks ∧ f.InBlock (z₀ + 1) := by
  have hpos := g.subBlockSize_pos
  have hblock := pos_of_isPowerOfTwo (g.high_power f.module f.high)
  have hlarge : g.subBlockSize * 2 ≤ f.module.blockSize := by
    obtain ⟨k, hk⟩ := g.subBlockSize_dvd_high f.high
    have htwo : 2 ≤ k := by
      rcases k with _ | _ | k
      · omega
      · omega
      · omega
    rw [hk]
    exact Nat.mul_le_mul_left g.subBlockSize htwo
  -- the module's block ends where the target's block does, or before
  obtain ⟨q, hq⟩ : f.module.blockSize ∣ f.offset := Nat.dvd_sub f.aligned
    (dvd_trans (g.high_dvd f.high) f.tag.aligned)
  obtain ⟨r, hr⟩ := g.high_dvd f.high
  have hend : f.offset + f.module.blockSize ≤ g.blockSize := by
    have hoff : f.module.blockSize * q < f.module.blockSize * r := by
      rw [← hq, ← hr, hoffset, ← g.subBlockSize_mul]
      exact Nat.mul_lt_mul_of_pos_left hlt hpos
    have hqr := Nat.mul_le_mul_left f.module.blockSize
      (Nat.succ_le_of_lt (Nat.lt_of_mul_lt_mul_left hoff))
    rwa [Nat.mul_succ, ← hq, ← hr] at hqr
  have hnext : z₀ + 1 < g.numSubBlocks := by
    have hfits : g.subBlockSize * (z₀ + 1) < g.subBlockSize * g.numSubBlocks := by
      rw [g.subBlockSize_mul, Nat.mul_succ, ← hoffset]
      omega
    exact Nat.lt_of_mul_lt_mul_left hfits
  refine ⟨hnext, ?_⟩
  rw [f.inBlock_iff hnext, hoffset, Nat.mul_succ]
  omega

theorem inBlock_iff_eq {z z₀ : ℕ} (hz : z < g.numSubBlocks)
    (hoffset : f.offset = g.subBlockSize * z₀) (hsingle : f.module.blockSize = g.subBlockSize) :
    f.InBlock z ↔ z = z₀ := by
  have hpos := g.subBlockSize_pos
  rw [f.inBlock_iff hz, hsingle, hoffset, ← Nat.mul_succ, Nat.mul_le_mul_left_iff hpos,
    Nat.mul_lt_mul_left hpos]
  omega

/-- The step of the loop finds a block at the start of the entry, and any block when the entry has
as many sub-blocks as each of them has bytes. -/
theorem hits_iff_eq {z₀ : ℕ} (hsize : 0 < f.directorySize)
    (hoffset : f.offset = g.subBlockSize * z₀)
    (hwhere : f.offset = 0 ∨
      g.numSubBlocks = g.subBlockSize ∧ f.offset < g.subBlockSize * f.directorySize)
    (hentry : 0 < g.numSubBlocks) (z : ℕ) : f.Hits z ↔ z = z₀ := by
  have hpos := g.subBlockSize_pos
  rw [Hits, hoffset]
  rcases hwhere with hzero | ⟨hsame, hdir⟩
  · rw [hoffset, Nat.mul_eq_zero] at hzero
    obtain rfl : z₀ = 0 := hzero.resolve_left hpos.ne'
    rw [Nat.mul_zero, Nat.mul_eq_zero]
    constructor
    · intro h
      exact h.2.resolve_right hentry.ne'
    · rintro rfl
      exact ⟨hsize, Or.inl rfl⟩
  · rw [hoffset] at hdir
    have hz₀ : z₀ < f.directorySize := Nat.lt_of_mul_lt_mul_left hdir
    rw [hsame, Nat.mul_comm z]
    constructor
    · intro h
      exact Nat.eq_of_mul_eq_mul_left hpos h.2
    · rintro rfl
      exact ⟨hz₀, rfl⟩

/-- When all sub-blocks have owners, the block has to be one sub-block, at the start of the entry or
of an entry with as many sub-blocks as each of them has bytes. -/
theorem suits_owned_iff (hsize : 0 < f.directorySize) {d : Directory g}
    (howned : ∀ z < g.numSubBlocks, d.owner z ≠ none) : f.Suits d ↔
      f.module.blockSize = g.subBlockSize ∧ (f.offset = 0 ∨
        g.numSubBlocks = g.subBlockSize ∧ f.offset < g.subBlockSize * f.directorySize) := by
  obtain ⟨z₀, hlt, hoffset⟩ := f.offset_eq
  constructor
  · intro h
    have hblock : f.InBlock z₀ := by
      rw [f.inBlock_iff hlt, hoffset]
      have := pos_of_isPowerOfTwo (g.high_power f.module f.high)
      omega
    obtain ⟨hdir, hhit⟩ := (h.owned z₀ hlt (howned z₀ hlt)).mp hblock
    have hsingle : f.module.blockSize = g.subBlockSize := by
      by_contra hne
      -- the sub-block after the first would be hit as well
      obtain ⟨hnext, hinside⟩ := f.inBlock_next hlt hoffset hne
      obtain ⟨-, hhit'⟩ := (h.owned _ hnext (howned _ hnext)).mp hinside
      rw [← hhit, Nat.succ_mul] at hhit'
      omega
    refine ⟨hsingle, ?_⟩
    rcases Nat.eq_zero_or_pos z₀ with rfl | hz₀
    · exact Or.inl hoffset
    · rw [hoffset, Nat.mul_comm z₀] at hhit
      refine Or.inr ⟨Nat.eq_of_mul_eq_mul_right hz₀ hhit, ?_⟩
      rw [hoffset]
      exact Nat.mul_lt_mul_of_pos_left hdir g.subBlockSize_pos
  · rintro ⟨hsingle, hwhere⟩
    have hhits := f.hits_iff_eq hsize hoffset hwhere (Nat.zero_lt_of_lt hlt)
    refine ⟨fun z hz => ?_, fun z hz _ => ?_⟩
    · rwa [(hhits z).mp hz]
    · rw [f.inBlock_iff_eq hz hoffset hsingle, hhits z]

end MessageFrame

/-- The message clears the owner of the module's block, and that only, exactly when the sub-blocks
that the loop hits are the owned ones of the block. -/
theorem clears_iff (f : MessageFrame g) (d : Directory g) : f.Clears d ↔ f.Suits d := by
  constructor
  · rintro ⟨d', haction, hclears⟩
    obtain ⟨hin, rfl⟩ := (f.messageAction_eq_some_iff d d').mp haction
    refine ⟨hin, fun z hz howned => ?_⟩
    have hz' := hclears z hz
    rw [f.cleared_owner d z] at hz'
    constructor
    · intro hblock
      by_contra hmiss
      rw [if_neg hmiss] at hz'
      exact howned (hz'.1 hblock)
    · intro hhit
      by_contra hout
      rw [if_pos hhit] at hz'
      exact howned (hz'.2 hout).symm
  · intro h
    refine ⟨_, (f.messageAction_eq_some_iff d _).mpr ⟨h.inEntry, rfl⟩, fun z hz => ?_⟩
    rw [f.cleared_owner d z]
    by_cases howned : d.owner z = none
    · rw [howned, ite_self]
      exact ⟨fun _ => rfl, fun _ => rfl⟩
    · have hsame := h.owned z hz howned
      constructor
      · intro hblock
        rw [if_pos (hsame.mp hblock)]
      · intro hout
        rw [if_neg fun hhit => hout (hsame.mpr hhit)]

/-- The message of the cache with the large blocks, which owns both halves of the block. -/
def largeOwner : MessageFrame halfBlocks where
  module := ⟨"l1-data", .Cache, 64, 64, 0⟩
  high := dataCache_high
  address := 0xc0
  aligned := by norm_num
  address_lt := by norm_num
  directorySize := 16

def ownedByLarge : Directory halfBlocks := (unshared.setOwner 0 (some 0)).setOwner 1 (some 0)

/-- The second half of the block keeps its owner. -/
theorem clears_fails : ¬∀ (g : Geometry) (f : MessageFrame g) (d : Directory g), f.Clears d := by
  intro hall
  obtain ⟨d', haction, hclears⟩ := hall halfBlocks largeOwner ownedByLarge
  have hin : largeOwner.InBlock 1 := by
    unfold MessageFrame.InBlock
    decide +kernel
  have hnone := (hclears 1 (by decide +kernel)).1 hin
  obtain ⟨-, rfl⟩ := (largeOwner.messageAction_eq_some_iff _ _).mp haction
  rw [largeOwner.cleared_owner] at hnone
  revert hnone
  decide +kernel

end MMLMStore.ClearOwnerMessage
