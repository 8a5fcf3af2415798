import MMLMStore.CacheReplacement
import MMLMStore.WriteRequestOwner

/-!
# Who owns a block after a read request

At the end of an up-down read request the target takes the block from its other owners, records the
requesting module as a sharer of the sub-blocks of its block and, if nobody shares them, as their
owner. The end of the module's block is computed in 32 bits.
-/
namespace MMLMStore.ReadRequestOwner
open AlignedBlocks SharerDirectory WriteRequestOwner
open CacheReplacement (BlockState)

variable {g : Geometry}

/-- An up-down read request when all requests that it has made itself are answered. -/
structure ReadRequestFrame (g : Geometry) where
  module : MemModule
  high : module ∈ g.highModules
  address : ℕ
  /-- The address is the base of the requesting module's own block. -/
  aligned : module.blockSize ∣ address
  address_lt : address < 2 ^ 32
  /-- State of the target's block. -/
  state : BlockState
  nc_write : Bool
  shared : Bool
  retain_owner : Bool

namespace ReadRequestFrame

variable (f : ReadRequestFrame g)

def tag : g.BlockTag := tagOf g f.address f.address_lt

/-- The sub-blocks the loops do not skip. -/
def covers (z : ℕ) : Bool :=
  !(decide (g.directoryEntryTag f.tag.val z < f.address) ||
    decide ((f.address + f.module.blockSize) % 2 ^ 32 ≤ g.directoryEntryTag f.tag.val z))

def noExclusive : Bool :=
  f.nc_write || f.shared ||
    decide (f.state = .BlockOwned ∨ f.state = .BlockNonCoherent ∨ f.state = .BlockShared)

def clearOwner (z : ℕ) (d : Directory g) : Directory g :=
  if d.owner z ≠ some f.module.index then d.setOwner z none else d

def addSharer (z : ℕ) (d : Directory g) : Directory g :=
  if f.covers z then d.setSharer z f.module f.high else d

/-- The second loop, with the flag that it folds. -/
def visit (x : Directory g × Bool) (z : ℕ) : Directory g × Bool :=
  if f.covers z then
    let d := x.1.setSharer z f.module f.high
    (d, x.2 || (decide (1 < d.numSharers z) || f.noExclusive))
  else x

def takeOwner (z : ℕ) (d : Directory g) : Directory g :=
  if f.covers z then d.setOwner z (some f.module.index) else d

def cleared (d : Directory g) : Directory g :=
  if f.retain_owner then d
  else (List.range g.numSubBlocks).foldl (fun d z => f.clearOwner z d) d

/-- Event `read_request_updown_finish`: the directory and the flag `shared` of the parent. -/
def readRequestUpdownFinish (d : Directory g) : Directory g × Bool :=
  let x := (List.range g.numSubBlocks).foldl f.visit (f.cleared d, false)
  if x.2 then x
  else ((List.range g.numSubBlocks).foldl (fun d z => f.takeOwner z d) x.1, false)

def InBlock (z : ℕ) : Prop :=
  blockBase f.module.blockSize (g.directoryEntryTag f.tag.val z) = f.address

structure Granted (d : Directory g) : Prop where
  exclusive : (f.readRequestUpdownFinish d).2 = false → f.retain_owner = false →
    ∀ z < g.numSubBlocks, f.InBlock z →
      (f.readRequestUpdownFinish d).1.sharers z f.module.index = true ∧
      (f.readRequestUpdownFinish d).1.owner z = some f.module.index ∧
      ∀ i, (f.readRequestUpdownFinish d).1.sharers z i = true → i = f.module.index
  outside : (f.readRequestUpdownFinish d).2 = false → f.retain_owner = false →
    ∀ z < g.numSubBlocks, ¬f.InBlock z →
      ((f.readRequestUpdownFinish d).1.sharers z f.module.index = true →
        d.sharers z f.module.index = true) ∧
      ((f.readRequestUpdownFinish d).1.owner z = some f.module.index →
        d.owner z = some f.module.index)
  owners : ∀ z < g.numSubBlocks, (f.readRequestUpdownFinish d).1.owner z = none ∨
    (f.readRequestUpdownFinish d).1.owner z = some f.module.index
  sharer : ∀ z < g.numSubBlocks, f.InBlock z →
    (f.readRequestUpdownFinish d).1.sharers z f.module.index = true
  others : ∀ z < g.numSubBlocks, ∀ i ≠ f.module.index,
    (f.readRequestUpdownFinish d).1.sharers z i = d.sharers z i

def Contended (d : Directory g) (z : ℕ) : Prop :=
  ∃ i, i ≠ f.module.index ∧ d.sharers z i = true

/-- The block is not given exclusively: another module shares a sub-block of it, or the request or
the state of the target's block rules it out. -/
def Shares (d : Directory g) : Prop :=
  ∃ z < g.numSubBlocks, f.InBlock z ∧ (f.Contended d z ∨ f.noExclusive = true)

/-- The block does not end at the end of the address space, or the directory has already what the
request is to leave there; and no owner is retained that the request does not take. -/
structure Suits (d : Directory g) : Prop where
  ends : f.address + f.module.blockSize < 2 ^ 32 ∨ ∀ z < g.numSubBlocks, f.InBlock z →
    d.sharers z f.module.index = true ∧
      (f.retain_owner = false → d.owner z = some f.module.index ∧ ¬f.Contended d z)
  retained : f.retain_owner = false ∨ ∀ z < g.numSubBlocks,
    d.owner z = none ∨ d.owner z = some f.module.index ∨
      f.InBlock z ∧ f.address + f.module.blockSize < 2 ^ 32 ∧ ¬f.Shares d

/-! Which sub-blocks are covered. -/

theorem blockSize_pos : 0 < f.module.blockSize :=
  pos_of_isPowerOfTwo (g.high_power f.module f.high)

theorem covers_iff (z : ℕ) : f.covers z = true ↔
    f.address ≤ g.directoryEntryTag f.tag.val z ∧
      g.directoryEntryTag f.tag.val z < (f.address + f.module.blockSize) % 2 ^ 32 := by
  simp only [covers, Bool.not_eq_true', Bool.or_eq_false_iff, decide_eq_false_iff_not, not_lt,
    not_le]

theorem inBlock_iff (z : ℕ) : f.InBlock z ↔
    f.address ≤ g.directoryEntryTag f.tag.val z ∧
      g.directoryEntryTag f.tag.val z < f.address + f.module.blockSize := by
  rw [InBlock, eq_comm, eq_blockBase_iff f.blockSize_pos, and_iff_right f.aligned]

theorem add_blockSize_le : f.address + f.module.blockSize ≤ 2 ^ 32 := by
  obtain ⟨q, hq⟩ := f.aligned
  obtain ⟨r, hr⟩ := dvd_trans (g.high_dvd f.high) g.blockSize_dvd_space
  have hlt := f.address_lt
  rw [hq, hr] at hlt ⊢
  have hqr : q + 1 ≤ r := Nat.lt_of_mul_lt_mul_left hlt
  calc f.module.blockSize * q + f.module.blockSize = f.module.blockSize * (q + 1) :=
        (Nat.mul_succ _ _).symm
    _ ≤ f.module.blockSize * r := Nat.mul_le_mul_left _ hqr

theorem covers_iff_inBlock (z : ℕ) : f.covers z = true ↔
    f.InBlock z ∧ f.address + f.module.blockSize < 2 ^ 32 := by
  have hle := f.add_blockSize_le
  rw [covers_iff, inBlock_iff]
  rcases hle.lt_or_eq with hlt | heq
  · rw [Nat.mod_eq_of_lt hlt]
    exact (and_iff_left hlt).symm
  · rw [heq, Nat.mod_self]
    constructor
    · intro h
      exact absurd h.2 (Nat.not_lt_zero _)
    · intro h
      exact absurd h.2 (lt_irrefl _)

/-! The loops. -/

theorem clearOwner_sameRow (d : Directory g) {z : ℕ} (hz : z < g.numSubBlocks) :
    Directory.SameRow ((List.range g.numSubBlocks).foldl (fun d z => f.clearOwner z d) d)
      (f.clearOwner z d) z := by
  refine Directory.foldl_range_sameRow (fun z d z' hne => ?_) (fun z d d' h => ?_) d hz
  · unfold clearOwner
    split
    · exact Directory.setOwner_other z none d z' hne
    · exact Directory.SameRow.rfl
  · unfold clearOwner
    rw [h.owner]
    split
    · exact Directory.setOwner_own z none d d' h
    · exact h

theorem cleared_sharers (d : Directory g) {z : ℕ} (hz : z < g.numSubBlocks) (i : ℕ) :
    (f.cleared d).sharers z i = d.sharers z i := by
  unfold cleared
  split
  · rfl
  · rw [(f.clearOwner_sameRow d hz).sharers, clearOwner]
    split <;> rfl

theorem cleared_owner (d : Directory g) {z : ℕ} (hz : z < g.numSubBlocks) :
    (f.cleared d).owner z =
      if f.retain_owner = false ∧ d.owner z ≠ some f.module.index then none else d.owner z := by
  unfold cleared
  by_cases hretain : f.retain_owner = true
  · simp [hretain]
  · rw [if_neg hretain, (f.clearOwner_sameRow d hz).owner, clearOwner]
    simp only [Bool.not_eq_true] at hretain
    by_cases howner : d.owner z = some f.module.index
    · simp [howner]
    · simp [howner, hretain]

theorem contended_congr {d d' : Directory g} {z : ℕ}
    (h : ∀ i ≠ f.module.index, d.sharers z i = d'.sharers z i) :
    f.Contended d z ↔ f.Contended d' z :=
  exists_congr fun i => and_congr_right fun hi => by rw [h i hi]

theorem one_lt_numSharers_iff (d : Directory g) (z : ℕ) :
    1 < (d.setSharer z f.module f.high).numSharers z ↔ f.Contended d z := by
  have hlt : ∀ i, d.sharers z i = true → i < g.numNodes := by
    intro i hi
    obtain ⟨h, hh, rfl⟩ := d.sharer_high z i hi
    exact g.index_lt h hh
  have hother : ∀ i, i ≠ f.module.index → (d.setSharer z f.module f.high).sharers z i = true →
      f.Contended d z := by
    intro i hi hbit
    rw [Directory.setSharer_sharers, if_neg fun hc => hi hc.2] at hbit
    exact ⟨i, hi, hbit⟩
  rw [Directory.numSharers_eq, Finset.one_lt_card]
  constructor
  · rintro ⟨a, ha, b, hb, hab⟩
    by_cases hself : a = f.module.index
    · exact hother b (fun hb' => hab (hself.trans hb'.symm)) (Finset.mem_filter.mp hb).2
    · exact hother a hself (Finset.mem_filter.mp ha).2
  · rintro ⟨i, hi, hbit⟩
    refine ⟨i, ?_, f.module.index, ?_, hi⟩
    · rw [Finset.mem_filter, Finset.mem_range]
      exact ⟨hlt i hbit, by simp [hbit]⟩
    · rw [Finset.mem_filter, Finset.mem_range]
      exact ⟨g.index_lt f.module f.high, by simp⟩

/-- The second loop adds the sharers and looks at all sub-blocks as they were. -/
theorem foldl_visit (l : List ℕ) (d : Directory g) (shared : Bool) :
    (l.foldl f.visit (d, shared)).1 = l.foldl (fun d z => f.addSharer z d) d ∧
    ((l.foldl f.visit (d, shared)).2 = true ↔ shared = true ∨
      ∃ z ∈ l, f.covers z = true ∧ (f.Contended d z ∨ f.noExclusive = true)) := by
  induction l generalizing d shared with
  | nil => simp
  | cons a l ih =>
    by_cases hcovers : f.covers a = true
    · have hvisit : f.visit (d, shared) a = (d.setSharer a f.module f.high,
          shared || (decide (1 < (d.setSharer a f.module f.high).numSharers a) ||
            f.noExclusive)) := by
        rw [visit, if_pos hcovers]
      have hadd : f.addSharer a d = d.setSharer a f.module f.high := by
        rw [addSharer, if_pos hcovers]
      have hcontended : ∀ z, f.Contended (d.setSharer a f.module f.high) z ↔ f.Contended d z :=
        fun z => f.contended_congr fun i hi => by simp [hi]
      obtain ⟨hfirst, hsecond⟩ := ih (d.setSharer a f.module f.high) (shared ||
        (decide (1 < (d.setSharer a f.module f.high).numSharers a) || f.noExclusive))
      rw [List.foldl_cons, List.foldl_cons, hvisit, hadd]
      refine ⟨hfirst, hsecond.trans ?_⟩
      simp only [hcontended, Bool.or_eq_true, decide_eq_true_eq, one_lt_numSharers_iff,
        List.exists_mem_cons_iff, hcovers, true_and, or_assoc]
    · have hvisit : f.visit (d, shared) a = (d, shared) := by rw [visit, if_neg hcovers]
      have hadd : f.addSharer a d = d := by rw [addSharer, if_neg hcovers]
      obtain ⟨hfirst, hsecond⟩ := ih d shared
      rw [List.foldl_cons, List.foldl_cons, hvisit, hadd]
      refine ⟨hfirst, hsecond.trans ?_⟩
      simp [hcovers]

/-- The parent learns that the block is shared, unless no sub-block is covered. -/
theorem finish_shared_iff (d : Directory g) : (f.readRequestUpdownFinish d).2 = true ↔
    f.address + f.module.blockSize < 2 ^ 32 ∧ f.Shares d := by
  have hflag : (f.readRequestUpdownFinish d).2 =
      ((List.range g.numSubBlocks).foldl f.visit (f.cleared d, false)).2 := by
    unfold readRequestUpdownFinish
    dsimp only
    split
    · rfl
    · next hshared => rw [Bool.not_eq_true] at hshared; exact hshared.symm
  rw [hflag, (f.foldl_visit _ _ _).2]
  constructor
  · rintro (hfalse | ⟨z, hz, hcovers, hshares⟩)
    · cases hfalse
    · rw [List.mem_range] at hz
      obtain ⟨hin, hlt⟩ := (f.covers_iff_inBlock z).mp hcovers
      rw [f.contended_congr fun i _ => f.cleared_sharers d hz i] at hshares
      exact ⟨hlt, z, hz, hin, hshares⟩
  · rintro ⟨hlt, z, hz, hin, hshares⟩
    rw [← f.contended_congr fun i _ => f.cleared_sharers d hz i] at hshares
    exact Or.inr ⟨z, List.mem_range.mpr hz, (f.covers_iff_inBlock z).mpr ⟨hin, hlt⟩, hshares⟩

theorem addSharer_sameRow (d : Directory g) {z : ℕ} (hz : z < g.numSubBlocks) :
    Directory.SameRow ((List.range g.numSubBlocks).foldl (fun d z => f.addSharer z d) d)
      (f.addSharer z d) z := by
  refine Directory.foldl_range_sameRow (fun z d z' hne => ?_) (fun z d d' h => ?_) d hz
  · unfold addSharer
    split
    · exact Directory.setSharer_other z f.high d z' hne
    · exact Directory.SameRow.rfl
  · unfold addSharer
    split
    · exact Directory.setSharer_own z f.high d d' h
    · exact h

theorem takeOwner_own (z : ℕ) (d d' : Directory g) (h : Directory.SameRow d d' z) :
    Directory.SameRow (f.takeOwner z d) (f.takeOwner z d') z := by
  unfold takeOwner
  split
  · exact Directory.setOwner_own z _ d d' h
  · exact h

theorem takeOwner_sameRow (d : Directory g) {z : ℕ} (hz : z < g.numSubBlocks) :
    Directory.SameRow ((List.range g.numSubBlocks).foldl (fun d z => f.takeOwner z d) d)
      (f.takeOwner z d) z := by
  refine Directory.foldl_range_sameRow (fun z d z' hne => ?_) f.takeOwner_own d hz
  unfold takeOwner
  split
  · exact Directory.setOwner_other z _ d z' hne
  · exact Directory.SameRow.rfl

theorem finish_sameRow (d : Directory g) {z : ℕ} (hz : z < g.numSubBlocks) :
    Directory.SameRow (f.readRequestUpdownFinish d).1
      (if (f.readRequestUpdownFinish d).2 = true then f.addSharer z (f.cleared d)
        else f.takeOwner z (f.addSharer z (f.cleared d))) z := by
  obtain ⟨hfirst, -⟩ := f.foldl_visit (List.range g.numSubBlocks) (f.cleared d) false
  have hadded := f.addSharer_sameRow (f.cleared d) hz
  rw [← hfirst] at hadded
  unfold readRequestUpdownFinish
  dsimp only
  by_cases hshared : ((List.range g.numSubBlocks).foldl f.visit (f.cleared d, false)).2 = true
  · rw [if_pos hshared, if_pos hshared]
    exact hadded
  · rw [if_neg hshared, if_neg Bool.false_ne_true]
    exact (f.takeOwner_sameRow _ hz).trans (f.takeOwner_own z _ _ hadded)

theorem finish_sharers (d : Directory g) {z : ℕ} (hz : z < g.numSubBlocks) (i : ℕ) :
    (f.readRequestUpdownFinish d).1.sharers z i = true ↔
      f.covers z = true ∧ i = f.module.index ∨ d.sharers z i = true := by
  have hadded : (f.addSharer z (f.cleared d)).sharers z i = true ↔
      f.covers z = true ∧ i = f.module.index ∨ d.sharers z i = true := by
    unfold addSharer
    by_cases hcovers : f.covers z = true
    · by_cases hi : i = f.module.index
      · simp [hcovers, hi]
      · simp [hcovers, hi, f.cleared_sharers d hz]
    · simp [hcovers, f.cleared_sharers d hz]
  rw [(f.finish_sameRow d hz).sharers]
  split
  · exact hadded
  · unfold takeOwner
    split <;> exact hadded

theorem finish_owner (d : Directory g) {z : ℕ} (hz : z < g.numSubBlocks) :
    (f.readRequestUpdownFinish d).1.owner z =
      if (f.readRequestUpdownFinish d).2 = false ∧ f.covers z = true then some f.module.index
      else (f.cleared d).owner z := by
  have hadded : (f.addSharer z (f.cleared d)).owner z = (f.cleared d).owner z := by
    unfold addSharer
    split
    · rw [Directory.setSharer_owner]
    · rfl
  rw [(f.finish_sameRow d hz).owner]
  by_cases hshared : (f.readRequestUpdownFinish d).2 = true
  · rw [if_pos hshared, if_neg (by simp [hshared])]
    exact hadded
  · rw [if_neg hshared]
    unfold takeOwner
    by_cases hcovers : f.covers z = true
    · simp [hcovers, hshared]
    · simp [hcovers, hadded]

/-- The last two loops leave a sub-block that they skip. -/
theorem finish_uncovered (d : Directory g) {z : ℕ} (hz : z < g.numSubBlocks)
    (hcovers : ¬f.covers z = true) :
    (∀ i, (f.readRequestUpdownFinish d).1.sharers z i = true ↔ d.sharers z i = true) ∧
      (f.readRequestUpdownFinish d).1.owner z = (f.cleared d).owner z := by
  constructor
  · intro i
    rw [f.finish_sharers d hz]
    exact or_iff_right fun hc => hcovers hc.1
  · rw [f.finish_owner d hz, if_neg fun hc => hcovers hc.2]

theorem not_contended_of_exclusive {d : Directory g}
    (hnot : (f.readRequestUpdownFinish d).2 = false) {z : ℕ} (hz : z < g.numSubBlocks)
    (hcovers : f.covers z = true) : ¬f.Contended d z := by
  intro hcontended
  obtain ⟨hin, hlt⟩ := (f.covers_iff_inBlock z).mp hcovers
  rw [(f.finish_shared_iff d).mpr ⟨hlt, z, hz, hin, Or.inl hcontended⟩] at hnot
  cases hnot

theorem sole_sharer {d : Directory g} {z : ℕ} (hz : z < g.numSubBlocks)
    (hsole : ¬f.Contended d z) {i : ℕ}
    (hi : (f.readRequestUpdownFinish d).1.sharers z i = true) : i = f.module.index := by
  rcases (f.finish_sharers d hz i).mp hi with hself | hbit
  · exact hself.2
  · by_contra hne
    exact hsole ⟨i, hne, hbit⟩

theorem suits_of_granted {d : Directory g} (h : f.Granted d) : f.Suits d := by
  constructor
  · by_cases hlt : f.address + f.module.blockSize < 2 ^ 32
    · exact Or.inl hlt
    · refine Or.inr fun z hz hin => ?_
      have hcovers : ¬f.covers z = true := fun hc => hlt ((f.covers_iff_inBlock z).mp hc).2
      have hnot : (f.readRequestUpdownFinish d).2 = false :=
        Bool.eq_false_iff.mpr fun hs => hlt ((f.finish_shared_iff d).mp hs).1
      obtain ⟨hkept, howned⟩ := f.finish_uncovered d hz hcovers
      refine ⟨(hkept _).mp (h.sharer z hz hin), fun hretain => ?_⟩
      obtain ⟨-, howner, hsole⟩ := h.exclusive hnot hretain z hz hin
      rw [howned, f.cleared_owner d hz] at howner
      split_ifs at howner with hother
      exact ⟨howner, fun ⟨i, hi, hbit⟩ => hi (hsole i ((hkept i).mpr hbit))⟩
  · by_cases hretain : f.retain_owner = false
    · exact Or.inl hretain
    · refine Or.inr fun z hz => ?_
      have hcleared : (f.cleared d).owner z = d.owner z := by
        rw [f.cleared_owner d hz, if_neg fun hc => hretain hc.1]
      have howner := h.owners z hz
      rw [f.finish_owner d hz, hcleared] at howner
      split_ifs at howner with htaken
      · obtain ⟨hin, hlt⟩ := (f.covers_iff_inBlock z).mp htaken.2
        have hnot : ¬f.Shares d := by
          intro hshares
          rw [(f.finish_shared_iff d).mpr ⟨hlt, hshares⟩] at htaken
          cases htaken.1
        exact Or.inr (Or.inr ⟨hin, hlt, hnot⟩)
      · rcases howner with hnone | hself
        · exact Or.inl hnone
        · exact Or.inr (Or.inl hself)

theorem granted_of_suits {d : Directory g} (h : f.Suits d) : f.Granted d := by
  have hend : ∀ z < g.numSubBlocks, f.InBlock z → ¬f.covers z = true →
      d.sharers z f.module.index = true ∧
        (f.retain_owner = false → d.owner z = some f.module.index ∧ ¬f.Contended d z) := by
    intro z hz hin hcovers
    rcases h.ends with hlt | hheld
    · exact absurd ((f.covers_iff_inBlock z).mpr ⟨hin, hlt⟩) hcovers
    · exact hheld z hz hin
  constructor
  · intro hnot hretain z hz hin
    by_cases hcovers : f.covers z = true
    · refine ⟨(f.finish_sharers d hz _).mpr (Or.inl ⟨hcovers, rfl⟩), ?_, fun i hi => ?_⟩
      · rw [f.finish_owner d hz, if_pos ⟨hnot, hcovers⟩]
      · exact f.sole_sharer hz (f.not_contended_of_exclusive hnot hz hcovers) hi
    · obtain ⟨hkept, howned⟩ := f.finish_uncovered d hz hcovers
      obtain ⟨hbit, hheld⟩ := hend z hz hin hcovers
      obtain ⟨howner, hsole⟩ := hheld hretain
      refine ⟨(hkept _).mpr hbit, ?_, fun i hi => f.sole_sharer hz hsole hi⟩
      rw [howned, f.cleared_owner d hz, if_neg fun hc => hc.2 howner]
      exact howner
  · intro _ _ z hz hout
    have hcovers : ¬f.covers z = true := fun hc => hout ((f.covers_iff_inBlock z).mp hc).1
    obtain ⟨hkept, howned⟩ := f.finish_uncovered d hz hcovers
    refine ⟨(hkept _).mp, fun howner => ?_⟩
    rw [howned, f.cleared_owner d hz] at howner
    split_ifs at howner
    exact howner
  · intro z hz
    rw [f.finish_owner d hz, f.cleared_owner d hz]
    split_ifs with htaken hcleared
    · exact Or.inr rfl
    · exact Or.inl rfl
    · rcases h.retained with hretain | hleft
      · exact Or.inr (not_not.mp fun hne => hcleared ⟨hretain, hne⟩)
      · rcases hleft z hz with hnone | hself | ⟨hin, hlt, hnot⟩
        · exact Or.inl hnone
        · exact Or.inr hself
        · refine absurd ⟨Bool.eq_false_iff.mpr fun hs => ?_, ?_⟩ htaken
          · exact hnot ((f.finish_shared_iff d).mp hs).2
          · exact (f.covers_iff_inBlock z).mpr ⟨hin, hlt⟩
  · intro z hz hin
    rw [f.finish_sharers d hz]
    by_cases hcovers : f.covers z = true
    · exact Or.inl ⟨hcovers, rfl⟩
    · exact Or.inr (hend z hz hin hcovers).1
  · intro z hz i hi
    rw [Bool.eq_iff_iff, f.finish_sharers d hz]
    exact or_iff_right fun hc => hi hc.2

end ReadRequestFrame

/-- The end of a read request leaves the directory as it should be exactly when the module's block
does not end at the end of the address space, or the directory was so before, and no other owner is
retained. -/
theorem granted_iff (f : ReadRequestFrame g) (d : Directory g) : f.Granted d ↔ f.Suits d :=
  ⟨f.suits_of_granted, f.granted_of_suits⟩

/-- A load of the last block of the address space, which no module has. -/
def loadOfLast : ReadRequestFrame halfBlocks where
  module := ⟨"l1-data", .Cache, 64, 64, 0⟩
  high := dataCache_high
  address := 0xffffffc0
  aligned := by norm_num
  address_lt := by norm_num
  state := .BlockExclusive
  nc_write := false
  shared := false
  retain_owner := false

/-- The end of the block wraps to zero, and the cache is not recorded. -/
theorem granted_fails : ¬∀ (g : Geometry) (f : ReadRequestFrame g) (d : Directory g),
    f.Granted d := by
  intro hall
  have hin : loadOfLast.InBlock 0 := by
    unfold ReadRequestFrame.InBlock
    decide +kernel
  have hset := (hall halfBlocks loadOfLast unshared).sharer 0 (by decide +kernel) hin
  have hclear : (loadOfLast.readRequestUpdownFinish unshared).1.sharers 0 0 = false := by
    decide +kernel
  have hset' : (loadOfLast.readRequestUpdownFinish unshared).1.sharers 0 0 = true := hset
  rw [hclear] at hset'
  cases hset'

end MMLMStore.ReadRequestOwner
