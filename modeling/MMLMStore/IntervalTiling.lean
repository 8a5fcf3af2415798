import Mathlib

/-!
# Tilings by intervals

Intervals of natural numbers, each with a value that says how long it is, are kept by their starts.
They tile a set if they are not empty, do not overlap, and cover the set exactly.
-/
namespace MMLMStore.IntervalTiling

open Set

variable {V : Type*}

structure Tiling (size : V → ℕ) (f : ℕ → Option V) (C : Set ℕ) : Prop where
  positive : ∀ a v, f a = some v → 0 < size v
  disjoint : ∀ a v b w, f a = some v → f b = some w → a < b → a + size v ≤ b
  cover : ∀ x, x ∈ C ↔ ∃ a v, f a = some v ∧ x ∈ Ico a (a + size v)

variable {size : V → ℕ} {f : ℕ → Option V} {C : Set ℕ} {a b x : ℕ} {v w : V}

theorem tiling_empty (size : V → ℕ) : Tiling size (fun _ => none) ∅ :=
  ⟨by simp, by simp, by simp⟩

theorem Tiling.subset (h : Tiling size f C) (ha : f a = some v) : Ico a (a + size v) ⊆ C :=
  fun _ hx => (h.cover _).mpr ⟨a, v, ha, hx⟩

theorem Tiling.mem (h : Tiling size f C) (ha : f a = some v) : a ∈ C :=
  h.subset ha ⟨le_rfl, Nat.lt_add_of_pos_right (h.positive a v ha)⟩

/-- No two intervals have a point in common. -/
theorem Tiling.start_eq (h : Tiling size f C) (ha : f a = some v) (hb : f b = some w)
    (hxa : x ∈ Ico a (a + size v)) (hxb : x ∈ Ico b (b + size w)) : a = b := by
  rcases lt_trichotomy a b with hlt | heq | hlt
  · have hle := h.disjoint a v b w ha hb hlt
    exact absurd (hxa.2.trans_le hle) (not_lt.mpr hxb.1)
  · exact heq
  · have hle := h.disjoint b w a v hb ha hlt
    exact absurd (hxb.2.trans_le hle) (not_lt.mpr hxa.1)

theorem Tiling.away (h : Tiling size f C) (ha : f a = some v) (hb : f b = some w) (hba : b ≠ a) :
    b + size w ≤ a ∨ a + size v ≤ b := by
  rcases lt_or_gt_of_ne hba with hlt | hlt
  · exact Or.inl (h.disjoint b w a v hb ha hlt)
  · exact Or.inr (h.disjoint a v b w ha hb hlt)

theorem Tiling.insert (h : Tiling size f C) (hv : 0 < size v)
    (hfree : ∀ x ∈ Ico a (a + size v), x ∉ C) :
    Tiling size (fun b => if b = a then some v else f b) (C ∪ Ico a (a + size v)) := by
  have hnone : f a = none := by
    by_contra hsome
    obtain ⟨w, hw⟩ := Option.ne_none_iff_exists'.mp hsome
    exact hfree a ⟨le_rfl, Nat.lt_add_of_pos_right hv⟩ (h.mem hw)
  -- an old interval does not reach into the new one
  have hold : ∀ b w, f b = some w → b + size w ≤ a ∨ a + size v ≤ b := by
    intro b w hb
    by_contra hno
    have hlt : max a b < b + size w ∧ max a b < a + size v := by
      have hw := h.positive b w hb
      omega
    exact hfree (max a b) ⟨le_max_left a b, hlt.2⟩ (h.subset hb ⟨le_max_right a b, hlt.1⟩)
  refine ⟨fun b w hb => ?_, fun b w c u hb hc hlt => ?_, fun x => ?_⟩
  · by_cases hba : b = a
    · rw [if_pos hba] at hb
      rwa [← Option.some.inj hb]
    · rw [if_neg hba] at hb
      exact h.positive b w hb
  · by_cases hba : b = a
    · rw [if_pos hba] at hb
      rw [if_neg (by omega)] at hc
      have hu := hold c u hc
      rw [← Option.some.inj hb]
      omega
    · rw [if_neg hba] at hb
      by_cases hca : c = a
      · have hw := hold b w hb
        omega
      · rw [if_neg hca] at hc
        exact h.disjoint b w c u hb hc hlt
  · rw [mem_union, h.cover]
    constructor
    · rintro (⟨b, w, hb, hx⟩ | hx)
      · refine ⟨b, w, ?_, hx⟩
        rw [if_neg, hb]
        rintro rfl
        rw [hnone] at hb
        cases hb
      · exact ⟨a, v, if_pos rfl, hx⟩
    · rintro ⟨b, w, hb, hx⟩
      by_cases hba : b = a
      · rw [if_pos hba] at hb
        rw [← Option.some.inj hb, hba] at hx
        exact Or.inr hx
      · rw [if_neg hba] at hb
        exact Or.inl ⟨b, w, hb, hx⟩

theorem Tiling.erase (h : Tiling size f C) (ha : f a = some v) :
    Tiling size (fun b => if b = a then none else f b) (C \ Ico a (a + size v)) := by
  refine ⟨fun b w hb => ?_, fun b w c u hb hc hlt => ?_, fun x => ?_⟩
  · by_cases hba : b = a
    · simp [hba] at hb
    · rw [if_neg hba] at hb
      exact h.positive b w hb
  · by_cases hba : b = a
    · simp [hba] at hb
    · by_cases hca : c = a
      · simp [hca] at hc
      · rw [if_neg hba] at hb
        rw [if_neg hca] at hc
        exact h.disjoint b w c u hb hc hlt
  · rw [mem_sdiff, h.cover]
    constructor
    · rintro ⟨⟨b, w, hb, hx⟩, hno⟩
      refine ⟨b, w, ?_, hx⟩
      rw [if_neg, hb]
      rintro rfl
      obtain rfl := Option.some.inj (ha.symm.trans hb)
      exact hno hx
    · rintro ⟨b, w, hb, hx⟩
      by_cases hba : b = a
      · simp [hba] at hb
      · rw [if_neg hba] at hb
        exact ⟨⟨b, w, hb, hx⟩, fun hxa => hba (h.start_eq hb ha hx hxa)⟩

/-- Between two neighbours there is no gap where the set has none. -/
theorem Tiling.adjacent (h : Tiling size f C) (ha : f a = some v) (hb : f b = some w) (hlt : a < b)
    (hbetween : ∀ c u, f c = some u → a < c → b ≤ c) (hC : ∀ x, a ≤ x → x ≤ b → x ∈ C) :
    a + size v = b := by
  have hle := h.disjoint a v b w ha hb hlt
  by_contra hne
  obtain ⟨c, u, hc, hx⟩ := (h.cover (a + size v)).mp (hC _ (by omega) (by omega))
  rcases lt_trichotomy a c with hac | rfl | hca
  · have hbc := hbetween c u hc hac
    have hxc := hx.1
    omega
  · obtain rfl := Option.some.inj (ha.symm.trans hc)
    exact lt_irrefl _ hx.2
  · have hca' := h.disjoint c u a v hc ha hca
    have hxc := hx.2
    omega

end MMLMStore.IntervalTiling
