import Mathlib

/-!
# Trees given by the parents of their nodes

The parent of a node lies on a higher level, so nothing lies below itself and the subtrees of two
children of a node have nothing in common.
-/
namespace MMLMStore.ParentTrees

open Relation

variable {ι : Type*} {parent : ι → Option ι} {level : ι → ℕ}

/-- The first node is the second one or lies below it. -/
def Below (parent : ι → Option ι) : ι → ι → Prop := ReflTransGen fun x y => parent x = some y

def Leveled (parent : ι → Option ι) (level : ι → ℕ) : Prop :=
  ∀ x y, parent x = some y → level x < level y

theorem Below.refl (x : ι) : Below parent x x := ReflTransGen.refl

theorem Below.trans {x y z : ι} (hxy : Below parent x y) (hyz : Below parent y z) :
    Below parent x z :=
  ReflTransGen.trans hxy hyz

theorem below_of_parent {x y : ι} (h : parent x = some y) : Below parent x y :=
  ReflTransGen.single h

theorem below_iff {x z : ι} :
    Below parent x z ↔ x = z ∨ ∃ y, parent x = some y ∧ Below parent y z := by
  constructor
  · intro h
    rcases ReflTransGen.cases_head h with h | ⟨y, hxy, hyz⟩
    · exact .inl h
    · exact .inr ⟨y, hxy, hyz⟩
  · rintro (rfl | ⟨y, hxy, hyz⟩)
    · exact Below.refl x
    · exact (below_of_parent hxy).trans hyz

theorem Below.level_le (hlevel : Leveled parent level) {x y : ι} (h : Below parent x y) :
    level x ≤ level y := by
  induction h with
  | refl => exact le_rfl
  | tail _ hyz ih => exact ih.trans (hlevel _ _ hyz).le

theorem not_below_child (hlevel : Leveled parent level) {x c : ι} (h : parent c = some x) :
    ¬ Below parent x c := by
  intro hx
  exact absurd (hx.level_le hlevel) (Nat.not_le.mpr (hlevel _ _ h))

theorem ne_of_below_child (hlevel : Leveled parent level) {x c p : ι} (hc : parent c = some p)
    (hx : Below parent x c) : x ≠ p := by
  rintro rfl
  exact not_below_child hlevel hc hx

theorem Below.comparable {x y z : ι} (hy : Below parent x y) (hz : Below parent x z) :
    Below parent y z ∨ Below parent z y := by
  apply ReflTransGen.total_of_right_unique _ hy hz
  intro x y z hxy hxz
  exact Option.some.inj (hxy.symm.trans hxz)

theorem eq_of_below_sibling (hlevel : Leveled parent level) {c d p : ι} (hc : parent c = some p)
    (hd : parent d = some p) (h : Below parent c d) : c = d := by
  rcases below_iff.mp h with h | ⟨y, hcy, hyd⟩
  · exact h
  · rw [hc, Option.some.injEq] at hcy
    exact absurd (hcy ▸ hyd) (not_below_child hlevel hd)

theorem eq_of_below_both (hlevel : Leveled parent level) {c d p x : ι} (hc : parent c = some p)
    (hd : parent d = some p) (hxc : Below parent x c) (hxd : Below parent x d) : c = d := by
  rcases hxc.comparable hxd with h | h
  · exact eq_of_below_sibling hlevel hc hd h
  · exact (eq_of_below_sibling hlevel hd hc h).symm

/-- Of the children of a node outside a subtree, only the root of the subtree lies in it. -/
theorem eq_root_of_child {x c r : ι} (hx : ¬ Below parent x r) (hc : parent c = some x)
    (h : Below parent c r) : c = r := by
  rcases below_iff.mp h with h | ⟨y, hcy, hyr⟩
  · exact h
  · rw [hc, Option.some.injEq] at hcy
    exact absurd (hcy ▸ hyr) hx

theorem exists_child_of_below {x r : ι} (h : Below parent x r) (hne : x ≠ r) :
    ∃ c, parent c = some r ∧ Below parent x c := by
  rcases ReflTransGen.cases_tail h with h | ⟨c, hxc, hcr⟩
  · exact absurd h.symm hne
  · exact ⟨c, hcr, hxc⟩

end MMLMStore.ParentTrees
