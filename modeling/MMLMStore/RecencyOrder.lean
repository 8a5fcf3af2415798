import Mathlib

/-!
# Lists in order of last use

A list whose elements are moved to its head whenever they are used stands in the order of last use,
the most recent first. Elements that were never used stay behind in their first order. The history
lists the uses, the most recent first.
-/
namespace MMLMStore.RecencyOrder

variable {α : Type*} [DecidableEq α] (r : α → α → Prop)

/-- Last used after another element; of two that were never used, the earlier in the first order. -/
def Newer (history : List α) (a b : α) : Prop :=
  history.idxOf a < history.idxOf b ∨ (a ∉ history ∧ b ∉ history ∧ r a b)

variable {r} {history : List α} {l : List α} {a b x : α}

theorem newer_cons_self (hb : b ≠ x) : Newer r (x :: history) x b := by
  left
  rw [List.idxOf_cons_self, List.idxOf_cons_ne _ hb.symm]
  exact Nat.succ_pos _

theorem newer_cons_of_ne (ha : a ≠ x) (hb : b ≠ x) (h : Newer r history a b) :
    Newer r (x :: history) a b := by
  rcases h with hlt | ⟨hna, hnb, hr⟩
  · left
    rw [List.idxOf_cons_ne _ ha.symm, List.idxOf_cons_ne _ hb.symm]
    exact Nat.succ_lt_succ hlt
  · right
    simp [ha, hb, hna, hnb, hr]

def Ordered (r : α → α → Prop) (history : List α) (l : List α) : Prop :=
  l.Pairwise (Newer r history)

theorem ordered_nil_history (h : l.Pairwise r) : Ordered r [] l := by
  refine h.imp fun hr => ?_
  right
  simp [hr]

theorem Ordered.touch (h : Ordered r history l) (hl : l.Nodup) (x : α) :
    Ordered r (x :: history) (x :: l.erase x) := by
  have hne : ∀ a ∈ l.erase x, a ≠ x := fun a ha heq => by
    rw [heq] at ha
    exact hl.not_mem_erase ha
  refine List.pairwise_cons.mpr ⟨fun a ha => newer_cons_self (hne a ha), ?_⟩
  refine List.Pairwise.imp_of_mem ?_ (h.sublist List.erase_sublist)
  intro a b ha hb hab
  exact newer_cons_of_ne (hne a ha) (hne b hb) hab

theorem perm_touch (hx : x ∈ l) : (x :: l.erase x).Perm l := (List.perm_cons_erase hx).symm

/-- The last element is the one all others are newer than. -/
theorem Ordered.newer_last (h : Ordered r history l) (hlast : l.getLast? = some x) (ha : a ∈ l)
    (hne : a ≠ x) : Newer r history a x := by
  obtain ⟨front, rfl⟩ := List.getLast?_eq_some_iff.mp hlast
  have hmem : a ∈ front := by
    rcases List.mem_append.mp ha with hfront | hlast
    · exact hfront
    · exact absurd (List.mem_singleton.mp hlast) hne
  exact (List.pairwise_append.mp h).2.2 a hmem x List.mem_cons_self

end MMLMStore.RecencyOrder
