import Mathlib

/-!
# Placement of aligned items

Items placed one after the other from a cursor on, each at the next multiple of its alignment. The
cursor ends where it started plus the sizes of the items and the gaps before them.
-/
namespace MMLMStore.AlignedPlacement

/-- Next multiple of `a` from `n` on; alignment zero asks for nothing. -/
def alignUp (a n : ℕ) : ℕ := n + (a - n % a) % a

theorem le_alignUp (a n : ℕ) : n ≤ alignUp a n := Nat.le_add_right _ _

theorem alignUp_of_dvd {a n : ℕ} (h : a ∣ n) : alignUp a n = n := by
  rw [alignUp, Nat.mod_eq_zero_of_dvd h, Nat.sub_zero, Nat.mod_self, Nat.add_zero]

theorem dvd_alignUp {a : ℕ} (ha : 0 < a) (n : ℕ) : a ∣ alignUp a n := by
  have hsum : a * (n / a) + n % a = n := Nat.div_add_mod n a
  have hlt := Nat.mod_lt n ha
  rw [alignUp]
  rcases Nat.eq_zero_or_pos (n % a) with hzero | hpos
  · rw [hzero, Nat.sub_zero, Nat.mod_self, Nat.add_zero]
    exact Nat.dvd_of_mod_eq_zero hzero
  · rw [Nat.mod_eq_of_lt (by omega)]
    exact ⟨n / a + 1, by rw [Nat.mul_succ]; omega⟩

structure Layout (α : Type*) where
  size : α → ℕ
  alignment : α → ℕ

namespace Layout

variable {α β : Type*} (L : Layout α)

def finish : ℕ → List α → ℕ
  | c, [] => c
  | c, x :: xs => finish (alignUp (L.alignment x) c + L.size x) xs

def gaps : ℕ → List α → ℕ
  | _, [] => 0
  | c, x :: xs =>
    (alignUp (L.alignment x) c - c) + gaps (alignUp (L.alignment x) c + L.size x) xs

theorem finish_eq (c : ℕ) (xs : List α) :
    L.finish c xs = c + (L.gaps c xs + (xs.map L.size).sum) := by
  induction xs generalizing c with
  | nil => rfl
  | cons x xs ih =>
    have hle := le_alignUp (L.alignment x) c
    rw [finish, gaps, ih, List.map_cons, List.sum_cons]
    omega

theorem le_finish (c : ℕ) (xs : List α) : c ≤ L.finish c xs := by
  rw [finish_eq]
  exact Nat.le_add_right _ _

theorem finish_append (c : ℕ) (xs ys : List α) :
    L.finish c (xs ++ ys) = L.finish (L.finish c xs) ys := by
  induction xs generalizing c with
  | nil => rfl
  | cons x xs ih => exact ih _

/-- Items as large as their common alignment leave no gaps after the first. -/
theorem alignUp_finish_uniform {n : ℕ} (hn : 0 < n) {xs : List α}
    (hxs : ∀ x ∈ xs, L.size x = n ∧ L.alignment x = n) (c : ℕ) :
    alignUp n (L.finish c xs) = alignUp n c + n * xs.length := by
  induction xs generalizing c with
  | nil => rfl
  | cons x xs ih =>
    obtain ⟨hsize, halignment⟩ := hxs x List.mem_cons_self
    have hdvd : n ∣ alignUp n c + n := Nat.dvd_add_self_right.mpr (dvd_alignUp hn c)
    rw [finish, hsize, halignment, ih (List.forall_mem_of_forall_mem_cons hxs),
      alignUp_of_dvd hdvd, List.length_cons]
    ring

/-! Addresses. -/

/-- Address of an item of a list that is placed from a cursor on. -/
def IsPlaced (c : ℕ) (xs : List α) (x : α) (address : ℕ) : Prop :=
  ∃ before after, xs = before ++ x :: after ∧
    address = alignUp (L.alignment x) (L.finish c before)

theorem IsPlaced.mem {L : Layout α} {c address : ℕ} {xs : List α} {x : α}
    (h : L.IsPlaced c xs x address) : x ∈ xs := by
  obtain ⟨before, after, rfl, -⟩ := h
  simp

theorem isPlaced_cons_iff {c : ℕ} {y : α} {xs : List α} {x : α} {address : ℕ} :
    L.IsPlaced c (y :: xs) x address ↔
      (x = y ∧ address = alignUp (L.alignment y) c) ∨
        L.IsPlaced (alignUp (L.alignment y) c + L.size y) xs x address := by
  constructor
  · rintro ⟨before, after, heq, rfl⟩
    cases before with
    | nil =>
      obtain ⟨rfl, -⟩ := List.cons.inj heq
      exact Or.inl ⟨rfl, rfl⟩
    | cons z before =>
      rw [List.cons_append] at heq
      obtain ⟨rfl, rfl⟩ := List.cons.inj heq
      exact Or.inr ⟨before, after, rfl, rfl⟩
  · rintro (⟨rfl, rfl⟩ | ⟨before, after, rfl, rfl⟩)
    · exact ⟨[], xs, rfl, rfl⟩
    · exact ⟨y :: before, after, rfl, rfl⟩

theorem isPlaced_append_iff {c : ℕ} {xs ys : List α} {x : α} {address : ℕ} :
    L.IsPlaced c (xs ++ ys) x address ↔
      L.IsPlaced c xs x address ∨ L.IsPlaced (L.finish c xs) ys x address := by
  induction xs generalizing c with
  | nil =>
    have hnil : ¬ L.IsPlaced c [] x address := fun h => List.not_mem_nil h.mem
    simp [hnil, finish]
  | cons y xs ih =>
    rw [List.cons_append, isPlaced_cons_iff, ih, isPlaced_cons_iff, finish, or_assoc]

theorem isPlaced_middle_iff {c : ℕ} {xs ys zs : List α} {x : α} (hxs : x ∉ xs) (hzs : x ∉ zs)
    (address : ℕ) :
    L.IsPlaced c (xs ++ ys ++ zs) x address ↔ L.IsPlaced (L.finish c xs) ys x address := by
  rw [isPlaced_append_iff, isPlaced_append_iff]
  constructor
  · rintro ((h | h) | h)
    · exact absurd h.mem hxs
    · exact h
    · exact absurd h.mem hzs
  · intro h
    exact Or.inl (Or.inr h)

theorem isPlaced_iff {c : ℕ} {before after : List α} {x : α} (hbefore : x ∉ before)
    (hafter : x ∉ after) (address : ℕ) : L.IsPlaced c (before ++ x :: after) x address ↔
      address = alignUp (L.alignment x) (L.finish c before) := by
  have hmiddle : L.IsPlaced c (before ++ [x] ++ after) x address ↔
      L.IsPlaced (L.finish c before) [x] x address := L.isPlaced_middle_iff hbefore hafter address
  have hnil : ∀ c, ¬ L.IsPlaced c [] x address := fun c h => List.not_mem_nil h.mem
  rw [List.append_assoc, List.singleton_append] at hmiddle
  rw [hmiddle, isPlaced_cons_iff]
  simp [hnil]

/-- Items up to the last that takes any space. -/
def occupying (xs : List α) : List α := xs.rdropWhile fun x => L.size x = 0

def Below (c : ℕ) (xs : List α) (bound : ℕ) : Prop :=
  ∀ x address, L.IsPlaced c xs x address →
    ∀ b, address ≤ b → b < address + L.size x → b < bound

theorem finish_concat (c : ℕ) (xs : List α) (x : α) :
    L.finish c (xs ++ [x]) = alignUp (L.alignment x) (L.finish c xs) + L.size x := by
  rw [finish_append]
  rfl

theorem below_concat (c : ℕ) (xs : List α) (x : α) (bound : ℕ) : L.Below c (xs ++ [x]) bound ↔
    L.Below c xs bound ∧ (L.size x ≠ 0 → L.finish c (xs ++ [x]) ≤ bound) := by
  rw [finish_concat]
  constructor
  · intro h
    refine ⟨fun y address hy => h y address (L.isPlaced_append_iff.mpr (Or.inl hy)),
      fun hsize => ?_⟩
    have hlast := h x _ ⟨xs, [], rfl, rfl⟩ (alignUp (L.alignment x) (L.finish c xs) + L.size x - 1)
    omega
  · rintro ⟨hxs, hlast⟩ y address hy b hle hlt
    rcases L.isPlaced_append_iff.mp hy with hy | hy
    · exact hxs y address hy b hle hlt
    · rcases L.isPlaced_cons_iff.mp hy with ⟨rfl, rfl⟩ | hnil
      · have := hlast (by omega)
        omega
      · exact absurd hnil.mem List.not_mem_nil

/-- Only the last item that takes any space has to end below the bound. -/
theorem below_iff (c : ℕ) (xs : List α) (bound : ℕ) : L.Below c xs bound ↔
    (L.occupying xs ≠ [] → L.finish c (L.occupying xs) ≤ bound) := by
  induction xs using List.reverseRecOn with
  | nil =>
    have hnil : L.Below c [] bound := fun x address h => absurd h.mem List.not_mem_nil
    simp [hnil, occupying]
  | append_singleton xs x ih =>
    rw [below_concat, ih, occupying, occupying, List.rdropWhile_concat]
    by_cases hsize : L.size x = 0
    · simp [hsize]
    · simp only [hsize, decide_false, Bool.false_eq_true, if_false, ne_eq, not_false_eq_true,
        forall_const, List.append_eq_nil_iff, List.cons_ne_self, and_false, and_iff_right_iff_imp]
      intro hlast _
      obtain ⟨zs, hzs⟩ := List.rdropWhile_prefix (fun x => decide (L.size x = 0)) xs
      have hle := L.le_finish (L.finish c (xs.rdropWhile fun x => decide (L.size x = 0)))
        (zs ++ [x])
      rw [← finish_append, ← List.append_assoc, hzs] at hle
      exact hle.trans hlast

theorem below_cons (c : ℕ) (x : α) (xs : List α) (bound : ℕ) : L.Below c (x :: xs) bound ↔
    (∀ b, alignUp (L.alignment x) c ≤ b → b < alignUp (L.alignment x) c + L.size x → b < bound) ∧
      L.Below (alignUp (L.alignment x) c + L.size x) xs bound := by
  constructor
  · intro h
    exact ⟨h x _ (L.isPlaced_cons_iff.mpr (Or.inl ⟨rfl, rfl⟩)),
      fun y address hy => h y address (L.isPlaced_cons_iff.mpr (Or.inr hy))⟩
  · rintro ⟨hx, hxs⟩ y address hy
    rcases L.isPlaced_cons_iff.mp hy with ⟨rfl, rfl⟩ | hy
    · exact hx
    · exact hxs y address hy

theorem below_congr {L' : Layout β} {xs : List α} {ys : List β}
    (h : List.Forall₂ (fun x y => L.size x = L'.size y ∧ L.alignment x = L'.alignment y) xs ys)
    (c bound : ℕ) : L.Below c xs bound ↔ L'.Below c ys bound := by
  induction h generalizing c with
  | nil => simp [Below, IsPlaced]
  | cons hxy _ ih => rw [below_cons, below_cons, hxy.1, hxy.2, ih]

end Layout

end MMLMStore.AlignedPlacement
