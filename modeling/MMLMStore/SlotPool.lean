import Mathlib

/-!
# Slots that are taken and handed over

Parties take slots of a pool and give them back. While all slots are in use they wait in a queue,
and a slot that is given back goes to the head of the queue at once. The order of the queue is
left open.
-/
namespace MMLMStore.SlotPool

variable {α : Type*}

inductive Entry (α : Type*)
  | take (x : α) (slot : ℕ)
  | give (x : α) (slot : ℕ)
  deriving DecidableEq, Repr

def Entry.party : Entry α → α
  | .take x _ => x
  | .give x _ => x

/-- In a log, a party takes slots and gives each back before it takes the next one; `held` is the
slot it still has. -/
inductive InTurn (x : α) : List (Entry α) → Option ℕ → Prop
  | nil : InTurn x [] none
  | other {log : List (Entry α)} {held : Option ℕ} {e : Entry α} :
    InTurn x log held → e.party ≠ x → InTurn x (log ++ [e]) held
  | take {log : List (Entry α)} (slot : ℕ) :
    InTurn x log none → InTurn x (log ++ [.take x slot]) (some slot)
  | give {log : List (Entry α)} {slot : ℕ} :
    InTurn x log (some slot) → InTurn x (log ++ [.give x slot]) none

structure Pool (α : Type*) where
  slots : List (Option α)
  used : ℕ
  held : α → Option ℕ
  queue : List α
  log : List (Entry α)

namespace Pool

variable [DecidableEq α] (s : Pool α)

def take (x : α) (slot : ℕ) : Pool α where
  slots := s.slots.set slot (some x)
  used := s.used + 1
  held := fun y => if y = x then some slot else s.held y
  queue := s.queue
  log := s.log ++ [.take x slot]

def give (x : α) (slot : ℕ) : Pool α where
  slots := s.slots.set slot none
  used := s.used - 1
  held := fun y => if y = x then none else s.held y
  queue := s.queue
  log := s.log ++ [.give x slot]

def hand (slot : ℕ) : Pool α :=
  match s.queue with
  | [] => s
  | x :: queue => { s with queue := queue }.take x slot

end Pool

/-- Parties and slots belong together, and who waits holds no slot. -/
structure Matched (s : Pool α) : Prop where
  counted : s.used = s.slots.countP Option.isSome
  inverse : ∀ x slot, s.slots[slot]? = some (some x) ↔ s.held x = some slot
  nodup : s.queue.Nodup
  apart : ∀ x ∈ s.queue, s.held x = none
  turns : ∀ x, InTurn x s.log (s.held x)

/-- Moreover, parties wait only while all slots are in use. -/
structure Kept (s : Pool α) : Prop extends Matched s where
  busy : s.queue ≠ [] → s.used = s.slots.length

variable {s : Pool α} {x : α} {slot : ℕ}

theorem mem_tail_iff {queue : List α} (h : queue.Nodup) :
    x ∈ queue.tail ↔ x ∈ queue ∧ queue.head? ≠ some x := by
  cases queue with
  | nil => simp
  | cons y queue =>
    have hy : y ∉ queue := (List.nodup_cons.mp h).1
    by_cases hx : x = y
    · simp [hx, hy]
    · simp [hx, Ne.symm hx]

theorem Matched.used_le (h : Matched s) : s.used ≤ s.slots.length := by
  rw [h.counted]
  exact List.countP_le_length

theorem Matched.dropped (h : Matched s) {queue : List α} (hqueue : s.queue = x :: queue) :
    Matched { s with queue := queue } where
  counted := h.counted
  inverse := h.inverse
  nodup := (List.nodup_cons.mp (hqueue ▸ h.nodup)).2
  apart y hy := h.apart y (by rw [hqueue]; exact List.mem_cons_of_mem x hy)
  turns := h.turns

theorem Kept.wait (h : Kept s) {queue : List α} (hqueue : queue.Perm (x :: s.queue))
    (hx : s.held x = none) (hmem : x ∉ s.queue) (hused : s.slots.length ≤ s.used) :
    Kept { s with queue := queue } where
  counted := h.counted
  inverse := h.inverse
  nodup := hqueue.nodup_iff.mpr (List.nodup_cons.mpr ⟨hmem, h.nodup⟩)
  apart y hy := by
    rcases List.mem_cons.mp (hqueue.mem_iff.mp hy) with rfl | hy
    · exact hx
    · exact h.apart y hy
  turns := h.turns
  busy _ := le_antisymm h.used_le hused

variable [DecidableEq α]

theorem Matched.take (h : Matched s) (hslot : s.slots[slot]? = some none)
    (hx : s.held x = none) (hqueue : x ∉ s.queue) : Matched (s.take x slot) := by
  obtain ⟨hlt, hfree⟩ := List.getElem?_eq_some_iff.mp hslot
  refine ⟨?_, fun y p => ?_, h.nodup, fun y hy => ?_, fun y => ?_⟩
  · simp only [Pool.take, List.countP_set hlt, hfree, h.counted]
    simp
  · simp only [Pool.take, List.getElem?_set]
    by_cases hp : slot = p
    · subst hp
      by_cases hy : y = x
      · simp [hy, hlt]
      · -- the slot was free, so nobody else had it
        have hheld : s.held y ≠ some slot := by
          rw [ne_eq, ← h.inverse y slot, hslot]
          simp
        simp [hy, hlt, hheld, Ne.symm hy]
    · by_cases hy : y = x
      · have hother : s.slots[p]? ≠ some (some x) := by
          rw [ne_eq, h.inverse x p, hx]
          simp
        simp [hy, hp, hother]
      · simpa [hy, hp] using h.inverse y p
  · have hyx : y ≠ x := fun heq => hqueue (heq ▸ hy)
    simp only [Pool.take, hyx, if_false]
    exact h.apart y hy
  · by_cases hy : y = x
    · subst hy
      simpa [Pool.take] using (hx ▸ h.turns y).take slot
    · simpa [Pool.take, hy] using (h.turns y).other (e := .take x slot) (Ne.symm hy)

theorem Matched.give (h : Matched s) (hx : s.held x = some slot) : Matched (s.give x slot) := by
  have hslot := (h.inverse x slot).mpr hx
  obtain ⟨hlt, hfull⟩ := List.getElem?_eq_some_iff.mp hslot
  refine ⟨?_, fun y p => ?_, h.nodup, fun y hy => ?_, fun y => ?_⟩
  · simp only [Pool.give, List.countP_set hlt, hfull, h.counted]
    simp
  · simp only [Pool.give, List.getElem?_set]
    by_cases hp : slot = p
    · subst hp
      by_cases hy : y = x
      · simp [hy, hlt]
      · have hheld : s.held y ≠ some slot := by
          rw [ne_eq, ← h.inverse y slot, hslot]
          simpa using Ne.symm hy
        simp [hy, hlt, hheld]
    · by_cases hy : y = x
      · have hother : s.slots[p]? ≠ some (some x) := by
          rw [ne_eq, h.inverse x p, hx]
          simpa using hp
        simp [hy, hp, hother]
      · simpa [hy, hp] using h.inverse y p
  · have hyx : y ≠ x := fun heq => by
      rw [heq] at hy
      rw [h.apart x hy] at hx
      cases hx
    simp only [Pool.give, hyx, if_false]
    exact h.apart y hy
  · by_cases hy : y = x
    · subst hy
      simpa [Pool.give] using (hx ▸ h.turns y).give
    · simpa [Pool.give, hy] using (h.turns y).other (e := .give x slot) (Ne.symm hy)

theorem Kept.take (h : Kept s) (hslot : s.slots[slot]? = some none) (hx : s.held x = none)
    (hqueue : s.queue = []) : Kept (s.take x slot) where
  toMatched := h.toMatched.take hslot hx (by simp [hqueue])
  busy hne := absurd hqueue hne

/-- A slot that is given back is in use again when somebody waits for it. -/
theorem Kept.release (h : Kept s) (hx : s.held x = some slot) :
    Kept ((s.give x slot).hand slot) := by
  have hgive := h.toMatched.give hx
  have hslot := (h.inverse x slot).mpr hx
  obtain ⟨hlt, -⟩ := List.getElem?_eq_some_iff.mp hslot
  unfold Pool.hand
  split
  · next hqueue => exact ⟨hgive, fun hne => absurd hqueue hne⟩
  · next y queue hqueue =>
    have hnodup := List.nodup_cons.mp (hqueue ▸ hgive.nodup)
    have hfree : (s.give x slot).slots[slot]? = some none := by
      simp [Pool.give, hlt]
    have hheld := hgive.apart y (by rw [hqueue]; exact List.mem_cons_self)
    refine ⟨(hgive.dropped hqueue).take hfree hheld hnodup.1, fun _ => ?_⟩
    -- all slots were in use before, as the queue was not empty
    have hused : s.used = s.slots.length := by
      apply h.busy
      have hq : s.queue = y :: queue := hqueue
      simp [hq]
    simp only [Pool.take, Pool.give, List.length_set]
    omega

end MMLMStore.SlotPool
