import Mathlib

/-!
# Locks that parties wait for

Locks named by keys. A party takes a free lock, waits for a lock that is taken, or gives back a lock
it has, and then all who wait for it go on. As long as no party waits with a lock in hand, whoever
has a lock that is waited for can go on.
-/
namespace MMLMStore.WaitingLocks

variable {K P : Type*}

structure Table (K P : Type*) where
  holder : K → Option P
  waiting : K → List P

namespace Table

def new : Table K P := ⟨fun _ => none, fun _ => []⟩

variable (t : Table K P)

def Holds (p : P) : Prop := ∃ k, t.holder k = some p

def Waits (p : P) : Prop := ∃ k, p ∈ t.waiting k

variable [DecidableEq K]

def take (p : P) (k : K) : Table K P :=
  { t with holder := Function.update t.holder k (some p) }

def await (p : P) (k : K) : Table K P :=
  { t with waiting := Function.update t.waiting k (t.waiting k ++ [p]) }

def release (k : K) : Table K P :=
  ⟨Function.update t.holder k none, Function.update t.waiting k []⟩

variable {t} {p q : P} {k l : K}

@[simp] theorem waiting_take : (t.take p k).waiting = t.waiting := rfl

@[simp] theorem holder_await : (t.await p k).holder = t.holder := rfl

theorem holder_take : (t.take p k).holder l = if l = k then some p else t.holder l := by
  by_cases h : l = k <;> simp [take, Function.update, h]

theorem waiting_await :
    (t.await p k).waiting l = if l = k then t.waiting k ++ [p] else t.waiting l := by
  by_cases h : l = k <;> simp [await, Function.update, h]

theorem holder_release : (t.release k).holder l = if l = k then none else t.holder l := by
  by_cases h : l = k <;> simp [release, Function.update, h]

theorem waiting_release : (t.release k).waiting l = if l = k then [] else t.waiting l := by
  by_cases h : l = k <;> simp [release, Function.update, h]

theorem mem_waiting_release : p ∈ (t.release k).waiting l ↔ l ≠ k ∧ p ∈ t.waiting l := by
  by_cases h : l = k <;> simp [waiting_release, h]

theorem mem_waiting_await :
    q ∈ (t.await p k).waiting l ↔ q ∈ t.waiting l ∨ l = k ∧ q = p := by
  by_cases h : l = k <;> simp [waiting_await, h]

theorem waits_await : (t.await p k).Waits q ↔ t.Waits q ∨ q = p := by
  unfold Waits
  constructor
  · intro h
    obtain ⟨l, hl⟩ := h
    rcases mem_waiting_await.mp hl with hl | hl
    · exact Or.inl ⟨l, hl⟩
    · exact Or.inr hl.2
  · intro h
    rcases h with hl | hp
    · obtain ⟨l, hl⟩ := hl
      exact ⟨l, mem_waiting_await.mpr (Or.inl hl)⟩
    · exact ⟨k, mem_waiting_await.mpr (Or.inr ⟨rfl, hp⟩)⟩

end Table

/-- What holds as long as no party waits with a lock in hand. -/
structure Ordered (t : Table K P) : Prop where
  taken : ∀ p k, p ∈ t.waiting k → t.holder k ≠ none
  empty_handed : ∀ p, t.Waits p → ¬t.Holds p
  one : ∀ p k l, p ∈ t.waiting k → p ∈ t.waiting l → k = l
  nodup : ∀ k, (t.waiting k).Nodup

variable {t : Table K P} {p : P} {k : K}

theorem ordered_new : Ordered (Table.new : Table K P) := by
  constructor <;> simp [Table.new, Table.Waits]

/-- Nobody waits for ever for a party that waits itself. -/
theorem Ordered.holder_goes_on (h : Ordered t) (hp : p ∈ t.waiting k) :
    ∃ q, t.holder k = some q ∧ ¬t.Waits q := by
  obtain ⟨q, hq⟩ := Option.ne_none_iff_exists'.mp (h.taken p k hp)
  exact ⟨q, hq, fun hwaits => h.empty_handed q hwaits ⟨k, hq⟩⟩

variable [DecidableEq K]

theorem Ordered.take (h : Ordered t) (hp : ¬t.Waits p) : Ordered (t.take p k) where
  taken q l hq := by
    have := h.taken q l hq
    rw [Table.holder_take]
    split_ifs <;> simp [this]
  empty_handed q hq hholds := by
    obtain ⟨l, hl⟩ := hholds
    rw [Table.holder_take] at hl
    split_ifs at hl
    · rw [Option.some.inj hl] at hp
      exact hp hq
    · exact h.empty_handed q hq ⟨l, hl⟩
  one := h.one
  nodup := h.nodup

theorem Ordered.await (h : Ordered t) (htaken : t.holder k ≠ none) (hp : ¬t.Waits p)
    (hempty : ¬t.Holds p) : Ordered (t.await p k) where
  taken q l hq := by
    rcases Table.mem_waiting_await.mp hq with hq | hq
    · exact h.taken q l hq
    · rw [hq.1]
      exact htaken
  empty_handed q hq := by
    rcases Table.waits_await.mp hq with hq | hq
    · exact h.empty_handed q hq
    · rw [hq]
      exact hempty
  one q l l' hl hl' := by
    rcases Table.mem_waiting_await.mp hl with hl | hl
    · rcases Table.mem_waiting_await.mp hl' with hl' | hl'
      · exact h.one q l l' hl hl'
      · exact absurd ⟨l, hl'.2 ▸ hl⟩ hp
    · rcases Table.mem_waiting_await.mp hl' with hl' | hl'
      · exact absurd ⟨l', hl.2 ▸ hl'⟩ hp
      · rw [hl.1, hl'.1]
  nodup l := by
    rw [Table.waiting_await]
    split_ifs
    · refine (h.nodup k).append (List.nodup_singleton p) ?_
      intro q hq hq'
      exact hp ⟨k, List.mem_singleton.mp hq' ▸ hq⟩
    · exact h.nodup l

theorem Ordered.release (h : Ordered t) : Ordered (t.release k) where
  taken q l hq := by
    obtain ⟨hl, hq⟩ := Table.mem_waiting_release.mp hq
    rw [Table.holder_release, if_neg hl]
    exact h.taken q l hq
  empty_handed q hq hholds := by
    obtain ⟨l, hl⟩ := hq
    obtain ⟨l', hl'⟩ := hholds
    rw [Table.holder_release] at hl'
    split_ifs at hl'
    exact h.empty_handed q ⟨l, (Table.mem_waiting_release.mp hl).2⟩ ⟨l', hl'⟩
  one q l l' hl hl' :=
    h.one q l l' (Table.mem_waiting_release.mp hl).2 (Table.mem_waiting_release.mp hl').2
  nodup l := by
    rw [Table.waiting_release]
    split_ifs
    · exact List.nodup_nil
    · exact h.nodup l

theorem Ordered.waits_release (h : Ordered t) {q : P} :
    (t.release k).Waits q ↔ t.Waits q ∧ q ∉ t.waiting k := by
  constructor
  · intro hq
    obtain ⟨l, hl⟩ := hq
    obtain ⟨hne, hl⟩ := Table.mem_waiting_release.mp hl
    exact ⟨⟨l, hl⟩, fun hk => hne (h.one q l k hl hk)⟩
  · intro hq
    obtain ⟨⟨l, hl⟩, hk⟩ := hq
    refine ⟨l, Table.mem_waiting_release.mpr ⟨fun hne => hk ?_, hl⟩⟩
    rw [← hne]
    exact hl

inductive Step (t : Table K P) : Table K P → Prop
  | stay : Step t t
  | take {q l} : ¬t.Waits q → t.holder l = none → Step t (t.take q l)
  | await {q l} : ¬t.Waits q → ¬t.Holds q → t.holder l ≠ none → Step t (t.await q l)
  | release {q l} : t.holder l = some q → Step t (t.release l)

variable {t' : Table K P}

theorem Ordered.step (h : Ordered t) (hstep : Step t t') : Ordered t' := by
  cases hstep with
  | stay => exact h
  | take hp _ => exact h.take hp
  | await hp hempty htaken => exact h.await htaken hp hempty
  | release _ => exact h.release

/-- A party that waits goes on with the very step that gives its lock back. -/
theorem Ordered.waits_step_iff (h : Ordered t) (hstep : Step t t') (hp : p ∈ t.waiting k) :
    t'.Waits p ↔ t'.holder k = t.holder k := by
  have htaken := h.taken p k hp
  cases hstep with
  | stay => exact iff_of_true ⟨k, hp⟩ rfl
  | @take q l _ hfree =>
    have hne : k ≠ l := fun heq => htaken (heq ▸ hfree)
    exact iff_of_true ⟨k, hp⟩ (by rw [Table.holder_take, if_neg hne])
  | await _ _ _ => exact iff_of_true ⟨k, Table.mem_waiting_await.mpr (Or.inl hp)⟩ rfl
  | @release q l _ =>
    rw [h.waits_release, Table.holder_release]
    by_cases hkl : k = l
    · rw [if_pos hkl]
      exact iff_of_false (fun hw => hw.2 (hkl ▸ hp)) (Ne.symm htaken)
    · rw [if_neg hkl]
      exact iff_of_true ⟨⟨k, hp⟩, fun hl => hkl (h.one p k l hp hl)⟩ rfl

end MMLMStore.WaitingLocks
