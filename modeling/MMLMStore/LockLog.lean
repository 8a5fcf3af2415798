import Mathlib

/-!
# Logs of locks and unlocks

The log of one party that takes locks named by keys, in attempts: it looks for a lock, takes it or
waits for it, gives it back, and ends the attempt by going back to retry or by returning. In a
disciplined log every lock taken in an attempt is given back once before the attempt ends, and
nothing is looked for or waited for while a lock is held.
-/
namespace MMLMStore.LockLog

variable {α : Type*}

inductive Operation (α : Type*)
  | search
  | lock (key : α)
  | wait (key : α)
  | unlock (key : α)
  | retry
  | ret
  deriving DecidableEq, Repr

def Operation.Ends : Operation α → Prop
  | .retry => True
  | .ret => True
  | _ => False

/-- Every lock taken since the last end of an attempt has been given back exactly once. -/
def Settled [DecidableEq α] (log : List (Operation α)) : Prop :=
  ∀ before key after, log = before ++ Operation.lock key :: after → (∀ o ∈ after, ¬o.Ends) →
    after.count (Operation.unlock key) = 1

def Released (log : List (Operation α)) : Prop :=
  ∀ before key after, log = before ++ Operation.lock key :: after → Operation.unlock key ∈ after

def ReleasedKey (key : α) (log : List (Operation α)) : Prop :=
  ∀ before after, log = before ++ Operation.lock key :: after → Operation.unlock key ∈ after

structure Allowed [DecidableEq α] (log : List (Operation α)) (o : Operation α) : Prop where
  ends : o.Ends → Settled log
  search : o = .search → Released log
  wait : ∀ key, o = .wait key → ReleasedKey key log

/-- Every operation of the log was allowed when it was made. -/
def Disciplined [DecidableEq α] (log : List (Operation α)) : Prop :=
  ∀ before o after, log = before ++ o :: after → Allowed before o

/-- Where an element of a list that is put together from two can stand. -/
theorem append_eq_append_cons {β : Type*} {l r before after : List β} {x : β}
    (h : l ++ r = before ++ x :: after) :
    (∃ rest, l = before ++ x :: rest ∧ after = rest ++ r) ∨
      ∃ rest, before = l ++ rest ∧ r = rest ++ x :: after := by
  rcases List.append_eq_append_iff.mp h with ⟨rest, hbefore, hr⟩ | ⟨rest, hl, hx⟩
  · exact Or.inr ⟨rest, hbefore, hr⟩
  · cases rest with
    | nil =>
      refine Or.inr ⟨[], ?_, ?_⟩
      · simpa using hl.symm
      · simpa using hx.symm
    | cons y rest =>
      obtain ⟨rfl, rfl⟩ := List.cons.inj hx
      exact Or.inl ⟨rest, hl, rfl⟩

variable [DecidableEq α] {log : List (Operation α)}

theorem disciplined_nil : Disciplined ([] : List (Operation α)) := by
  intro before o after h
  simp at h

theorem disciplined_concat {o : Operation α} :
    Disciplined (log ++ [o]) ↔ Disciplined log ∧ Allowed log o := by
  constructor
  · intro h
    constructor
    · intro before o' after hlog
      refine h before o' (after ++ [o]) ?_
      simp [hlog]
    · exact h log o [] rfl
  · intro h before o' after hlog
    rcases append_eq_append_cons hlog with ⟨rest, hl, -⟩ | ⟨rest, hbefore, ho⟩
    · exact h.1 before o' rest hl
    · cases rest with
      | nil =>
        obtain ⟨rfl, -⟩ := List.cons.inj ho
        rw [hbefore, List.append_nil]
        exact h.2
      | cons y rest => simp at ho

/-- Between attempts: every lock belongs to an attempt that has ended, and was given back. -/
structure Free (log : List (Operation α)) : Prop where
  disciplined : Disciplined log
  released : Released log
  ended : ∀ before key after, log = before ++ Operation.lock key :: after → ∃ o ∈ after, o.Ends

theorem Free.settled (h : Free log) : Settled log := by
  intro before key after hlog hopen
  obtain ⟨o, ho, hends⟩ := h.ended before key after hlog
  exact absurd hends (hopen o ho)

theorem Free.allowed (h : Free log) (o : Operation α) : Allowed log o :=
  ⟨fun _ => h.settled, fun _ => h.released,
    fun key _ before after hlog => h.released before key after hlog⟩

theorem free_nil : Free ([] : List (Operation α)) := by
  refine ⟨disciplined_nil, ?_, ?_⟩
  · intro before key after h
    simp at h
  · intro before key after h
    simp at h

omit [DecidableEq α] in
/-- Where a lock of a log stands when the last operation is another one. -/
theorem lock_of_concat {o : Operation α} {before : List (Operation α)} {key : α}
    {after : List (Operation α)} (ho : o ≠ .lock key)
    (h : log ++ [o] = before ++ Operation.lock key :: after) :
    ∃ rest, log = before ++ Operation.lock key :: rest ∧ after = rest ++ [o] := by
  rcases append_eq_append_cons h with hl | ⟨rest, -, hr⟩
  · exact hl
  · cases rest with
    | nil => exact absurd (List.cons.inj hr).1 ho
    | cons y rest => simp at hr

theorem Free.concat (h : Free log) {o : Operation α} (ho : ∀ key, o ≠ Operation.lock key) :
    Free (log ++ [o]) := by
  refine ⟨disciplined_concat.mpr ⟨h.disciplined, h.allowed o⟩, ?_, ?_⟩
  · intro before key after hlog
    obtain ⟨rest, hl, rfl⟩ := lock_of_concat (ho key) hlog
    exact List.mem_append_left _ (h.released before key rest hl)
  · intro before key after hlog
    obtain ⟨rest, hl, rfl⟩ := lock_of_concat (ho key) hlog
    obtain ⟨o', ho', hends⟩ := h.ended before key rest hl
    exact ⟨o', List.mem_append_left _ ho', hends⟩

/-- In an attempt with a lock in hand. -/
def Holding (key : α) (log : List (Operation α)) : Prop :=
  ∃ before, Free before ∧ log = before ++ [Operation.lock key]

/-- At the end of an attempt: nothing was taken, or one lock was taken and given back. -/
def Over (log : List (Operation α)) : Prop :=
  Free log ∨ ∃ before key, Free before ∧ log = before ++ [Operation.lock key, Operation.unlock key]

theorem Free.lock (h : Free log) (key : α) : Holding key (log ++ [Operation.lock key]) :=
  ⟨log, h, rfl⟩

theorem Holding.disciplined {key : α} (h : Holding key log) : Disciplined log := by
  obtain ⟨before, hfree, rfl⟩ := h
  exact disciplined_concat.mpr ⟨hfree.disciplined, hfree.allowed _⟩

theorem Holding.unlock {key : α} (h : Holding key log) : Over (log ++ [Operation.unlock key]) := by
  obtain ⟨before, hfree, rfl⟩ := h
  exact Or.inr ⟨before, key, hfree, by simp⟩

omit [DecidableEq α] in
theorem lock_of_over {before : List (Operation α)} {key : α} {l : List (Operation α)} {key' : α}
    {r : List (Operation α)}
    (h : before ++ [Operation.lock key, Operation.unlock key] = l ++ Operation.lock key' :: r) :
    (∃ rest, before = l ++ Operation.lock key' :: rest ∧
      r = rest ++ [Operation.lock key, Operation.unlock key]) ∨
      (key' = key ∧ r = [Operation.unlock key]) := by
  rcases append_eq_append_cons h with hl | ⟨rest, -, hr⟩
  · exact Or.inl hl
  · right
    cases rest with
    | nil =>
      obtain ⟨hkey, hrest⟩ := List.cons.inj hr
      exact ⟨(Operation.lock.inj hkey).symm, hrest.symm⟩
    | cons y rest =>
      obtain ⟨-, hrest⟩ := List.cons.inj hr
      cases rest with
      | nil => simp at hrest
      | cons z rest => simp at hrest

theorem Over.settled (h : Over log) : Settled log := by
  rcases h with hfree | ⟨before, key, hfree, rfl⟩
  · exact hfree.settled
  · intro l key' r hlog hopen
    rcases lock_of_over hlog with ⟨rest, hl, rfl⟩ | ⟨rfl, rfl⟩
    · obtain ⟨o, ho, hends⟩ := hfree.ended l key' rest hl
      exact absurd hends (hopen o (List.mem_append_left _ ho))
    · simp

theorem Over.disciplined (h : Over log) : Disciplined log := by
  rcases h with hfree | ⟨before, key, hfree, rfl⟩
  · exact hfree.disciplined
  · have hlock := (hfree.lock key).disciplined
    have hunlock : Allowed (before ++ [Operation.lock key]) (Operation.unlock key) :=
      ⟨fun hends => hends.elim, fun heq => by simp at heq, fun key' heq => by simp at heq⟩
    have := disciplined_concat.mpr ⟨hlock, hunlock⟩
    simpa using this

theorem Over.ends (h : Over log) {o : Operation α} (ho : o.Ends) : Free (log ++ [o]) := by
  rcases h with hfree | ⟨before, key, hfree, rfl⟩
  · apply hfree.concat
    intro key heq
    rw [heq] at ho
    exact ho
  · have hover : Over (before ++ [Operation.lock key, Operation.unlock key]) :=
      Or.inr ⟨before, key, hfree, rfl⟩
    have hallowed : Allowed (before ++ [Operation.lock key, Operation.unlock key]) o := by
      refine ⟨fun _ => hover.settled, fun heq => ?_, fun key' heq => ?_⟩
      · rw [heq] at ho
        exact ho.elim
      · rw [heq] at ho
        exact ho.elim
    have hne : ∀ key', o ≠ Operation.lock key' := by
      intro key' heq
      rw [heq] at ho
      exact ho.elim
    refine ⟨disciplined_concat.mpr ⟨hover.disciplined, hallowed⟩, ?_, ?_⟩
    · intro l key' r hlog
      obtain ⟨rest, hl, rfl⟩ := lock_of_concat (hne key') hlog
      rcases lock_of_over hl with ⟨rest', hbefore, rfl⟩ | ⟨rfl, rfl⟩
      · exact List.mem_append_left _ (List.mem_append_left _
          (hfree.released l key' rest' hbefore))
      · exact List.mem_append_left _ List.mem_cons_self
    · intro l key' r hlog
      obtain ⟨rest, -, rfl⟩ := lock_of_concat (hne key') hlog
      exact ⟨o, List.mem_append_right _ List.mem_cons_self, ho⟩

/-- Ending an attempt with a lock in hand breaks the discipline. -/
theorem Holding.not_ends {key : α} (h : Holding key log) {o : Operation α} (ho : o.Ends) :
    ¬Disciplined (log ++ [o]) := by
  intro hdisc
  obtain ⟨before, -, rfl⟩ := h
  have hsettled := (disciplined_concat.mp hdisc).2.ends ho
  have hcount := hsettled before key [] rfl (by simp)
  simp at hcount

/-! Whether a lock is in hand, one operation later. -/

omit [DecidableEq α] in
theorem releasedKey_concat {o : Operation α} {key : α} (hlock : o ≠ .lock key)
    (hunlock : o ≠ .unlock key) : ReleasedKey key (log ++ [o]) ↔ ReleasedKey key log := by
  constructor
  · intro h before after hlog
    have hmem := h before (after ++ [o]) (by simp [hlog])
    rcases List.mem_append.mp hmem with hmem | hmem
    · exact hmem
    · exact absurd (List.mem_singleton.mp hmem).symm hunlock
  · intro h before after hlog
    obtain ⟨rest, hl, rfl⟩ := lock_of_concat hlock hlog
    exact List.mem_append_left _ (h before rest hl)

omit [DecidableEq α] in
theorem releasedKey_concat_unlock (key : α) : ReleasedKey key (log ++ [.unlock key]) := by
  intro before after hlog
  obtain ⟨rest, -, rfl⟩ := lock_of_concat (by simp) hlog
  simp

omit [DecidableEq α] in
theorem not_releasedKey_concat_lock (key : α) : ¬ReleasedKey key (log ++ [.lock key]) := by
  intro h
  have := h log [] rfl
  simp at this

theorem Free.releasedKey (h : Free log) (key : α) : ReleasedKey key log :=
  fun before after => h.released before key after

theorem Holding.not_releasedKey {key : α} (h : Holding key log) : ¬ReleasedKey key log := by
  obtain ⟨before, -, rfl⟩ := h
  exact not_releasedKey_concat_lock key

end MMLMStore.LockLog
