import MMLMStore.AllocationHistory

/-!
# Addresses that are refused

Callers of a memory manager may pass any address to `Free`. One that was not returned, or was freed
since, is refused unless a hole starts there: the table of chunks has the holes as well. A pointer
that was returned is freed unless a hole of its page ends where it starts.
-/
namespace MMLMStore.RejectedFrees

open PagedMemory hiding Error
open MemoryManager ManagedChunks AllocationHistory StepRuns

/-- Calls of the manager with any arguments; no result if they do not return. -/
def callAny (s : Session) : Action → Option Session
  | .Allocate size alignment =>
    (s.manager.Allocate size alignment).map fun r =>
      match r.2 with
      | .ok address => ⟨r.1, (address, size) :: s.live, s.owned r.1⟩
      | .error _ => ⟨r.1, s.live, s.owned r.1⟩
  | .Free address =>
    (s.manager.Free address).map fun r =>
      match r.2 with
      | .ok _ => ⟨r.1, s.live.filter (·.1 ≠ address), s.owned r.1⟩
      | .error _ => ⟨r.1, s.live, s.owned r.1⟩
  | .others _ => none

/-- Others keep the pages that there are. -/
def AnyStep (s : Session) (a : Action) (t : Session) : Prop :=
  callAny s a = some t ∨ ∃ memory, a = .others memory ∧
    (∀ tag, (s.manager.memory.pages tag).isSome = true → (memory.pages tag).isSome = true) ∧
    t = { s with manager := { s.manager with memory := memory } }

def IsHole (m : Manager) (address : ℕ) : Prop :=
  ∃ c ∈ m.chunks.find? address, c.is_allocated = false

instance (m : Manager) (address : ℕ) : Decidable (IsHole m address) :=
  inferInstanceAs (Decidable (∃ c ∈ _, _))

/-- The pointers handed out start where their chunks do, and no hole is freed. -/
def Proper (s : Session) : Action → Prop
  | .Allocate size alignment => 1 ≤ size ∧ 1 ≤ alignment ∧ Placed s.manager size alignment
  | .Free address => ¬IsHole s.manager address
  | .others _ => True

instance (s : Session) (a : Action) : Decidable (Proper s a) :=
  match a with
  | .Allocate size alignment =>
    inferInstanceAs (Decidable (1 ≤ size ∧ 1 ≤ alignment ∧ Placed s.manager size alignment))
  | .Free address => inferInstanceAs (Decidable (¬IsHole s.manager address))
  | .others _ => inferInstanceAs (Decidable True)

def Throws (s : Session) (address : ℕ) : Prop :=
  ∃ m, s.manager.Free address = some (m, .error .NotAllocated)

def Frees (s : Session) (address : ℕ) : Prop := ∃ m, s.manager.Free address = some (m, .ok ())

/-- `Free` frees live pointers, and throws for other addresses and then changes nothing. -/
structure Rejects (s : Session) (address : ℕ) : Prop where
  frees : address ∈ s.live.map Prod.fst → Frees s address
  throws_iff : Throws s address ↔ address ∉ s.live.map Prod.fst
  unchanged : ∀ m e, s.manager.Free address = some (m, .error e) →
    m.chunks = s.manager.chunks ∧ m.holes = s.manager.holes ∧ m.memory = s.manager.memory

structure Exact (s : Session) : Prop where
  sound : Sound s
  returned : ∀ a n, s.manager.chunks.find? a = some ⟨n, true⟩ → a ∈ s.live.map Prod.fst

variable {s t : Session} {address : ℕ}

theorem isHole_iff {m : Manager} :
    IsHole m address ↔ ∃ n, m.chunks.find? address = some ⟨n, false⟩ := by
  constructor
  · rintro ⟨⟨n, is_allocated⟩, hc, rfl⟩
    exact ⟨n, hc⟩
  · rintro ⟨n, hn⟩
    exact ⟨⟨n, false⟩, hn, rfl⟩

theorem chunk_cases {m : Manager} (h : ¬IsHole m address) :
    m.chunks.find? address = none ∨ ∃ n, m.chunks.find? address = some ⟨n, true⟩ := by
  rcases hc : m.chunks.find? address with - | ⟨n, is_allocated⟩
  · exact Or.inl rfl
  · cases is_allocated
    · exact absurd (isHole_iff.mpr ⟨n, hc⟩) h
    · exact Or.inr ⟨n, rfl⟩

theorem free_unknown {m : Manager} (h : m.chunks.find? address = none) :
    m.Free address = some (m, .error .NotAllocated) := by
  rw [Manager.Free, h]

/-- `Free` throws only where the table has no chunk. -/
theorem free_error {m m' : Manager} {e : Error} (h : m.Free address = some (m', .error e)) :
    m.chunks.find? address = none ∧ m' = m := by
  unfold Manager.Free at h
  cases hc : m.chunks.find? address with
  | none =>
    rw [hc] at h
    exact ⟨rfl, (Prod.mk.inj (Option.some.inj h)).1.symm⟩
  | some c =>
    simp only [hc] at h
    split_ifs at h
    · obtain ⟨s', -, heq⟩ := Option.map_eq_some_iff.mp h
      cases (Prod.mk.inj heq).2
    · obtain ⟨s', -, heq⟩ := Option.map_eq_some_iff.mp h
      cases (Prod.mk.inj heq).2

theorem throws_iff : Throws s address ↔ s.manager.chunks.find? address = none := by
  constructor
  · rintro ⟨m, hm⟩
    exact (free_error hm).1
  · exact fun h => ⟨s.manager, free_unknown h⟩

theorem Exact.mem_live_iff (h : Exact s) : address ∈ s.live.map Prod.fst ↔
    ∃ n, s.manager.chunks.find? address = some ⟨n, true⟩ :=
  ⟨h.sound.mem_live, fun ⟨n, hn⟩ => h.returned address n hn⟩

theorem exact_new (memory : Memory) : Exact (Session.new memory) where
  sound := sound_new memory
  returned a n hn := by cases hn

theorem Exact.refused (h : Exact s) : Exact ⟨s.manager, s.live, s.owned s.manager⟩ :=
  ⟨h.sound.refused, h.returned⟩

theorem Exact.allocate (h : Exact s) {size : ℕ} {m : Manager}
    (hm : Allocated s.manager size m (.ok address)) :
    Exact ⟨m, (address, size) :: s.live, s.owned m⟩ := by
  refine ⟨h.sound.allocate hm, fun a n hn => ?_⟩
  obtain ⟨-, ⟨k, -, hmore⟩, -⟩ := hm
  rw [List.map_cons, List.mem_cons]
  rcases (hmore a ⟨n, true⟩ rfl).mp hn with hold | ⟨rfl, -⟩
  · exact Or.inr (h.returned a n hold)
  · exact Or.inl rfl

theorem Exact.free (h : Exact s) {m : Manager} (hmerged : Merged m)
    (hless : LessPointer s.manager m address) (haccounted : Accounted s.manager m) :
    Exact ⟨m, s.live.filter (·.1 ≠ address), s.owned m⟩ := by
  refine ⟨h.sound.free hmerged hless haccounted, fun a n hn => ?_⟩
  obtain ⟨hold, hne⟩ := (hless a ⟨n, true⟩ rfl).mp hn
  obtain ⟨p, hp, rfl⟩ := List.mem_map.mp (h.returned a n hold)
  exact List.mem_map_of_mem (List.mem_filter.mpr ⟨hp, by simpa using hne⟩)

theorem Exact.step (h : Exact s) {a : Action} (hstep : AnyStep s a t) (hproper : Proper s a) :
    Exact t := by
  rcases hstep with hcall | ⟨memory, rfl, hkeep, rfl⟩
  · cases a with
    | Allocate size alignment =>
      obtain ⟨hsize, halignment, hplaced⟩ := hproper
      obtain ⟨⟨m, r⟩, hr, rfl⟩ := Option.map_eq_some_iff.mp hcall
      have hallocated := h.sound.merged.allocate hsize halignment hplaced hr
      cases r with
      | ok address => exact h.allocate hallocated
      | error e =>
        obtain rfl : m = s.manager := hallocated
        exact h.refused
    | Free address =>
      obtain ⟨r, hr, rfl⟩ := Option.map_eq_some_iff.mp hcall
      rcases chunk_cases hproper with hnone | ⟨n, hn⟩
      · obtain rfl := Option.some.inj ((free_unknown hnone).symm.trans hr)
        exact h.refused
      · by_cases hback : MergesBack s.manager address
        · rw [h.sound.merged.free_none hn hback] at hr
          cases hr
        · obtain ⟨m, hm, hmerged, hless, haccounted⟩ := h.sound.merged.free hn hback
          obtain rfl := Option.some.inj (hm.symm.trans hr)
          exact h.free hmerged hless haccounted
    | others memory => cases hcall
  · exact ⟨h.sound.others hkeep, h.returned⟩

theorem exact_run {memory : Memory} {run : List (Action × Session)}
    (hrun : IsRun AnyStep (Session.new memory) run)
    (hproper : ∀ x ∈ transitions (Session.new memory) run, Proper x.1 x.2.1) :
    ∀ s ∈ states (Session.new memory) run, Exact s :=
  invariant (fun _ _ _ h hstep hp => h.step hstep hp) hrun (exact_new memory) hproper

/-- The calls that go wrong: a hole starts at the address, or it is a live pointer and a hole of
its page ends there. -/
def Misread (s : Session) (address : ℕ) : Prop :=
  IsHole s.manager address ∨ (address ∈ s.live.map Prod.fst ∧ MergesBack s.manager address)

theorem Exact.frees_iff (h : Exact s) (hlive : address ∈ s.live.map Prod.fst) :
    Frees s address ↔ ¬MergesBack s.manager address := by
  obtain ⟨n, hn⟩ := h.sound.mem_live hlive
  exact h.sound.merged.free_returns_iff hn

theorem Exact.rejects_iff_not_misread (h : Exact s) (address : ℕ) :
    Rejects s address ↔ ¬Misread s address := by
  constructor
  · rintro hrejects (hhole | ⟨hlive, hback⟩)
    · obtain ⟨n, hn⟩ := isHole_iff.mp hhole
      have hlive : address ∉ s.live.map Prod.fst := by
        rw [h.mem_live_iff, hn]
        rintro ⟨k, hk⟩
        cases hk
      have hnone := throws_iff.mp (hrejects.throws_iff.mpr hlive)
      rw [hn] at hnone
      cases hnone
    · exact (h.frees_iff hlive).mp (hrejects.frees hlive) hback
  · intro hmisread
    refine ⟨fun hlive => ?_, ?_, fun m e he => ?_⟩
    · exact (h.frees_iff hlive).mpr fun hback => hmisread (Or.inr ⟨hlive, hback⟩)
    · rw [throws_iff, h.mem_live_iff]
      rcases chunk_cases fun hhole => hmisread (Or.inl hhole) with hnone | ⟨n, hn⟩
      · simp [hnone]
      · simp [hn]
    · obtain ⟨-, rfl⟩ := free_error he
      exact ⟨rfl, rfl, rfl⟩

/-- In every state of a history in which no hole is freed and pointers start where their chunks do,
`Free` tells live pointers from other addresses except where a hole starts, or ends in front of the
pointer. -/
theorem rejects_iff (memory : Memory) {run : List (Action × Session)}
    (hrun : IsRun AnyStep (Session.new memory) run)
    (hproper : ∀ x ∈ transitions (Session.new memory) run, Proper x.1 x.2.1) :
    ∀ s ∈ states (Session.new memory) run, ∀ address,
      Rejects s address ↔ ¬Misread s address := by
  intro s hs address
  exact (exact_run hrun hproper s hs).rejects_iff_not_misread address

theorem isRun_callAny (s : Session) (actions : List Action) :
    IsRun AnyStep s (trace callAny s actions) :=
  IsRun.mono (fun _ _ _ => Or.inl) (isRun_trace callAny s actions)

/-- Two pointers in one page, with addresses that are refused before and after they are freed. -/
def someFrees : List Action :=
  [Action.Allocate 100 1, Action.Allocate 10 1, Action.Free 5, Action.Free 0xb7fb0001,
    Action.Free 0xb7fb0064, Action.Free 0xb7fb0000, Action.Free 0xb7fb0064, Action.Free 0xb7fb0000]

theorem rejects_someFrees :
    (trace callAny (Session.new (.new true)) someFrees).length = someFrees.length ∧
      ∀ s ∈ states (Session.new (.new true)) (trace callAny (Session.new (.new true)) someFrees),
        ∀ address, Rejects s address ↔ ¬Misread s address :=
  ⟨by decide, rejects_iff (.new true) (isRun_callAny _ _) (by decide)⟩

/-- A pointer freed twice, with another one after it. -/
def freedTwice : List Action :=
  [Action.Allocate 100 1, Action.Allocate 10 1, Action.Free 0xb7fb0000]

theorem rejects_fails : ¬∀ (memory : Memory) (run : List (Action × Session)),
    IsRun AnyStep (Session.new memory) run → ∀ s ∈ states (Session.new memory) run,
      ∀ address, Rejects s address := by
  intro h
  have hstate : ∃ s ∈ states (Session.new (.new true))
      (trace callAny (Session.new (.new true)) freedTwice),
        (s.manager.chunks.find? 0xb7fb0000).isSome = true ∧
          0xb7fb0000 ∉ s.live.map Prod.fst := by decide
  obtain ⟨s, hs, hchunk, hfreed⟩ := hstate
  have hrejects := h (.new true) _ (isRun_callAny _ freedTwice) s hs 0xb7fb0000
  have hnone := throws_iff.mp (hrejects.throws_iff.mpr hfreed)
  rw [hnone] at hchunk
  cases hchunk

end MMLMStore.RejectedFrees
