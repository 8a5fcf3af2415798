import MMLMStore.ManagedChunks

/-!
# Histories of allocations

Callers of a memory manager allocate and free pointers while others use the memory, but unmap no
page. In every state of such a history the chunks are tidy and each pointer that was not freed is
allocated and apart from the others. A pointer right behind a hole of its page cannot be freed.
-/
namespace MMLMStore.AllocationHistory

open PagedMemory hiding Error
open PageSpace MemoryManager ManagedChunks IntervalTiling StepRuns Set

/-- A manager, with the addresses and sizes of the pointers returned and not freed since, and the
addresses whose pages came into the memory in a call of the manager and did not go in one since. -/
structure Session where
  manager : Manager
  live : List (ℕ × ℕ)
  own : ℕ → Bool

inductive Action
  | Allocate (size alignment : ℕ)
  | Free (address : ℕ)
  | others (memory : Memory)

/-- A size in whole pages has 32 bits, and an alignment is a power of two up to the page size. -/
def Request (size alignment : ℕ) : Prop :=
  1 ≤ size ∧ ceil size PageSize * PageSize < Space ∧ ∃ k, k ≤ LogPageSize ∧ alignment = 2 ^ k

instance (size alignment : ℕ) : Decidable (Request size alignment) :=
  inferInstanceAs (Decidable (_ ∧ _ ∧ _))

def Session.new (memory : Memory) : Session := ⟨.new memory, [], fun _ => false⟩

/-- The pages after a call, from what the memory has before it and after it. -/
def Session.owned (s : Session) (m : Manager) (x : ℕ) : Bool :=
  (m.memory.getPage x).isSome && (s.own x || (s.manager.memory.getPage x).isNone)

/-- Calls of the manager; no result if they do not return. -/
def call (s : Session) : Action → Option Session
  | .Allocate size alignment =>
    if Request size alignment then
      (s.manager.Allocate size alignment).map fun r =>
        match r.2 with
        | .ok address => ⟨r.1, (address, size) :: s.live, s.owned r.1⟩
        | .error _ => ⟨r.1, s.live, s.owned r.1⟩
    else none
  | .Free address =>
    if address ∈ s.live.map Prod.fst then
      (s.manager.Free address).map fun r =>
        match r.2 with
        | .ok _ => ⟨r.1, s.live.filter (·.1 ≠ address), s.owned r.1⟩
        | .error _ => ⟨r.1, s.live, s.owned r.1⟩
    else none
  | .others _ => none

/-- Others keep the pages that there are. -/
def Step (s : Session) (a : Action) (t : Session) : Prop :=
  call s a = some t ∨ ∃ memory, a = .others memory ∧
    (∀ tag, (s.manager.memory.pages tag).isSome = true → (memory.pages tag).isSome = true) ∧
    t = { s with manager := { s.manager with memory := memory } }

/-- What holds of the chunks and the pointers of a manager. -/
structure Tidy (s : Session) : Prop where
  disjoint : ∀ a c b d, s.manager.chunks.find? a = some c → s.manager.chunks.find? b = some d →
    a ≠ b → Disjoint (Ico a (a + c.size)) (Ico b (b + d.size))
  tiles : ∀ x, (∃ a c, s.manager.chunks.find? a = some c ∧ x ∈ Ico a (a + c.size)) ↔
    s.own x = true
  whole : ∀ x y, pageTag x = pageTag y → s.own x = s.own y
  pages : ∀ x, s.own x = true → (s.manager.memory.getPage x).isSome = true
  nodup : s.manager.holes.entries.Nodup
  holes : ∀ n a, (n, a) ∈ s.manager.holes.entries ↔
    s.manager.chunks.find? a = some ⟨n, false⟩
  apart : ∀ a n b k, s.manager.chunks.find? a = some ⟨n, false⟩ →
    s.manager.chunks.find? b = some ⟨k, false⟩ → isInSamePage a b → a + n ≠ b
  partly : ∀ a, s.manager.chunks.find? a ≠ some ⟨PageSize, false⟩
  allocated : ∀ p ∈ s.live, ∃ c, s.manager.chunks.find? p.1 = some c ∧ c.is_allocated = true ∧
    p.2 ≤ c.size
  separate : s.live.Pairwise fun p q => Disjoint (Ico p.1 (p.1 + p.2)) (Ico q.1 (q.1 + q.2))

structure Sound (s : Session) : Prop where
  merged : Merged s.manager
  own : ∀ x, s.own x = true ↔ x ∈ mappedSpace s.manager
  allocated : ∀ p ∈ s.live, ∃ c, s.manager.chunks.find? p.1 = some c ∧ c.is_allocated = true ∧
    p.2 ≤ c.size
  separate : s.live.Pairwise fun p q => Disjoint (Ico p.1 (p.1 + p.2)) (Ico q.1 (q.1 + q.2))

variable {s t : Session}

theorem disjoint_chunks {m : Manager} (h : Merged m) {a b : ℕ} {c d : Chunk}
    (ha : m.chunks.find? a = some c) (hb : m.chunks.find? b = some d) (hne : a ≠ b) :
    Disjoint (Ico a (a + c.size)) (Ico b (b + d.size)) := by
  rw [Set.disjoint_left]
  exact fun x hxa hxb => hne (h.chunked.tiling.start_eq ha hb hxa hxb)

theorem Sound.tidy (h : Sound s) : Tidy s where
  disjoint _ _ _ _ ha hb hne := disjoint_chunks h.merged ha hb hne
  tiles x := (h.merged.chunked.tiling.cover x).symm.trans (h.own x).symm
  whole x y htag := by
    rw [Bool.eq_iff_iff, h.own, h.own]
    change s.manager.mapped (pageTag x) = true ↔ s.manager.mapped (pageTag y) = true
    rw [htag]
  pages x hx := getPage_of_mapped h.merged.backed ((h.own x).mp hx)
  nodup := h.merged.chunked.nodup
  holes := h.merged.chunked.holes
  apart a n b k ha hb hpage hadj := h.merged.apart a n b k ha hb hadj (pageTag_eq_iff.mpr hpage)
  partly a ha := h.merged.partly a ha
  allocated := h.allocated
  separate := h.separate

theorem sound_new (memory : Memory) : Sound (Session.new memory) where
  merged := by
    refine ⟨⟨?_, List.nodup_nil, fun n a => ?_⟩, ?_, ?_, ?_, ?_⟩
    · have hspace : mappedSpace (Manager.new memory) = ∅ := by
        ext x
        simp [mappedSpace, Manager.new]
      change Tiling Chunk.size _ (mappedSpace (Manager.new memory))
      rw [hspace]
      exact tiling_empty Chunk.size
    · exact iff_of_false (by simp [Session.new, Manager.new, OrderedMaps.MultiTable.empty])
        (by simp [Session.new, Manager.new])
    · intro tag htag
      cases htag
    · intro a c hc
      cases hc
    · intro a n b k ha
      cases ha
    · intro a ha
      cases ha
  own x := by simp [Session.new, Manager.new, mappedSpace]
  allocated := by simp [Session.new]
  separate := List.Pairwise.nil

/-- The pages recorded from the memory are those that the calls have mapped and not unmapped. -/
theorem Sound.owned_iff (h : Sound s) {m : Manager} (haccounted : Accounted s.manager m) (x : ℕ) :
    s.owned m x = true ↔ x ∈ mappedSpace m := by
  have hfresh := haccounted.fresh x
  have hpage := getPage_of_mapped h.merged.backed (x := x)
  rw [← Option.not_isSome_iff_eq_none] at hfresh
  rw [Session.owned, Bool.and_eq_true, Bool.or_eq_true, Option.isNone_iff_eq_none,
    ← Option.not_isSome_iff_eq_none, haccounted.present, h.own]
  tauto

theorem Sound.refused (h : Sound s) : Sound ⟨s.manager, s.live, s.owned s.manager⟩ :=
  ⟨h.merged, h.owned_iff (.refl h.merged.backed), h.allocated, h.separate⟩

theorem Sound.allocate (h : Sound s) {size address : ℕ} {m : Manager}
    (hm : Allocated s.manager size m (.ok address)) :
    Sound ⟨m, (address, size) :: s.live, s.owned m⟩ := by
  obtain ⟨hmerged, ⟨n, hle, hmore⟩, hfresh, haccounted⟩ := hm
  have hnew : m.chunks.find? address = some ⟨n, true⟩ :=
    (hmore address ⟨n, true⟩ rfl).mpr (Or.inr ⟨rfl, rfl⟩)
  have hold : ∀ p ∈ s.live, ∃ c, m.chunks.find? p.1 = some c ∧ c.is_allocated = true ∧
      p.2 ≤ c.size := by
    intro p hp
    obtain ⟨c, hc, halloc, hsize⟩ := h.allocated p hp
    exact ⟨c, (hmore p.1 c halloc).mpr (Or.inl hc), halloc, hsize⟩
  refine ⟨hmerged, h.owned_iff haccounted,
    List.forall_mem_cons.mpr ⟨⟨⟨n, true⟩, hnew, rfl, hle⟩, hold⟩,
    List.pairwise_cons.mpr ⟨fun p hp => ?_, h.separate⟩⟩
  obtain ⟨c, hc, halloc, hsize⟩ := hold p hp
  have hne : address ≠ p.1 := by
    intro heq
    obtain ⟨d, hd, hdalloc, -⟩ := h.allocated p hp
    rw [hfresh d (heq ▸ hd)] at hdalloc
    cases hdalloc
  refine (disjoint_chunks hmerged hnew hc hne).mono (Ico_subset_Ico_right ?_)
    (Ico_subset_Ico_right ?_)
  · exact Nat.add_le_add_left hle address
  · exact Nat.add_le_add_left hsize p.1

theorem Sound.free (h : Sound s) {address : ℕ} {m : Manager} (hmerged : Merged m)
    (hless : LessPointer s.manager m address) (haccounted : Accounted s.manager m) :
    Sound ⟨m, s.live.filter (·.1 ≠ address), s.owned m⟩ := by
  refine ⟨hmerged, h.owned_iff haccounted, fun p hp => ?_, h.separate.filter _⟩
  obtain ⟨hp, hne⟩ := List.mem_filter.mp hp
  obtain ⟨c, hc, halloc, hsize⟩ := h.allocated p hp
  exact ⟨c, (hless p.1 c halloc).mpr ⟨hc, by simpa using hne⟩, halloc, hsize⟩

theorem merged_others {m : Manager} (h : Merged m) {memory : Memory}
    (hkeep : ∀ tag, (m.memory.pages tag).isSome = true → (memory.pages tag).isSome = true) :
    Merged { m with memory := memory } := by
  have hbacked : Backed { m with memory := memory } := by
    intro tag htag
    obtain ⟨haligned, hspace, hpage⟩ := h.backed tag htag
    exact ⟨haligned, hspace, hkeep (pageTag tag) hpage⟩
  have hchunked : Chunked { m with memory := memory }
      (mappedSpace { m with memory := memory }) :=
    ⟨h.chunked.tiling, h.chunked.nodup, h.chunked.holes⟩
  exact h.fewer hchunked hbacked (fun _ _ => id) (fun _ _ => id) (fun _ _ => id)

theorem Sound.others (h : Sound s) {memory : Memory}
    (hkeep : ∀ tag, (s.manager.memory.pages tag).isSome = true →
      (memory.pages tag).isSome = true) :
    Sound { s with manager := { s.manager with memory := memory } } :=
  ⟨merged_others h.merged hkeep, h.own, h.allocated, h.separate⟩

theorem alignment_pos {alignment : ℕ} (h : ∃ k, k ≤ LogPageSize ∧ alignment = 2 ^ k) :
    0 < alignment ∧ alignment ∣ PageSize := by
  obtain ⟨k, hk, rfl⟩ := h
  exact ⟨Nat.two_pow_pos k, Nat.pow_dvd_pow 2 hk⟩

theorem Sound.mem_live (h : Sound s) {address : ℕ} (hmem : address ∈ s.live.map Prod.fst) :
    ∃ n, s.manager.chunks.find? address = some ⟨n, true⟩ := by
  obtain ⟨p, hp, rfl⟩ := List.mem_map.mp hmem
  obtain ⟨⟨n, is_allocated⟩, hc, halloc, -⟩ := h.allocated p hp
  obtain rfl : is_allocated = true := halloc
  exact ⟨n, hc⟩

theorem Sound.step (h : Sound s) {a : Action} (hstep : Step s a t) : Sound t := by
  rcases hstep with hcall | ⟨memory, rfl, hkeep, rfl⟩
  · cases a with
    | Allocate size alignment =>
      simp only [call] at hcall
      split_ifs at hcall with hrequest
      obtain ⟨⟨m, r⟩, hr, rfl⟩ := Option.map_eq_some_iff.mp hcall
      obtain ⟨hpos, hdvd⟩ := alignment_pos hrequest.2.2
      have hallocated := h.merged.allocate hrequest.1 hpos (placed_of_dvd hdvd _ _) hr
      cases r with
      | ok address => exact h.allocate hallocated
      | error e =>
        obtain rfl : m = s.manager := hallocated
        exact h.refused
    | Free address =>
      simp only [call] at hcall
      split_ifs at hcall with hlive
      obtain ⟨r, hr, rfl⟩ := Option.map_eq_some_iff.mp hcall
      obtain ⟨n, hn⟩ := h.mem_live hlive
      by_cases hback : MergesBack s.manager address
      · rw [h.merged.free_none hn hback] at hr
        cases hr
      · obtain ⟨m, hm, hmerged, hless, haccounted⟩ := h.merged.free hn hback
        obtain rfl := Option.some.inj (hm.symm.trans hr)
        exact h.free hmerged hless haccounted
    | others memory => cases hcall
  · exact h.others hkeep

/-- In every state of every history of a manager on a memory, the chunks and the pointers are tidy.
A pointer can be freed exactly if no hole of its page ends where it starts, and a request returns
unless it needs a page and the one found is the last of the address space. -/
theorem tidy_run (memory : Memory) {run : List (Action × Session)}
    (hrun : IsRun Step (Session.new memory) run) :
    ∀ s ∈ states (Session.new memory) run, Tidy s ∧
      (∀ p ∈ s.live,
        (∃ m, s.manager.Free p.1 = some (m, .ok ())) ↔ ¬MergesBack s.manager p.1) ∧
      ∀ size alignment, Request size alignment →
        ((s.manager.Allocate size alignment).isSome = true ↔
          ¬NeedsLastPage s.manager size alignment) := by
  have hall : ∀ s ∈ states (Session.new memory) run, Sound s :=
    invariant_all (fun _ _ _ h hstep => h.step hstep) hrun (sound_new memory)
  intro s hs
  have h := hall s hs
  refine ⟨h.tidy, fun p hp => ?_, fun size alignment hrequest => ?_⟩
  · obtain ⟨n, hn⟩ := h.mem_live (List.mem_map_of_mem hp)
    exact h.merged.free_returns_iff hn
  · obtain ⟨hpos, hdvd⟩ := alignment_pos hrequest.2.2
    exact h.merged.allocate_isSome_iff hrequest.1 hpos hdvd

theorem isRun_calls (s : Session) (actions : List Action) :
    IsRun Step s (trace call s actions) :=
  IsRun.mono (fun _ _ _ => Or.inl) (isRun_trace call s actions)

/-- Small pointers in one page, a large one in pages of its own, a whole page, and the holes merged
as the pointers of the first page are freed, the last one first. -/
def someCalls : List Action :=
  [Action.Allocate 100 1, Action.Allocate 10 1, Action.Allocate 5000 4096, Action.Allocate 20 1,
    Action.Allocate 4096 1, Action.Free 0xb7fb006e, Action.Free 0xb7fb0064,
    Action.Free 0xb7fae000, Action.Free 0xb7fb0000]

/-- Only the pointer that is a page is left, with its page. -/
theorem tidy_someCalls :
    (trace call (Session.new (.new true)) someCalls).length = someCalls.length ∧
      (final (Session.new (.new true))
        (trace call (Session.new (.new true)) someCalls)).manager.chunks.entries =
          [(0xb7fb1000, ⟨4096, true⟩)] ∧
      ∀ s ∈ states (Session.new (.new true)) (trace call (Session.new (.new true)) someCalls),
        Tidy s ∧
          (∀ p ∈ s.live,
            (∃ m, s.manager.Free p.1 = some (m, .ok ())) ↔ ¬MergesBack s.manager p.1) ∧
          ∀ size alignment, Request size alignment →
            ((s.manager.Allocate size alignment).isSome = true ↔
              ¬NeedsLastPage s.manager size alignment) :=
  ⟨by decide, by decide, tidy_run (.new true) (isRun_calls _ _)⟩

/-- A hole in front of an aligned pointer, which is merged with it as the pointer is freed. -/
def alignedCalls : List Action := [Action.Allocate 100 1, Action.Allocate 10 64]

/-- The pointer behind the hole is live, and its `Free` has no result. -/
theorem tidy_fails : ¬∀ (memory : Memory) (run : List (Action × Session)),
    IsRun Step (Session.new memory) run → ∀ s ∈ states (Session.new memory) run,
      Tidy s ∧ ∀ p ∈ s.live, ∃ m, s.manager.Free p.1 = some (m, .ok ()) := by
  intro h
  have hstate : ∃ s ∈ states (Session.new (.new true))
      (trace call (Session.new (.new true)) alignedCalls),
        (0xb7fb0080, 10) ∈ s.live ∧ (s.manager.Free 0xb7fb0080).isNone = true := by decide
  obtain ⟨s, hs, hlive, hnone⟩ := hstate
  obtain ⟨m, hm⟩ := (h (.new true) _ (isRun_calls _ alignedCalls) s hs).2 _ hlive
  rw [hm] at hnone
  cases hnone

end MMLMStore.AllocationHistory
