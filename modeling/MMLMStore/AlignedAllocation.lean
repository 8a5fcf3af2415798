import MMLMStore.RejectedFrees

/-!
# Alignment of allocated memory

A piece that is cut out of a hole is aligned. The start of new pages is returned as it is, and is a
multiple of the page size but not of every alignment up to it.
-/
namespace MMLMStore.AlignedAllocation

open PagedMemory hiding Error
open PageSpace MemoryManager ManagedChunks AllocationHistory RejectedFrees StepRuns Set

/-- The address is aligned, and that of a pointer with enough bytes, all in pages of the manager. -/
structure Aligned (m : Manager) (size alignment address : ℕ) : Prop where
  multiple : alignment ∣ address
  pointer : ∃ n, size ≤ n ∧ m.chunks.find? address = some ⟨n, true⟩ ∧
    ∀ x, address ≤ x → x < address + n → m.mapped (pageTag x) = true

structure Suits (s : Manager) (size alignment : ℕ) : Prop where
  placed : Placed s size alignment
  large : PageSize < size →
    ∀ address ∈ MapSpaceDown s.memory MapBaseAddress (ceil size PageSize * PageSize),
      address ≠ noSpace → alignment ∣ address

variable {s m : Manager} {size alignment address : ℕ}

theorem suits_of_dvd (hdvd : alignment ∣ PageSize) (s : Manager) (size : ℕ) :
    Suits s size alignment := by
  refine ⟨placed_of_dvd hdvd s size, fun _ a ha hfound => ?_⟩
  have hfree := (mapSpaceDown_spec (by decide) ha hfound).1
  exact hdvd.trans (Nat.dvd_of_mod_eq_zero hfree.aligned)

theorem allocateIn_address {hole : ℕ}
    (h : s.AllocateIn hole size alignment = some (m, address)) :
    address = getNextAlignedAddress hole alignment := by
  obtain ⟨c, -, h⟩ := Option.bind_eq_some_iff.mp h
  obtain ⟨s₁, -, heq⟩ := Option.map_eq_some_iff.mp h
  exact (Prod.mk.inj heq).2.symm

theorem dvd_getNextAlignedAddress (a alignment : ℕ) :
    alignment ∣ getNextAlignedAddress a alignment := Nat.dvd_mul_left _ _

theorem dvd_iff_suits (h : Placement s size alignment m address) :
    alignment ∣ address ↔ Suits s size alignment := by
  cases h with
  | large hlarge hspace hfound hmap =>
    constructor
    · intro hdvd
      refine ⟨fun hsmall => absurd hlarge hsmall, fun _ a ha _ => ?_⟩
      obtain rfl := Option.some.inj (hspace.symm.trans ha)
      exact hdvd
    · exact fun hsuits => hsuits.large hlarge address hspace hfound
  | hole hsmall hhole hallocate =>
    refine iff_of_true ?_ ⟨fun _ hnone => ?_, fun hlarge => absurd hlarge hsmall⟩
    · rw [allocateIn_address hallocate]
      exact dvd_getNextAlignedAddress _ _
    · rw [hhole] at hnone
      cases hnone
  | page hsmall hnone hspace hfound hmap hallocate =>
    constructor
    · intro hdvd
      refine ⟨fun _ _ base hbase _ => ?_, fun hlarge => absurd hlarge hsmall⟩
      obtain rfl := Option.some.inj (hspace.symm.trans hbase)
      exact hdvd
    · exact fun hsuits => hsuits.placed hsmall hnone address hspace hfound

theorem mapped_of_chunk (h : Merged m) {c : Chunk} (hc : m.chunks.find? address = some c) {x : ℕ}
    (hle : address ≤ x) (hlt : x < address + c.size) : m.mapped (pageTag x) = true :=
  h.chunked.tiling.subset hc ⟨hle, hlt⟩

theorem aligned_iff_suits (h : Merged s) (hsize : 1 ≤ size) (halignment : 1 ≤ alignment)
    (hallocate : s.Allocate size alignment = some (m, .ok address)) :
    Aligned m size alignment address ↔ Suits s size alignment := by
  obtain ⟨a, heq, hplacement⟩ : ∃ a, (.ok address : Except Error ℕ) = .ok a ∧
      Placement s size alignment m a := by
    rcases allocate_cases hallocate with hok | ⟨-, e, he⟩
    · exact hok
    · cases he
  obtain rfl := Except.ok.inj heq
  have hdvd := dvd_iff_suits hplacement
  constructor
  · exact fun haligned => hdvd.mp haligned.multiple
  · intro hsuits
    obtain ⟨hmerged, ⟨n, hle, hmore⟩, -⟩ :=
      h.placement hsize halignment hsuits.placed hplacement
    have hchunk : m.chunks.find? address = some ⟨n, true⟩ :=
      (hmore address ⟨n, true⟩ rfl).mpr (Or.inr ⟨rfl, rfl⟩)
    exact ⟨hdvd.mpr hsuits, n, hle, hchunk, fun x hx hx' => mapped_of_chunk hmerged hchunk hx hx'⟩

/-- In every state of a history in which no hole is freed and pointers start where their chunks do,
the next allocation is as it should be exactly if the pages it needs suit the alignment. -/
theorem aligned_iff (memory : Memory) {run : List (Action × Session)}
    (hrun : IsRun AnyStep (Session.new memory) run)
    (hproper : ∀ x ∈ transitions (Session.new memory) run, Proper x.1 x.2.1) :
    ∀ s ∈ states (Session.new memory) run, ∀ size alignment, 1 ≤ size → 1 ≤ alignment →
      ∀ m address, s.manager.Allocate size alignment = some (m, .ok address) →
        (Aligned m size alignment address ↔ Suits s.manager size alignment) := by
  intro s hs size alignment hsize halignment m address hallocate
  have h := exact_run hrun hproper s hs
  exact aligned_iff_suits h.sound.merged hsize halignment hallocate

/-- One byte allocated, and a multiple of 48 in the hole behind it. -/
theorem aligned_inHole :
    ∃ s ∈ states (Session.new (.new true))
        (trace callAny (Session.new (.new true)) [Action.Allocate 1 1]),
      ∃ r ∈ s.manager.Allocate 20 48, r.2 = .ok 0xb7fb0010 ∧
        (Aligned r.1 20 48 0xb7fb0010 ↔ Suits s.manager 20 48) := by
  have hstate : ∃ s ∈ states (Session.new (.new true))
      (trace callAny (Session.new (.new true)) [Action.Allocate 1 1]),
        ∃ r ∈ s.manager.Allocate 20 48, r.2 = .ok 0xb7fb0010 := by decide
  obtain ⟨s, hs, ⟨m, result⟩, hr, rfl⟩ := hstate
  exact ⟨s, hs, _, hr, rfl, aligned_iff (.new true) (isRun_callAny _ _) (by decide) s hs 20 48
    (by decide) (by decide) m _ hr⟩

/-- A new manager asked for a multiple of 3 returns the start of its first page. -/
theorem aligned_fails : ¬∀ (memory : Memory) (run : List (Action × Session)),
    IsRun AnyStep (Session.new memory) run → ∀ s ∈ states (Session.new memory) run,
      ∀ size alignment, 1 ≤ size → 1 ≤ alignment →
        ∀ m address, s.manager.Allocate size alignment = some (m, .ok address) →
          Aligned m size alignment address := by
  intro h
  have hcall : ∃ r ∈ (Manager.new (.new true)).Allocate 100 3, r.2 = .ok 0xb7fb0000 := by decide
  obtain ⟨⟨m, result⟩, hr, rfl⟩ := hcall
  have haligned := h (.new true) [] trivial (Session.new (.new true)) (by simp [states]) 100 3
    (by decide) (by decide) m _ hr
  have hmultiple : ¬3 ∣ 0xb7fb0000 := by decide
  exact hmultiple haligned.multiple

end MMLMStore.AlignedAllocation
