import MMLMStore.AlignedAllocation

/-!
# Valid addresses

The manager looks an address up in the table of chunks by the first chunk at or after it. So it
finds the chunk of an address only where the chunk starts, and nothing at all behind the last one.
-/
namespace MMLMStore.ValidAddresses

open PagedMemory hiding Error
open OrderedMaps PageSpace MemoryManager ManagedChunks AllocationHistory RejectedFrees
open AlignedAllocation StepRuns

def getEndAddress (address : ℕ) (c : Chunk) : ℕ := (address + c.size + (Space - 1)) % Space

/-- There is no result if the iterator is at the end of the table, where it must not be
dereferenced. -/
def isValidAddress (m : Manager) (address : ℕ) : Option Bool :=
  (lower? m.chunks address).map fun x =>
    x.1 ≤ address ∧ address ≤ getEndAddress x.1 x.2 ∧ x.2.is_allocated = true

def InAllocated (m : Manager) (address : ℕ) : Prop :=
  ∃ a n, m.chunks.find? a = some ⟨n, true⟩ ∧ a ≤ address ∧ address < a + n

/-- The result is defined, and true for the addresses in allocated chunks. -/
def Decides (m : Manager) (address : ℕ) : Prop :=
  ∃ valid, isValidAddress m address = some valid ∧ (valid = true ↔ InAllocated m address)

def Covered (m : Manager) (address : ℕ) : Prop :=
  ∃ a c, m.chunks.find? a = some c ∧ address ≤ a

def Starts (m : Manager) (address : ℕ) : Prop :=
  ∃ c, m.chunks.find? address = some c ∧ c.is_allocated = true ∧ address ≤ getEndAddress address c

def Interior (m : Manager) (address : ℕ) : Prop :=
  ∃ a n, m.chunks.find? a = some ⟨n, true⟩ ∧ a < address ∧ address < a + n

section Lookups

variable {m : Manager} {address : ℕ}

theorem isValidAddress_isSome_iff :
    (isValidAddress m address).isSome = true ↔ Covered m address := by
  rw [isValidAddress, Option.isSome_map]
  constructor
  · intro h
    obtain ⟨x, hx⟩ := Option.isSome_iff_exists.mp h
    obtain ⟨hfind, hle, -⟩ := lower?_eq_some hx
    exact ⟨x.1, x.2, hfind, hle⟩
  · rintro ⟨a, c, hfind, hle⟩
    by_contra hno
    have hnone := Option.not_isSome_iff_eq_none.mp hno
    exact absurd (lower?_eq_none hnone hfind) (not_lt.mpr hle)

theorem isValidAddress_eq_true_iff :
    isValidAddress m address = some true ↔ Starts m address := by
  constructor
  · intro h
    obtain ⟨x, hx, hvalid⟩ := Option.map_eq_some_iff.mp h
    obtain ⟨hfind, hle, -⟩ := lower?_eq_some hx
    obtain ⟨hle', hend, halloc⟩ := of_decide_eq_true hvalid
    obtain rfl := le_antisymm hle hle'
    exact ⟨x.2, hfind, halloc, hend⟩
  · rintro ⟨c, hfind, halloc, hend⟩
    have hcovered : Covered m address := ⟨address, c, hfind, le_rfl⟩
    rw [← isValidAddress_isSome_iff, isValidAddress, Option.isSome_map] at hcovered
    obtain ⟨x, hx⟩ := Option.isSome_iff_exists.mp hcovered
    obtain ⟨hfind', hle, hleast⟩ := lower?_eq_some hx
    obtain rfl : x.1 = address := le_antisymm (hleast address c hfind le_rfl) hle
    obtain rfl : x.2 = c := Option.some.inj (hfind'.symm.trans hfind)
    rw [isValidAddress, hx, Option.map_some]
    exact congrArg some (decide_eq_true ⟨le_rfl, hend, halloc⟩)

theorem decides_iff_starts (m : Manager) (address : ℕ) :
    Decides m address ↔
      Covered m address ∧ (InAllocated m address ↔ Starts m address) := by
  rw [← isValidAddress_isSome_iff, Option.isSome_iff_exists, ← isValidAddress_eq_true_iff,
    Decides, ← exists_and_right]
  refine exists_congr fun valid => and_congr_right fun hvalid => ?_
  rw [hvalid, Option.some_inj]
  exact iff_comm

theorem Merged.le_getEndAddress (h : Merged m) {c : Chunk}
    (hc : m.chunks.find? address = some c) : address ≤ getEndAddress address c := by
  have hpos := h.chunked.tiling.positive address c hc
  have hmapped := mapped_of_chunk h hc (show address ≤ address + c.size - 1 by omega) (by omega)
  have hspace := (h.backed _ hmapped).2.1
  have hlt := (pageTag_spec (address + c.size - 1)).2.2
  unfold getEndAddress
  rw [space_eq] at *
  omega

/-- Where chunks do not overlap, the chunk that starts at an address is the only one that it lies
in. -/
theorem Merged.starts_iff (h : Merged m) :
    (InAllocated m address ↔ Starts m address) ↔ ¬ Interior m address := by
  have hstarts : Starts m address → InAllocated m address ∧ ¬ Interior m address := by
    rintro ⟨c, hc, halloc, -⟩
    have hpos := h.chunked.tiling.positive address c hc
    refine ⟨⟨address, c.size, ?_, le_rfl, by omega⟩, ?_⟩
    · rw [hc, ← halloc]
    · rintro ⟨a, n, ha, hlt, hend⟩
      exact hlt.ne (h.chunked.tiling.start_eq ha hc ⟨hlt.le, hend⟩ ⟨le_rfl, by omega⟩)
  constructor
  · rintro hiff ⟨a, n, ha, hlt, hend⟩
    exact (hstarts (hiff.mp ⟨a, n, ha, hlt.le, hend⟩)).2 ⟨a, n, ha, hlt, hend⟩
  · intro hnot
    refine ⟨?_, fun h => (hstarts h).1⟩
    rintro ⟨a, n, ha, hle, hend⟩
    rcases hle.eq_or_lt with rfl | hlt
    · exact ⟨⟨n, true⟩, ha, rfl, Merged.le_getEndAddress h ha⟩
    · exact absurd ⟨a, n, ha, hlt, hend⟩ hnot

end Lookups

/-- A new page for a small piece can hold it at its alignment. -/
def Holdable (s : Manager) (size alignment : ℕ) : Prop :=
  ¬PageSize < size → holeFor s size alignment = none →
    ∀ base ∈ MapSpace s.memory MapBaseAddress PageSize, base ≠ noSpace →
      size + (getNextAlignedAddress base alignment - base) ≤ PageSize

instance (s : Manager) (size alignment : ℕ) : Decidable (Holdable s size alignment) :=
  inferInstanceAs (Decidable (_ → _ → _))

/-- Calls that keep the chunks apart: pieces are not empty and fit into a new page, and no hole is
freed. -/
def Sensible (s : Session) : Action → Prop
  | .Allocate size alignment => 1 ≤ size ∧ 1 ≤ alignment ∧ Holdable s.manager size alignment
  | .Free address => ¬IsHole s.manager address
  | .others _ => True

instance (s : Session) (a : Action) : Decidable (Sensible s a) :=
  match a with
  | .Allocate size alignment =>
    inferInstanceAs (Decidable (1 ≤ size ∧ 1 ≤ alignment ∧ Holdable s.manager size alignment))
  | .Free address => inferInstanceAs (Decidable (¬IsHole s.manager address))
  | .others _ => inferInstanceAs (Decidable True)

section Runs

variable {s t : Session}

/-- The pointer may lie behind the address returned. -/
theorem merged_placement {m m' : Manager} {size alignment address : ℕ} (h : Merged m)
    (hsize : 1 ≤ size) (halignment : 1 ≤ alignment) (hholdable : Holdable m size alignment)
    (hplacement : Placement m size alignment m' address) : Merged m' := by
  cases hplacement with
  | large hlarge hspace hfound hmap =>
    exact (h.placement hsize halignment (fun hsmall => absurd hlarge hsmall)
      (.large hlarge hspace hfound hmap)).1
  | hole hsmall hhole hallocate =>
    refine (h.placement hsize halignment (fun _ hnone => ?_) (.hole hsmall hhole hallocate)).1
    rw [hhole] at hnone
    cases hnone
  | page hsmall hnone hspace hfound hmap hallocate =>
    obtain ⟨hloose, hchunk, -, -⟩ := h.withPage (mapSpace_spec hspace hfound) hmap
    obtain ⟨m₁, b, -, hallocate₁, hmerged, -, -⟩ :=
      hloose.allocateIn hchunk hsize halignment (hholdable hsmall hnone address hspace hfound)
    obtain ⟨rfl, -⟩ := Prod.mk.inj (Option.some.inj (hallocate₁.symm.trans hallocate))
    exact hmerged

theorem merged_step (h : Merged s.manager) {a : Action} (hstep : AnyStep s a t)
    (hsensible : Sensible s a) : Merged t.manager := by
  rcases hstep with hcall | ⟨memory, rfl, hkeep, rfl⟩
  · cases a with
    | Allocate size alignment =>
      obtain ⟨hsize, halignment, hholdable⟩ := hsensible
      obtain ⟨⟨m, r⟩, hr, rfl⟩ := Option.map_eq_some_iff.mp hcall
      rcases allocate_cases hr with ⟨address, rfl, hplacement⟩ | ⟨rfl, e, rfl⟩
      · exact merged_placement h hsize halignment hholdable hplacement
      · exact h
    | Free address =>
      obtain ⟨r, hr, rfl⟩ := Option.map_eq_some_iff.mp hcall
      rcases chunk_cases hsensible with hnone | ⟨n, hn⟩
      · obtain rfl := Option.some.inj ((free_unknown hnone).symm.trans hr)
        exact h
      · by_cases hback : MergesBack s.manager address
        · rw [h.free_none hn hback] at hr
          cases hr
        · obtain ⟨m, hm, hmerged, -⟩ := h.free hn hback
          obtain rfl := Option.some.inj (hm.symm.trans hr)
          exact hmerged
    | others memory => cases hcall
  · exact merged_others h hkeep

theorem merged_run {memory : Memory} {run : List (Action × Session)}
    (hrun : IsRun AnyStep (Session.new memory) run)
    (hsensible : ∀ x ∈ transitions (Session.new memory) run, Sensible x.1 x.2.1) :
    ∀ s ∈ states (Session.new memory) run, Merged s.manager :=
  invariant (fun _ _ _ h hstep hs => merged_step h hstep hs) hrun (sound_new memory).merged
    hsensible

end Runs

/-- In every state of every history an address is decided exactly if some chunk starts at it or
after it, and it lies in an allocated chunk only where one starts. While chunks are kept apart the
latter means that it is not inside of one. -/
theorem decides_iff (memory : Memory) {run : List (Action × Session)}
    (hrun : IsRun AnyStep (Session.new memory) run) :
    ∀ s ∈ states (Session.new memory) run, ∀ address < Space,
      (Decides s.manager address ↔ Covered s.manager address ∧
        (InAllocated s.manager address ↔ Starts s.manager address)) ∧
      ((∀ x ∈ transitions (Session.new memory) run, Sensible x.1 x.2.1) →
        (Decides s.manager address ↔
          Covered s.manager address ∧ ¬ Interior s.manager address)) := by
  intro s hs address _
  refine ⟨decides_iff_starts s.manager address, fun hsensible => ?_⟩
  rw [decides_iff_starts, Merged.starts_iff (merged_run hrun hsensible s hs)]

def threeCalls : List Action :=
  [Action.Allocate 100 64, Action.Allocate 5000 1, Action.Free 0xb7fb0000]

theorem decides_threeCalls :
    (trace callAny (Session.new (.new true)) threeCalls).length = 3 ∧
      ∀ s ∈ states (Session.new (.new true)) (trace callAny (Session.new (.new true)) threeCalls),
        ∀ address < Space, (Decides s.manager address ↔
          Covered s.manager address ∧ ¬ Interior s.manager address) :=
  ⟨by decide, fun s hs address haddress =>
    (decides_iff (.new true) (isRun_callAny _ _) s hs address haddress).2 (by decide)⟩

/-- An address inside of a pointer is taken for an invalid one. -/
theorem decides_fails : ¬∀ (memory : Memory) (run : List (Action × Session)),
    IsRun AnyStep (Session.new memory) run → ∀ s ∈ states (Session.new memory) run,
      ∀ address < Space, Decides s.manager address := by
  intro h
  have hstate : ∃ s ∈ states (Session.new (.new true))
      (trace callAny (Session.new (.new true)) threeCalls),
        isValidAddress s.manager 0xb7fb0001 = some false ∧
          s.manager.chunks.find? 0xb7fb0000 = some ⟨100, true⟩ := by decide
  obtain ⟨s, hs, hinvalid, hchunk⟩ := hstate
  obtain ⟨valid, hvalid, hiff⟩ :=
    h (.new true) _ (isRun_callAny _ threeCalls) s hs 0xb7fb0001 (by decide)
  obtain rfl := Option.some.inj (hinvalid.symm.trans hvalid)
  have hinside : InAllocated s.manager 0xb7fb0001 :=
    ⟨0xb7fb0000, 100, hchunk, by decide, by decide⟩
  exact Bool.false_ne_true (hiff.mpr hinside)

end MMLMStore.ValidAddresses
