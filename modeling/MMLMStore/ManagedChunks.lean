import MMLMStore.IntervalTiling
import MMLMStore.MemoryManager
import MMLMStore.StepRuns

/-!
# Chunks of the memory manager

The chunks of a manager tile the pages it has mapped, its holes are the chunks that are not
allocated, and holes are merged as far as they can be. Splitting a hole, merging holes, and mapping
and unmapping pages keep this, so every pointer stays allocated until it is freed.
-/
namespace MMLMStore.ManagedChunks

open PagedMemory hiding Error
open KeyedTable OrderedMaps PageSpace MemoryManager IntervalTiling StepRuns Set

/-- The chunks tile a set of addresses, and the multimap has the holes by size. -/
structure Chunked (s : Manager) (C : Set ℕ) : Prop where
  tiling : Tiling Chunk.size s.chunks.find? C
  nodup : s.holes.entries.Nodup
  holes : ∀ n a, (n, a) ∈ s.holes.entries ↔ s.chunks.find? a = some ⟨n, false⟩

variable {s : Manager} {C : Set ℕ} {a n : ℕ}

/-! Single changes to the tables. -/

theorem Chunked.fresh (h : Chunked s C) (hn : 0 < n) (hfree : ∀ x ∈ Ico a (a + n), x ∉ C) :
    s.chunks.find? a = none := by
  by_contra hsome
  obtain ⟨c, hc⟩ := Option.ne_none_iff_exists'.mp hsome
  exact hfree a ⟨le_rfl, Nat.lt_add_of_pos_right hn⟩ (h.tiling.mem hc)

theorem find?_inserted {t : Table ℕ Chunk} {c : Chunk} (h : t.find? a = none) :
    (t.insert a c).find? = fun b => if b = a then some c else t.find? b := by
  funext b
  rw [Table.find?_insert, h]
  rfl

theorem find?_erased (t : Table ℕ Chunk) (a : ℕ) :
    (erase t a).find? = fun b => if b = a then none else t.find? b :=
  funext fun b => find?_erase b

theorem inserted_eq_some_iff {old : Option Chunk} {b : ℕ} {c d : Chunk} :
    (if b = a then some c else old) = some d ↔ b = a ∧ d = c ∨ b ≠ a ∧ old = some d := by
  by_cases hba : b = a
  · simp [hba, eq_comm]
  · simp [hba]

theorem erased_eq_some_iff {old : Option Chunk} {b : ℕ} {d : Chunk} :
    (if b = a then none else old) = some d ↔ b ≠ a ∧ old = some d := by
  by_cases hba : b = a
  · simp [hba]
  · simp [hba]

theorem hole_ne_allocated {c : Chunk} (hc : c.is_allocated = true) (n : ℕ) :
    some (⟨n, false⟩ : Chunk) ≠ some c := by
  intro heq
  rw [← Option.some.inj heq] at hc
  cases hc

theorem Chunked.createHole (h : Chunked s C) (hn : 0 < n)
    (hfree : ∀ x ∈ Ico a (a + n), x ∉ C) :
    Chunked (s.CreateHole a n) (C ∪ Ico a (a + n)) ∧
      (s.CreateHole a n).chunks.find? =
        fun b => if b = a then some ⟨n, false⟩ else s.chunks.find? b := by
  have hnone := h.fresh hn hfree
  have hfind : (s.CreateHole a n).chunks.find? =
      fun b => if b = a then some ⟨n, false⟩ else s.chunks.find? b := find?_inserted hnone
  have hperm : (s.CreateHole a n).holes.entries.Perm ((n, a) :: s.holes.entries) :=
    s.holes.perm_insert n a
  refine ⟨⟨?_, ?_, fun k b => ?_⟩, hfind⟩
  · rw [hfind]
    exact h.tiling.insert (v := ⟨n, false⟩) hn hfree
  · refine hperm.nodup_iff.mpr (List.nodup_cons.mpr ⟨?_, h.nodup⟩)
    rw [h.holes, hnone]
    simp
  · rw [hperm.mem_iff, List.mem_cons, h.holes, hfind]
    by_cases hb : b = a
    · simp [hb, hnone, eq_comm]
    · simp [hb]

theorem Chunked.createPointer (h : Chunked s C) (hn : 0 < n)
    (hfree : ∀ x ∈ Ico a (a + n), x ∉ C) :
    Chunked (s.CreatePointer a n) (C ∪ Ico a (a + n)) ∧
      (s.CreatePointer a n).chunks.find? =
        fun b => if b = a then some ⟨n, true⟩ else s.chunks.find? b := by
  have hnone := h.fresh hn hfree
  have hfind : (s.CreatePointer a n).chunks.find? =
      fun b => if b = a then some ⟨n, true⟩ else s.chunks.find? b := find?_inserted hnone
  refine ⟨⟨?_, h.nodup, fun k b => ?_⟩, hfind⟩
  · rw [hfind]
    exact h.tiling.insert (v := ⟨n, true⟩) hn hfree
  · change (k, b) ∈ s.holes.entries ↔ _
    rw [h.holes, hfind]
    by_cases hb : b = a
    · simp [hb, hnone]
    · simp [hb]

/-- A hole is created only if it is not empty. -/
theorem Chunked.createHole_if (h : Chunked s C) (hfree : ∀ x ∈ Ico a (a + n), x ∉ C) :
    Chunked (if 0 < n then s.CreateHole a n else s) (C ∪ Ico a (a + n)) ∧
      (if 0 < n then s.CreateHole a n else s).chunks.find? =
        fun b => if b = a ∧ 0 < n then some ⟨n, false⟩ else s.chunks.find? b := by
  rcases Nat.eq_zero_or_pos n with hn | hn
  · subst hn
    simpa using h
  · simpa [hn] using h.createHole hn hfree

theorem Chunked.removePointer (h : Chunked s C) (ha : s.chunks.find? a = some ⟨n, true⟩) :
    Chunked (s.RemovePointer a) (C \ Ico a (a + n)) ∧
      (s.RemovePointer a).chunks.find? = fun b => if b = a then none else s.chunks.find? b := by
  have hfind : (s.RemovePointer a).chunks.find? =
      fun b => if b = a then none else s.chunks.find? b := find?_erased s.chunks a
  refine ⟨⟨?_, h.nodup, fun k b => ?_⟩, hfind⟩
  · rw [hfind]
    exact h.tiling.erase ha
  · change (k, b) ∈ s.holes.entries ↔ _
    rw [h.holes, hfind]
    by_cases hb : b = a
    · simp [hb, ha]
    · simp [hb]

def holeRemoved (s : Manager) (a n : ℕ) : Manager :=
  { s with chunks := erase s.chunks a, holes := s.holes.erase (n, a) }

theorem Chunked.removeHole (h : Chunked s C) (ha : s.chunks.find? a = some ⟨n, false⟩) :
    s.RemoveHole a = some (holeRemoved s a n) ∧ Chunked (holeRemoved s a n) (C \ Ico a (a + n)) ∧
      (holeRemoved s a n).chunks.find? = fun b => if b = a then none else s.chunks.find? b := by
  have hfind : (holeRemoved s a n).chunks.find? =
      fun b => if b = a then none else s.chunks.find? b := find?_erased s.chunks a
  refine ⟨by simp [Manager.RemoveHole, ha, holeRemoved], ⟨?_, h.nodup.erase _, fun k b => ?_⟩,
    hfind⟩
  · rw [hfind]
    exact h.tiling.erase ha
  · change (k, b) ∈ s.holes.entries.erase (n, a) ↔ _
    rw [h.nodup.mem_erase_iff, h.holes, hfind]
    by_cases hb : b = a
    · simp [hb, ha, eq_comm]
    · simp [hb]

/-! Pages mapped and unmapped. -/

/-- Addresses in the pages that the manager has mapped. -/
def mappedSpace (s : Manager) : Set ℕ := {x | s.mapped (pageTag x) = true}

/-- The pages that the manager has mapped are there, and the last page is not one of them. -/
def Backed (s : Manager) : Prop :=
  ∀ tag, s.mapped tag = true →
    tag % PageSize = 0 ∧ tag + PageSize < Space ∧ (s.memory.getPage tag).isSome = true

/-- The manager maps and unmaps pages without looking at its tables. -/
structure SameTables (s s' : Manager) : Prop where
  chunks : s'.chunks = s.chunks
  holes : s'.holes = s.holes

theorem SameTables.chunked {s' : Manager} (h : SameTables s s') (hs : Chunked s C) :
    Chunked s' C := by
  obtain ⟨hchunks, hholes⟩ := h
  refine ⟨hchunks ▸ hs.tiling, hholes ▸ hs.nodup, fun k b => ?_⟩
  rw [hholes, hchunks]
  exact hs.holes k b

theorem getPage_of_mapped (hbacked : Backed s) {x : ℕ} (hx : x ∈ mappedSpace s) :
    (s.memory.getPage x).isSome = true := by
  obtain ⟨htag, -, hpage⟩ := hbacked (pageTag x) hx
  rwa [getPage_congr (pageTag_of_tag htag).symm]

/-- The memory gains the pages that are newly mapped, which it did not have, and loses those that
are mapped no more. -/
structure Accounted (s s' : Manager) : Prop where
  present : ∀ x, (s'.memory.getPage x).isSome = true ↔
    x ∈ mappedSpace s' ∨ ((s.memory.getPage x).isSome = true ∧ x ∉ mappedSpace s)
  fresh : ∀ x ∈ mappedSpace s', x ∈ mappedSpace s ∨ s.memory.getPage x = none

theorem Accounted.refl (hbacked : Backed s) : Accounted s s where
  present x := by
    have hpage := getPage_of_mapped hbacked (x := x)
    tauto
  fresh _ hx := Or.inl hx

theorem Accounted.trans {s' s'' : Manager} (h : Accounted s s') (h' : Accounted s' s'') :
    Accounted s s'' where
  present x := by
    have hfresh := h.fresh x
    rw [← Option.not_isSome_iff_eq_none] at hfresh
    rw [h'.present, h.present]
    tauto
  fresh x hx := by
    have hfresh := h'.fresh x hx
    rw [← Option.not_isSome_iff_eq_none, h.present] at hfresh
    have hfirst := h.fresh x
    rw [← Option.not_isSome_iff_eq_none] at hfirst ⊢
    tauto

theorem accounted_unmap {s' : Manager} (hbacked : Backed s) {p : ℕ → Prop}
    (hgone : ∀ x, p x → x ∈ mappedSpace s)
    (hpages : ∀ x, (s'.memory.getPage x).isSome = true ↔
      (s.memory.getPage x).isSome = true ∧ ¬p x)
    (hmapped : ∀ x, x ∈ mappedSpace s' ↔ x ∈ mappedSpace s ∧ ¬p x) : Accounted s s' where
  present x := by
    have hpage := getPage_of_mapped hbacked (x := x)
    have hgone := hgone x
    rw [hpages, hmapped]
    tauto
  fresh x hx := Or.inl ((hmapped x).mp hx).1

theorem accounted_map {s' : Manager} (hbacked : Backed s) {p : ℕ → Prop}
    (hnew : ∀ x, p x → s.memory.getPage x = none)
    (hpages : ∀ x, (s'.memory.getPage x).isSome = true ↔
      (s.memory.getPage x).isSome = true ∨ p x)
    (hmapped : ∀ x, x ∈ mappedSpace s' ↔ x ∈ mappedSpace s ∨ p x) : Accounted s s' where
  present x := by
    have hpage := getPage_of_mapped hbacked (x := x)
    rw [hpages, hmapped]
    tauto
  fresh x hx := by
    have hnew := hnew x
    rw [hmapped] at hx
    tauto

theorem map_spec (hbacked : Backed s) {size : ℕ} (hsize : 0 < size)
    (ha : a % PageSize = 0) (hspace : a + size ≤ Space) {perm : ℕ} {s' : Manager}
    (h : s.Map a size perm = some s') :
    SameTables s s' ∧ Backed s' ∧
      (∀ tag, s'.mapped tag = true ↔
        s.mapped tag = true ∨ (tag % PageSize = 0 ∧ a ≤ tag ∧ tag < a + size)) ∧
      ∀ x, (s'.memory.getPage x).isSome = true ↔ (s.memory.getPage x).isSome = true ∨
        (pageTag x % PageSize = 0 ∧ a ≤ pageTag x ∧ pageTag x < a + size) := by
  obtain ⟨visited, hvisited, hmap⟩ := Option.bind_eq_some_iff.mp h
  obtain ⟨memory, hmemory, rfl⟩ := Option.map_eq_some_iff.mp hmap
  have hmem := mem_tags hsize hspace hvisited
  rw [pageTag_of_tag ha] at hmem
  have hmapped : ∀ tag, (s.mapped tag || visited.contains tag) = true ↔
      s.mapped tag = true ∨ (tag % PageSize = 0 ∧ a ≤ tag ∧ tag < a + size) := by
    intro tag
    rw [Bool.or_eq_true, List.contains_iff_mem, hmem]
  have hlast : pageTag (a + size - 1) + PageSize < Space :=
    (tags_isSome_iff hsize hspace).mp (by rw [hvisited]; rfl)
  rw [PageSpace.Map, hvisited] at hmemory
  obtain rfl := Option.some.inj hmemory
  have hpages := getPage_foldl_mapPage perm (fun tag htag => ((hmem tag).mp htag).1) s.memory
  refine ⟨⟨rfl, rfl⟩, fun tag htag => ?_, hmapped, fun x => (hpages x).trans (by rw [hmem])⟩
  rcases (hmapped tag).mp htag with htag | ⟨htag, hle, hlt⟩
  · obtain ⟨haligned, hspace', hpage⟩ := hbacked tag htag
    exact ⟨haligned, hspace', (hpages tag).mpr (Or.inl hpage)⟩
  · refine ⟨htag, ?_, (hpages tag).mpr (Or.inr ?_)⟩
    · simp only [pageTag, pageSize_eq, space_eq] at *
      omega
    · rw [pageTag_of_tag htag]
      exact (hmem tag).mpr ⟨htag, hle, hlt⟩

theorem deallocatePage_spec (hbacked : Backed s) {tag : ℕ} (htag : s.mapped tag = true) :
    ∃ s', s.DeallocatePage tag = some s' ∧ SameTables s s' ∧ Backed s' ∧ Accounted s s' ∧
      ∀ t, s'.mapped t = true ↔ s.mapped t = true ∧ t ≠ tag := by
  obtain ⟨haligned, hspace, -⟩ := hbacked tag htag
  have hlast : (tags tag PageSize).isSome = true := by
    rw [tags_isSome_iff pageSize_pos hspace.le]
    simp only [pageTag, pageSize_eq, space_eq] at *
    omega
  obtain ⟨visited, hvisited⟩ := Option.isSome_iff_exists.mp hlast
  have hmem : ∀ t, t ∈ visited ↔ t = tag := by
    intro t
    rw [mem_tags pageSize_pos hspace.le hvisited, pageTag_of_tag haligned]
    simp only [pageSize_eq] at *
    omega
  have hmapped : ∀ t, (s.mapped t && !visited.contains t) = true ↔
      s.mapped t = true ∧ t ≠ tag := by
    intro t
    rw [Bool.and_eq_true, Bool.not_eq_true', ← Bool.not_eq_true, List.contains_iff_mem, hmem]
  have hunmap : PageSpace.Unmap s.memory tag PageSize =
      some (visited.foldl erasePage s.memory) := by
    rw [PageSpace.Unmap, if_pos ⟨haligned, Nat.mod_self PageSize⟩, hvisited, Option.map_some]
  have hdeallocate : s.DeallocatePage tag = some { s with
      memory := visited.foldl erasePage s.memory
      mapped := fun t => s.mapped t && !visited.contains t } := by
    rw [Manager.DeallocatePage, Manager.Unmap, hvisited, Option.bind_some, hunmap,
      Option.map_some]
  have hpages := getPage_foldl_erasePage visited s.memory
  refine ⟨_, hdeallocate, ⟨rfl, rfl⟩, fun t ht => ?_, ?_, hmapped⟩
  · obtain ⟨hold, hne⟩ := (hmapped t).mp ht
    obtain ⟨htaligned, htspace, hpage⟩ := hbacked t hold
    refine ⟨htaligned, htspace, (hpages t).mpr ⟨hpage, ?_⟩⟩
    rw [hmem, pageTag_of_tag htaligned]
    exact hne
  · refine accounted_unmap hbacked (p := fun x => pageTag x = tag) (fun x hx => ?_)
      (fun x => ?_) fun x => hmapped (pageTag x)
    · change s.mapped (pageTag x) = true
      rw [hx, htag]
    · rw [hpages, hmem]

/-! The invariant. -/

/-- A chunk lies in one page, or it is a large pointer with pages of its own. -/
def Fits (a : ℕ) (c : Chunk) : Prop :=
  a + c.size ≤ pageTag a + PageSize ∨
    (c.is_allocated = true ∧ PageSize < c.size ∧ a % PageSize = 0 ∧ c.size % PageSize = 0)

/-- What holds while holes are merged: `P` allows two holes of a page to be adjacent, and `Q` allows
a hole to be a page. -/
structure Loose (P : ℕ → ℕ → Prop) (Q : ℕ → Prop) (s : Manager) : Prop where
  chunked : Chunked s (mappedSpace s)
  backed : Backed s
  fits : ∀ a c, s.chunks.find? a = some c → Fits a c
  apart : ∀ a n b k, s.chunks.find? a = some ⟨n, false⟩ → s.chunks.find? b = some ⟨k, false⟩ →
    a + n = b → pageTag a = pageTag b → P a b
  partly : ∀ a, s.chunks.find? a = some ⟨PageSize, false⟩ → Q a

def Merged (s : Manager) : Prop := Loose (fun _ _ => False) (fun _ => False) s

/-! Merging holes. -/

variable {P : ℕ → ℕ → Prop} {Q : ℕ → Prop}

theorem Loose.mapped (h : Loose P Q s) {c : Chunk} (ha : s.chunks.find? a = some c) :
    s.mapped (pageTag a) = true := h.chunked.tiling.mem ha

theorem Loose.hole_fits (h : Loose P Q s) (ha : s.chunks.find? a = some ⟨n, false⟩) :
    a + n ≤ pageTag a + PageSize := by
  rcases h.fits a _ ha with hfits | hfits
  · exact hfits
  · cases hfits.1

theorem Loose.adjacent (h : Loose P Q s) {b : ℕ} {c d : Chunk} (ha : s.chunks.find? a = some c)
    (hb : s.chunks.find? b = some d) (hlt : a < b)
    (hbetween : ∀ k v, s.chunks.find? k = some v → a < k → b ≤ k)
    (hpage : pageTag a = pageTag b) : a + c.size = b := by
  refine h.chunked.tiling.adjacent ha hb hlt hbetween fun x hle hle' => ?_
  change s.mapped (pageTag x) = true
  rw [pageTag_between hle hle' hpage]
  exact h.mapped ha

structure SamePages (s s' : Manager) : Prop where
  memory : s'.memory = s.memory
  mapped : s'.mapped = s.mapped

theorem SamePages.backed {s' : Manager} (h : SamePages s s') (hs : Backed s) : Backed s' := by
  unfold Backed
  rw [h.memory, h.mapped]
  exact hs

theorem SamePages.mappedSpace {s' : Manager} (h : SamePages s s') :
    mappedSpace s' = ManagedChunks.mappedSpace s := by
  unfold ManagedChunks.mappedSpace
  rw [h.mapped]

def SamePointers (s s' : Manager) : Prop :=
  ∀ b c, c.is_allocated = true → (s'.chunks.find? b = some c ↔ s.chunks.find? b = some c)

theorem SamePointers.trans {s' s'' : Manager} (h : SamePointers s s') (h' : SamePointers s' s'') :
    SamePointers s s'' := fun b c hc => (h' b c hc).trans (h b c hc)

/-- Two holes, one after the other, become one. -/
theorem Chunked.merge2Holes (h : Chunked s C) {k : ℕ} (ha : s.chunks.find? a = some ⟨n, false⟩)
    (hb : s.chunks.find? (a + n) = some ⟨k, false⟩) :
    ∃ s', s.Merge2Holes a (a + n) = some s' ∧ Chunked s' C ∧ SamePages s s' ∧
      ∀ b, s'.chunks.find? b =
        if b = a then some ⟨n + k, false⟩ else if b = a + n then none else s.chunks.find? b := by
  have hn : 0 < n := h.tiling.positive a _ ha
  have hsub_a : Ico a (a + n) ⊆ C := h.tiling.subset ha
  have hsub_b : Ico (a + n) (a + n + k) ⊆ C := h.tiling.subset hb
  obtain ⟨hremove₁, hchunked₁, hfind₁⟩ := h.removeHole hb
  have ha₁ : (holeRemoved s (a + n) k).chunks.find? a = some ⟨n, false⟩ := by
    rw [hfind₁]
    simp [ha, hn.ne']
  obtain ⟨hremove₂, hchunked₂, hfind₂⟩ := hchunked₁.removeHole ha₁
  obtain ⟨hchunked₃, hfind₃⟩ := hchunked₂.createHole (a := a) (n := n + k) (by omega) (by
    intro x hx hmem
    simp only [mem_sdiff, mem_Ico] at hx hmem
    omega)
  have hcover : (C \ Ico (a + n) (a + n + k)) \ Ico a (a + n) ∪ Ico a (a + (n + k)) = C := by
    ext x
    have hxa := @hsub_a x
    have hxb := @hsub_b x
    simp only [mem_union, mem_sdiff, mem_Ico] at hxa hxb ⊢
    constructor
    · rintro (⟨⟨hx, -⟩, -⟩ | hx)
      · exact hx
      · rcases lt_or_ge x (a + n) with hlt | hge
        · exact hxa ⟨hx.1, hlt⟩
        · exact hxb ⟨hge, by omega⟩
    · intro hx
      by_cases hin : a ≤ x ∧ x < a + (n + k)
      · exact Or.inr hin
      · exact Or.inl ⟨⟨hx, by omega⟩, by omega⟩
  rw [hcover] at hchunked₃
  refine ⟨_, ?_, hchunked₃, ⟨rfl, rfl⟩, fun b => ?_⟩
  · simp [Manager.Merge2Holes, ha, hb, hremove₁, hremove₂]
  · rw [hfind₃, hfind₂, hfind₁]
    by_cases hba : b = a <;> simp [hba]

/-- What merging a hole with the chunk after it leaves as it was. -/
structure Kept (s s' : Manager) (a : ℕ) : Prop where
  pointers : SamePointers s s'
  pages : SamePages s s'
  below : ∀ b < a, s'.chunks.find? b = s.chunks.find? b

theorem Kept.refl (s : Manager) (a : ℕ) : Kept s s a :=
  ⟨fun _ _ _ => Iff.rfl, ⟨rfl, rfl⟩, fun _ _ => rfl⟩

/-- Two holes of a page, one after the other, become one: only the chunk before it can be an
adjacent hole. -/
theorem Loose.merge2Holes (h : Loose (fun x y => x = a ∨ y = a) (fun x => x = a) s) {k : ℕ}
    (ha : s.chunks.find? a = some ⟨n, false⟩)
    (hb : s.chunks.find? (a + n) = some ⟨k, false⟩) (hpage : pageTag a = pageTag (a + n)) :
    ∃ s', s.Merge2Holes a (a + n) = some s' ∧ Loose (fun _ y => y = a) (fun x => x = a) s' ∧
      s'.chunks.find? a = some ⟨n + k, false⟩ ∧ Kept s s' a := by
  obtain ⟨s', hmerge, hchunked, hpages, hfind⟩ := h.chunked.merge2Holes ha hb
  rw [← hpages.mappedSpace] at hchunked
  -- the chunks are the new hole and those that stayed
  have hcases : ∀ b c, s'.chunks.find? b = some c →
      (b = a ∧ c = ⟨n + k, false⟩) ∨ (b ≠ a ∧ b ≠ a + n ∧ s.chunks.find? b = some c) := by
    intro b c hc
    rw [hfind] at hc
    rcases inserted_eq_some_iff.mp hc with hnew | ⟨hba, hc⟩
    · exact Or.inl hnew
    · exact Or.inr ⟨hba, erased_eq_some_iff.mp hc⟩
  refine ⟨s', hmerge, ⟨hchunked, hpages.backed h.backed, ?_, ?_, ?_⟩,
    by rw [hfind, if_pos rfl], ?_, hpages, ?_⟩
  · intro b c hc
    rcases hcases b c hc with ⟨rfl, rfl⟩ | ⟨-, -, hc⟩
    · have hfits := h.hole_fits hb
      rw [← hpage, Nat.add_assoc] at hfits
      exact Or.inl hfits
    · exact h.fits b c hc
  · intro b m d l hb' hd hadj htag
    rcases hcases b _ hb' with ⟨rfl, hm⟩ | ⟨hba, hbn, hb'⟩
    · have hm' : m = n + k := congrArg Chunk.size hm
      rcases hcases d _ hd with ⟨rfl, -⟩ | ⟨hda, hdn, hd⟩
      · rfl
      · have hk : 0 < k := h.chunked.tiling.positive (b + n) _ hb
        have hpair := h.apart (b + n) k d l hb hd (by omega) (hpage.symm.trans htag)
        have hn : 0 < n := h.chunked.tiling.positive b _ ha
        omega
    · rcases hcases d _ hd with ⟨rfl, -⟩ | ⟨hda, hdn, hd⟩
      · rfl
      · rcases h.apart b m d l hb' hd hadj htag with rfl | rfl
        · exact absurd rfl hba
        · rfl
  · intro b hb'
    rcases hcases b _ hb' with ⟨rfl, -⟩ | ⟨-, -, hb'⟩
    · rfl
    · exact h.partly b hb'
  · intro b c hc
    -- an allocated chunk is neither of the holes
    have hne := hole_ne_allocated hc
    rw [hfind]
    by_cases hba : b = a
    · rw [if_pos hba, hba, ha]
      exact iff_of_false (hne _) (hne _)
    · rw [if_neg hba]
      by_cases hbn : b = a + n
      · rw [if_pos hbn, hbn, hb]
        exact iff_of_false (by simp) (hne _)
      · rw [if_neg hbn]
  · intro b hlt
    rw [hfind, if_neg hlt.ne, if_neg (by omega)]

/-- After merging forward, only the chunk before the hole can be an adjacent hole. -/
theorem Loose.mergeForward (h : Loose (fun x y => x = a ∨ y = a) (fun x => x = a) s)
    (ha : s.chunks.find? a = some ⟨n, false⟩) :
    ∃ s' k, s.mergeForward a = some s' ∧ Loose (fun _ y => y = a) (fun x => x = a) s' ∧
      s'.chunks.find? a = some ⟨k, false⟩ ∧ Kept s s' a := by
  have hn : 0 < n := h.chunked.tiling.positive a _ ha
  -- a hole that stays behind this one would have been merged
  have hkeep : (∀ b k, next? s.chunks a = some (b, ⟨k, false⟩) → ¬isInSamePage a b) →
      Loose (fun _ y => y = a) (fun x => x = a) s := by
    intro hno
    refine ⟨h.chunked, h.backed, h.fits, fun b m d l hb hd hadj htag => ?_, h.partly⟩
    rcases h.apart b m d l hb hd hadj htag with rfl | hda
    · obtain rfl : m = n := by simpa [ha] using hb.symm
      exfalso
      cases hnext : next? s.chunks b with
      | none =>
        have hle := next?_eq_none hnext hd
        omega
      | some x =>
        obtain ⟨e, c⟩ := x
        obtain ⟨he, hlt, hleast⟩ := next?_eq_some hnext
        have hle := hleast d _ hd (by omega)
        have hge := h.chunked.tiling.disjoint b _ e c hb he hlt
        change b + m ≤ e at hge
        obtain rfl : e = d := by
          change e ≤ d at hle
          omega
        obtain rfl : c = ⟨l, false⟩ := Option.some.inj (he.symm.trans hd)
        exact hno e l hnext (pageTag_eq_iff.mp htag)
    · exact hda
  unfold Manager.mergeForward
  cases hnext : next? s.chunks a with
  | none => exact ⟨s, n, rfl, hkeep (by simp [hnext]), ha, .refl s a⟩
  | some x =>
    obtain ⟨b, c⟩ := x
    by_cases hmerge : isInSamePage a b ∧ c.is_allocated = false
    · obtain ⟨hb, hlt, hleast⟩ := next?_eq_some hnext
      have htag : pageTag a = pageTag b := pageTag_eq_iff.mpr hmerge.1
      obtain rfl : a + n = b := h.adjacent ha hb hlt hleast htag
      obtain ⟨k, _⟩ := c
      obtain rfl := hmerge.2
      obtain ⟨s', hs', hloose, hfind, hkept⟩ := h.merge2Holes ha hb htag
      exact ⟨s', n + k, (if_pos hmerge).trans hs', hloose, hfind, hkept⟩
    · refine ⟨s, n, if_neg hmerge, hkeep fun e k he => ?_, ha, .refl s a⟩
      obtain ⟨rfl, rfl⟩ := Prod.mk.inj (Option.some.inj (hnext.symm.trans he))
      exact fun hpage => hmerge ⟨hpage, rfl⟩

def MergesBack (s : Manager) (a : ℕ) : Prop :=
  ∃ b n, s.chunks.find? b = some ⟨n, false⟩ ∧ b + n = a ∧ isInSamePage a b

/-- Where nothing is merged back, no two holes of a page are adjacent. -/
theorem Loose.mergeBack (h : Loose (fun _ y => y = a) (fun x => x = a) s)
    (ha : s.chunks.find? a = some ⟨n, false⟩) (hback : ¬MergesBack s a) :
    s.mergeBack a = some (s, a) ∧ Loose (fun _ _ => False) (fun x => x = a) s := by
  constructor
  · unfold Manager.mergeBack
    cases hprev : prev? s.chunks a with
    | none => rfl
    | some x =>
      obtain ⟨b, c⟩ := x
      refine if_neg fun hmerge => hback ?_
      obtain ⟨hb, hlt, hgreatest⟩ := prev?_eq_some hprev
      have htag : pageTag b = pageTag a := (pageTag_eq_iff.mpr hmerge.1).symm
      have hbetween : ∀ k v, s.chunks.find? k = some v → b < k → a ≤ k := by
        intro k v hk hbk
        by_contra hno
        have hle := hgreatest k v hk (not_le.mp hno)
        exact absurd hbk (not_lt.mpr hle)
      have hadj := h.adjacent hb ha hlt hbetween htag
      obtain ⟨m, _⟩ := c
      obtain rfl := hmerge.2
      exact ⟨b, m, hb, hadj, hmerge.1⟩
  · refine ⟨h.chunked, h.backed, h.fits, fun b m d l hb hd hadj htag => hback ?_, h.partly⟩
    obtain rfl : d = a := h.apart b m d l hb hd hadj htag
    exact ⟨b, m, hb, hadj, pageTag_eq_iff.mp htag.symm⟩

theorem Chunked.mergeBack_none (h : Chunked s C) (hback : MergesBack s a) :
    s.mergeBack a = none := by
  obtain ⟨b, m, hb, hadj, hpage⟩ := hback
  have hm : 0 < m := h.tiling.positive b _ hb
  unfold Manager.mergeBack
  cases hprev : prev? s.chunks a with
  | none =>
    have hle := prev?_eq_none hprev hb
    omega
  | some x =>
    obtain ⟨e, c⟩ := x
    obtain ⟨he, hlt, hgreatest⟩ := prev?_eq_some hprev
    have hle := hgreatest b _ hb (by omega)
    obtain rfl : b = e := by
      by_contra hne
      have hge := h.tiling.disjoint b _ e c hb he (lt_of_le_of_ne hle hne)
      change b + m ≤ e at hge
      change e < a at hlt
      omega
    obtain rfl : c = ⟨m, false⟩ := Option.some.inj (he.symm.trans hb)
    exact if_pos ⟨hpage, rfl⟩

/-- The invariant is kept when chunks are only taken away, with their pages. -/
theorem Loose.fewer {P' : ℕ → ℕ → Prop} {Q' : ℕ → Prop} {s' : Manager} (h : Loose P Q s)
    (hchunked : Chunked s' (mappedSpace s')) (hbacked : Backed s')
    (hfewer : ∀ b c, s'.chunks.find? b = some c → s.chunks.find? b = some c)
    (hP : ∀ x y, P x y → P' x y)
    (hQ : ∀ x, s'.chunks.find? x = some ⟨PageSize, false⟩ → Q x → Q' x) : Loose P' Q' s' where
  chunked := hchunked
  backed := hbacked
  fits b c hc := h.fits b c (hfewer b c hc)
  apart b m d l hb hd hadj htag :=
    hP b d (h.apart b m d l (hfewer b _ hb) (hfewer d _ hd) hadj htag)
  partly b hb := hQ b hb (h.partly b (hfewer b _ hb))

/-- A hole that is a page is removed, and its page unmapped. -/
theorem Loose.releasePage (h : Loose (fun _ _ => False) (fun x => x = a) s)
    (ha : s.chunks.find? a = some ⟨n, false⟩) :
    ∃ s', s.releasePage a = some s' ∧ Merged s' ∧ SamePointers s s' ∧ Accounted s s' := by
  by_cases hfull : n = PageSize
  · subst hfull
    have htag : pageTag a = a := by
      have hfits := h.hole_fits ha
      have hle := (pageTag_spec a).2.1
      omega
    have haligned : a % PageSize = 0 := htag ▸ (pageTag_spec a).1
    have hmapped : s.mapped a = true := by
      have hm := h.mapped ha
      rwa [htag] at hm
    obtain ⟨s₁, hdeallocate, htables, hbacked, haccounted, hmapped₁⟩ :=
      deallocatePage_spec h.backed hmapped
    have ha₁ : s₁.chunks.find? a = some ⟨PageSize, false⟩ := by rw [htables.chunks, ha]
    obtain ⟨hremove, hchunked, hfind⟩ := (htables.chunked h.chunked).removeHole ha₁
    have hspace : mappedSpace s \ Ico a (a + PageSize) =
        mappedSpace (holeRemoved s₁ a PageSize) := by
      ext x
      change s.mapped (pageTag x) = true ∧ ¬(a ≤ x ∧ x < a + PageSize) ↔
        s₁.mapped (pageTag x) = true
      rw [hmapped₁, ← pageTag_eq_iff_mem haligned]
    rw [hspace] at hchunked
    rw [htables.chunks] at hfind
    refine ⟨holeRemoved s₁ a PageSize, ?_, h.fewer hchunked hbacked ?_ (fun _ _ => id) ?_, ?_,
      ⟨haccounted.present, haccounted.fresh⟩⟩
    · simp [Manager.releasePage, ha, hdeallocate, hremove]
    · intro b c hc
      simp only [hfind] at hc
      exact (erased_eq_some_iff.mp hc).2
    · rintro x hx rfl
      simp [hfind] at hx
    · intro b c hc
      simp only [hfind]
      by_cases hba : b = a
      · rw [if_pos hba, hba, ha]
        exact iff_of_false (by simp) (hole_ne_allocated hc _)
      · rw [if_neg hba]
  · refine ⟨s, by simp [Manager.releasePage, ha, hfull], ?_, fun _ _ _ => Iff.rfl,
      .refl h.backed⟩
    refine h.fewer h.chunked h.backed (fun _ _ => id) (fun _ _ => id) ?_
    rintro x hx rfl
    rw [ha] at hx
    exact hfull (congrArg Chunk.size (Option.some.inj hx))

theorem SamePages.accounted {s' s'' : Manager} (h : SamePages s s') (h' : Accounted s' s'') :
    Accounted s s'' := by
  obtain ⟨hpresent, hfresh⟩ := h'
  rw [h.memory, h.mappedSpace] at hpresent hfresh
  exact ⟨hpresent, hfresh⟩

theorem MergesBack.congr {s' : Manager} (hbelow : ∀ b < a, s'.chunks.find? b = s.chunks.find? b)
    (hpositive : ∀ b c, s.chunks.find? b = some c → 0 < c.size)
    (hpositive' : ∀ b c, s'.chunks.find? b = some c → 0 < c.size) :
    MergesBack s' a ↔ MergesBack s a := by
  refine exists_congr fun b => exists_congr fun m => ?_
  constructor
  · rintro ⟨hb, rfl, hpage⟩
    have hm : 0 < m := hpositive' b _ hb
    exact ⟨hbelow b (by omega) ▸ hb, rfl, hpage⟩
  · rintro ⟨hb, rfl, hpage⟩
    have hm : 0 < m := hpositive b _ hb
    exact ⟨(hbelow b (by omega)).trans hb, rfl, hpage⟩

theorem Loose.mergeHoles (h : Loose (fun x y => x = a ∨ y = a) (fun x => x = a) s)
    (ha : s.chunks.find? a = some ⟨n, false⟩) (hback : ¬MergesBack s a) :
    ∃ s', s.MergeHoles a = some s' ∧ Merged s' ∧ SamePointers s s' ∧ Accounted s s' := by
  obtain ⟨s₁, k, hforward, hloose₁, ha₁, hkept⟩ := h.mergeForward ha
  have hback₁ : ¬MergesBack s₁ a := by
    rw [MergesBack.congr hkept.below h.chunked.tiling.positive hloose₁.chunked.tiling.positive]
    exact hback
  obtain ⟨hstay, hloose₂⟩ := hloose₁.mergeBack ha₁ hback₁
  obtain ⟨s₂, hrelease, hmerged, hsame, haccounted⟩ := hloose₂.releasePage ha₁
  refine ⟨s₂, ?_, hmerged, hkept.pointers.trans hsame, hkept.pages.accounted haccounted⟩
  simp [Manager.MergeHoles, ha, hforward, hstay, hrelease]

theorem Loose.mergeHoles_none (h : Loose (fun x y => x = a ∨ y = a) (fun x => x = a) s)
    (ha : s.chunks.find? a = some ⟨n, false⟩) (hback : MergesBack s a) :
    s.MergeHoles a = none := by
  obtain ⟨s₁, k, hforward, hloose₁, ha₁, hkept⟩ := h.mergeForward ha
  have hback₁ : MergesBack s₁ a := by
    rw [MergesBack.congr hkept.below h.chunked.tiling.positive hloose₁.chunked.tiling.positive]
    exact hback
  simp [Manager.MergeHoles, ha, hforward, hloose₁.chunked.mergeBack_none hback₁]

/-! Freeing pointers. -/

theorem SameTables.trans {s' s'' : Manager} (h : SameTables s s') (h' : SameTables s' s'') :
    SameTables s s'' := ⟨h'.chunks.trans h.chunks, h'.holes.trans h.holes⟩

/-- The loop of `FreeLarge` over pages that are mapped. -/
theorem deallocatePages_spec (hbacked : Backed s) {k : ℕ}
    (htags : ∀ i, i < k → s.mapped (a + i * PageSize) = true) :
    ∃ s', s.deallocatePages a k = some s' ∧ SameTables s s' ∧ Backed s' ∧ Accounted s s' ∧
      ∀ t, s'.mapped t = true ↔ s.mapped t = true ∧ ∀ i, i < k → t ≠ a + i * PageSize := by
  induction k generalizing s a with
  | zero => exact ⟨s, rfl, ⟨rfl, rfl⟩, hbacked, .refl hbacked, by simp⟩
  | succ k ih =>
    have hfirst : s.mapped a = true := by simpa using htags 0 (by omega)
    obtain ⟨s₁, hdeallocate, htables₁, hbacked₁, haccounted₁, hmapped₁⟩ :=
      deallocatePage_spec hbacked hfirst
    have hnext : ∀ i, a + PageSize + i * PageSize = a + (i + 1) * PageSize := by
      intro i
      rw [Nat.succ_mul]
      omega
    have htags₁ : ∀ i, i < k → s₁.mapped (a + PageSize + i * PageSize) = true := by
      intro i hi
      have hpos := pageSize_pos
      exact (hmapped₁ _).mpr ⟨hnext i ▸ htags (i + 1) (by omega), by omega⟩
    obtain ⟨s₂, hrest, htables₂, hbacked₂, haccounted₂, hmapped₂⟩ := ih hbacked₁ htags₁
    refine ⟨s₂, ?_, htables₁.trans htables₂, hbacked₂, haccounted₁.trans haccounted₂,
      fun t => ?_⟩
    · rw [Manager.deallocatePages, hdeallocate, Option.bind_some, hrest]
    · rw [hmapped₂, hmapped₁]
      constructor
      · rintro ⟨⟨ht, hne⟩, hall⟩
        refine ⟨ht, fun i hi => ?_⟩
        cases i with
        | zero => simpa using hne
        | succ i => exact hnext i ▸ hall i (by omega)
      · rintro ⟨ht, hall⟩
        refine ⟨⟨ht, by simpa using hall 0 (by omega)⟩, fun i hi => ?_⟩
        exact hnext i ▸ hall (i + 1) (by omega)

theorem mem_pages_iff {x : ℕ} (ha : a % PageSize = 0) (hn : n % PageSize = 0) :
    x ∈ Ico a (a + n) ↔ ∃ i, i < n / PageSize ∧ pageTag x = a + i * PageSize := by
  have hmod : ∀ i, (a + i * PageSize) % PageSize = 0 := fun i => by
    rw [Nat.add_mul_mod_self_right]
    exact ha
  have hpages : n / PageSize * PageSize = n := Nat.div_mul_cancel (Nat.dvd_of_mod_eq_zero hn)
  constructor
  · intro hx
    refine ⟨(x - a) / PageSize, Nat.div_lt_div_of_lt_of_dvd (Nat.dvd_of_mod_eq_zero hn) ?_, ?_⟩
    · have hlt := hx.2
      have hle := hx.1
      omega
    · rw [pageTag_eq_iff_mem (hmod _)]
      have hdiv := Nat.div_add_mod' (x - a) PageSize
      have hlt := Nat.mod_lt (x - a) pageSize_pos
      have hle := hx.1
      omega
  · rintro ⟨i, hi, htag⟩
    obtain ⟨hle, hlt⟩ := (pageTag_eq_iff_mem (hmod i)).mp htag
    have hmul : (i + 1) * PageSize ≤ n / PageSize * PageSize := Nat.mul_le_mul_right _ hi
    rw [Nat.succ_mul] at hmul
    exact ⟨by omega, by omega⟩

def LessPointer (s s' : Manager) (a : ℕ) : Prop :=
  ∀ b c, c.is_allocated = true →
    (s'.chunks.find? b = some c ↔ s.chunks.find? b = some c ∧ b ≠ a)

theorem Merged.freeLarge (h : Merged s) (ha : s.chunks.find? a = some ⟨n, true⟩)
    (hlarge : PageSize < n) :
    ∃ s', s.FreeLarge a n = some s' ∧ Merged s' ∧ LessPointer s s' a ∧ Accounted s s' := by
  obtain ⟨haligned, hsize⟩ : a % PageSize = 0 ∧ n % PageSize = 0 := by
    rcases h.fits a _ ha with hfits | hfits
    · have hle := (pageTag_spec a).2.1
      change a + n ≤ _ at hfits
      omega
    · exact hfits.2.2
  have htags : ∀ i, i < n / PageSize → s.mapped (a + i * PageSize) = true := by
    intro i hi
    have hmod : (a + i * PageSize) % PageSize = 0 := by
      rw [Nat.add_mul_mod_self_right]
      exact haligned
    have hmem : a + i * PageSize ∈ Ico a (a + n) :=
      (mem_pages_iff haligned hsize).mpr ⟨i, hi, pageTag_of_tag hmod⟩
    have hmapped : s.mapped (pageTag (a + i * PageSize)) = true :=
      h.chunked.tiling.subset ha hmem
    rwa [pageTag_of_tag hmod] at hmapped
  obtain ⟨s₁, hdeallocate, htables, hbacked, haccounted, hmapped⟩ :=
    deallocatePages_spec h.backed htags
  have ha₁ : s₁.chunks.find? a = some ⟨n, true⟩ := by rw [htables.chunks, ha]
  obtain ⟨hchunked, hfind⟩ := (htables.chunked h.chunked).removePointer ha₁
  have hspace : mappedSpace s \ Ico a (a + n) = mappedSpace (s₁.RemovePointer a) := by
    ext x
    change s.mapped (pageTag x) = true ∧ x ∉ Ico a (a + n) ↔ s₁.mapped (pageTag x) = true
    rw [hmapped, mem_pages_iff haligned hsize]
    simp
  rw [hspace] at hchunked
  rw [htables.chunks] at hfind
  refine ⟨s₁.RemovePointer a, ?_, h.fewer hchunked hbacked ?_ (fun _ _ => id) (fun _ _ => id), ?_,
    ⟨haccounted.present, haccounted.fresh⟩⟩
  · rw [Manager.FreeLarge, hdeallocate, Option.map_some]
  · intro b c hc
    simp only [hfind] at hc
    exact (erased_eq_some_iff.mp hc).2
  · intro b c _
    simp only [hfind]
    rw [erased_eq_some_iff, and_comm]

theorem Merged.freed (h : Merged s) (ha : s.chunks.find? a = some ⟨n, true⟩)
    (hsmall : n ≤ PageSize) :
    Loose (fun x y => x = a ∨ y = a) (fun x => x = a) ((s.RemovePointer a).CreateHole a n) ∧
      ((s.RemovePointer a).CreateHole a n).chunks.find? a = some ⟨n, false⟩ ∧
      LessPointer s ((s.RemovePointer a).CreateHole a n) a := by
  have hsub : Ico a (a + n) ⊆ mappedSpace s := h.chunked.tiling.subset ha
  obtain ⟨hchunked₁, hfind₁⟩ := h.chunked.removePointer ha
  obtain ⟨hchunked, hfind⟩ := hchunked₁.createHole (a := a) (n := n)
    (h.chunked.tiling.positive a _ ha) (fun x hx hmem => hmem.2 hx)
  rw [sdiff_union_of_subset hsub] at hchunked
  have hcases : ∀ b c, ((s.RemovePointer a).CreateHole a n).chunks.find? b = some c →
      b = a ∧ c = ⟨n, false⟩ ∨ b ≠ a ∧ s.chunks.find? b = some c := by
    intro b c hc
    simp only [hfind, hfind₁] at hc
    rcases inserted_eq_some_iff.mp hc with hnew | ⟨-, hc⟩
    · exact Or.inl hnew
    · exact Or.inr (erased_eq_some_iff.mp hc)
  refine ⟨⟨hchunked, h.backed, fun b c hc => ?_, fun b m d l hb hd hadj htag => ?_,
    fun b hb => ?_⟩, by simp [hfind], fun b c hc => ?_⟩
  · rcases hcases b c hc with ⟨rfl, rfl⟩ | ⟨-, hc⟩
    · rcases h.fits b _ ha with hfits | hfits
      · exact Or.inl hfits
      · exact absurd hfits.2.1 (not_lt.mpr hsmall)
    · exact h.fits b c hc
  · rcases hcases b _ hb with ⟨hba, -⟩ | ⟨-, hb⟩
    · exact Or.inl hba
    · rcases hcases d _ hd with ⟨hda, -⟩ | ⟨-, hd⟩
      · exact Or.inr hda
      · exact (h.apart b m d l hb hd hadj htag).elim
  · rcases hcases b _ hb with ⟨hba, -⟩ | ⟨-, hb⟩
    · exact hba
    · exact (h.partly b hb).elim
  · simp only [hfind, hfind₁]
    by_cases hba : b = a
    · rw [if_pos hba]
      exact iff_of_false (hole_ne_allocated hc _) fun hno => hno.2 hba
    · simp [hba]

theorem Merged.mergesBack_freed (h : Merged s) (ha : s.chunks.find? a = some ⟨n, true⟩)
    (hsmall : n ≤ PageSize) :
    MergesBack ((s.RemovePointer a).CreateHole a n) a ↔ MergesBack s a := by
  refine MergesBack.congr (fun b hlt => ?_) h.chunked.tiling.positive
    (h.freed ha hsmall).1.chunked.tiling.positive
  obtain ⟨hchunked, hfind⟩ := h.chunked.removePointer ha
  obtain ⟨-, hfind'⟩ := hchunked.createHole (a := a) (n := n) (h.chunked.tiling.positive a _ ha)
    (fun x hx hmem => hmem.2 hx)
  simp only [hfind', hfind, if_neg hlt.ne]

theorem Merged.free (h : Merged s) (ha : s.chunks.find? a = some ⟨n, true⟩)
    (hback : ¬MergesBack s a) :
    ∃ s', s.Free a = some (s', .ok ()) ∧ Merged s' ∧ LessPointer s s' a ∧ Accounted s s' := by
  by_cases hlarge : PageSize < n
  · obtain ⟨s', hfree, hmerged, hless, haccounted⟩ := h.freeLarge ha hlarge
    refine ⟨s', ?_, hmerged, hless, haccounted⟩
    simp [Manager.Free, ha, hlarge, hfree]
  · have hsmall := not_lt.mp hlarge
    obtain ⟨hloose, ha₁, hless⟩ := h.freed ha hsmall
    rw [← h.mergesBack_freed ha hsmall] at hback
    obtain ⟨s', hmerge, hmerged, hsame, haccounted⟩ := hloose.mergeHoles ha₁ hback
    have hpages : SamePages s ((s.RemovePointer a).CreateHole a n) := ⟨rfl, rfl⟩
    refine ⟨s', ?_, hmerged, fun b c hc => (hsame b c hc).trans (hless b c hc),
      hpages.accounted haccounted⟩
    simp [Manager.Free, ha, hlarge, hmerge]

/-- A pointer behind a hole of its page is not freed. -/
theorem Merged.free_none (h : Merged s) (ha : s.chunks.find? a = some ⟨n, true⟩)
    (hback : MergesBack s a) : s.Free a = none := by
  have hsmall : n ≤ PageSize := by
    by_contra hlarge
    obtain ⟨b, m, hb, hadj, hpage⟩ := hback
    have hm : 0 < m := h.chunked.tiling.positive b _ hb
    -- a large pointer starts a page
    rcases h.fits a _ ha with hfits | ⟨-, -, haligned, -⟩
    · have hle := (pageTag_spec a).2.1
      change a + n ≤ _ at hfits
      omega
    · have htag := pageTag_eq_iff.mpr hpage
      rw [pageTag_of_tag haligned] at htag
      have hle := (pageTag_spec b).2.1
      omega
  obtain ⟨hloose, ha₁, -⟩ := h.freed ha hsmall
  rw [← h.mergesBack_freed ha hsmall] at hback
  simp [Manager.Free, ha, not_lt.mpr hsmall, hloose.mergeHoles_none ha₁ hback]

theorem Merged.free_returns_iff (h : Merged s) (ha : s.chunks.find? a = some ⟨n, true⟩) :
    (∃ s', s.Free a = some (s', .ok ())) ↔ ¬MergesBack s a := by
  constructor
  · intro hreturns hback
    obtain ⟨s', hs'⟩ := hreturns
    rw [h.free_none ha hback] at hs'
    cases hs'
  · intro hback
    obtain ⟨s', hs', -⟩ := h.free ha hback
    exact ⟨s', hs'⟩

/-! Allocating pointers. -/

theorem le_getNextAlignedAddress {alignment : ℕ} (halignment : 0 < alignment) (a : ℕ) :
    a ≤ getNextAlignedAddress a alignment := by
  have hdiv := Nat.div_add_mod' (a + alignment - 1) alignment
  have hlt := Nat.mod_lt (a + alignment - 1) halignment
  unfold getNextAlignedAddress ceil
  omega

def MorePointer (s s' : Manager) (a n : ℕ) : Prop :=
  ∀ b c, c.is_allocated = true →
    (s'.chunks.find? b = some c ↔ s.chunks.find? b = some c ∨ b = a ∧ c = ⟨n, true⟩)

/-- A hole of `m` bytes at `a` became a hole of `gap` bytes, a pointer of `n` bytes and a hole of
what is left. -/
structure Split (s s' : Manager) (a m gap n : ℕ) : Prop where
  hole : s.chunks.find? a = some ⟨m, false⟩
  positive : 0 < n
  room : gap + n ≤ m
  find?_eq : ∀ b, s'.chunks.find? b =
    if b = a + gap then some ⟨n, true⟩
    else if b = a + gap + n ∧ 0 < m - n - gap then some ⟨m - n - gap, false⟩
    else if b = a ∧ 0 < gap then some ⟨gap, false⟩
    else if b = a then none else s.chunks.find? b

theorem Chunked.allocateIn (h : Chunked s C) {m alignment : ℕ}
    (ha : s.chunks.find? a = some ⟨m, false⟩) (hm : m < Space) (hn : 0 < n)
    (halignment : 0 < alignment) (hfit : n + (getNextAlignedAddress a alignment - a) ≤ m) :
    ∃ s' gap, getNextAlignedAddress a alignment = a + gap ∧
      s.AllocateIn a n alignment = some (s', a + gap) ∧ Chunked s' C ∧ SamePages s s' ∧
      Split s s' a m gap n := by
  obtain ⟨gap, hgap⟩ := Nat.exists_eq_add_of_le (le_getNextAlignedAddress halignment a)
  have hgap' : getNextAlignedAddress a alignment - a = gap := by omega
  rw [hgap'] at hfit
  have hsub : Ico a (a + m) ⊆ C := h.tiling.subset ha
  obtain ⟨hremove, hchunked₁, hfind₁⟩ := h.removeHole ha
  obtain ⟨hchunked₂, hfind₂⟩ := hchunked₁.createHole_if (a := a) (n := gap) (by
    intro x hx hmem
    simp only [mem_sdiff, mem_Ico] at hx hmem
    omega)
  obtain ⟨hchunked₃, hfind₃⟩ := hchunked₂.createHole_if (a := a + gap + n) (n := m - n - gap) (by
    intro x hx hmem
    simp only [mem_union, mem_sdiff, mem_Ico] at hx hmem
    omega)
  obtain ⟨hchunked₄, hfind₄⟩ := hchunked₃.createPointer (a := a + gap) hn (by
    intro x hx hmem
    simp only [mem_union, mem_sdiff, mem_Ico] at hx hmem
    omega)
  have hcover : C \ Ico a (a + m) ∪ Ico a (a + gap) ∪
      Ico (a + gap + n) (a + gap + n + (m - n - gap)) ∪ Ico (a + gap) (a + gap + n) = C := by
    ext x
    have hx := @hsub x
    simp only [mem_union, mem_sdiff, mem_Ico] at hx ⊢
    by_cases hin : a ≤ x ∧ x < a + m
    · refine iff_of_true ?_ (hx hin)
      omega
    · constructor
      · rintro (((hx | hx) | hx) | hx)
        · exact hx.1
        all_goals omega
      · exact fun hx => Or.inl (Or.inl (Or.inl ⟨hx, hin⟩))
  rw [hcover] at hchunked₄
  refine ⟨_, gap, hgap, ?_, hchunked₄, ?_, ha, hn, by omega, fun b => ?_⟩
  · have hrest : (Space + m - n - gap) % Space = m - n - gap := by
      rw [show Space + m - n - gap = m - n - gap + Space by omega, Nat.add_mod_right,
        Nat.mod_eq_of_lt (by omega)]
    simp [Manager.AllocateIn, ha, hremove, hgap, hrest]
  · constructor <;> split_ifs <;> rfl
  · simp only [hfind₄, hfind₃, hfind₂, hfind₁]

section Split

variable {s' : Manager} {m gap b : ℕ} {c : Chunk}

theorem Split.cases (h : Split s s' a m gap n) (hc : s'.chunks.find? b = some c) :
    (b = a + gap ∧ c = ⟨n, true⟩) ∨
      (b = a + gap + n ∧ 0 < m - n - gap ∧ c = ⟨m - n - gap, false⟩) ∨
      (b = a ∧ 0 < gap ∧ c = ⟨gap, false⟩) ∨ (b ≠ a ∧ s.chunks.find? b = some c) := by
  rw [h.find?_eq] at hc
  split_ifs at hc with hpointer hbehind hfront hhole
  · exact Or.inl ⟨hpointer, (Option.some.inj hc).symm⟩
  · exact Or.inr (Or.inl ⟨hbehind.1, hbehind.2, (Option.some.inj hc).symm⟩)
  · exact Or.inr (Or.inr (Or.inl ⟨hfront.1, hfront.2, (Option.some.inj hc).symm⟩))
  · exact Or.inr (Or.inr (Or.inr ⟨hhole, hc⟩))

theorem Split.hole_cases (h : Split s s' a m gap n) {k : ℕ}
    (hb : s'.chunks.find? b = some ⟨k, false⟩) :
    (b = a + gap + n ∧ k = m - n - gap ∧ 0 < k) ∨ (b = a ∧ k = gap ∧ 0 < k) ∨
      (b ≠ a ∧ s.chunks.find? b = some ⟨k, false⟩) := by
  rcases h.cases hb with ⟨-, hc⟩ | ⟨hb', hk, hc⟩ | ⟨hb', hk, hc⟩ | hold
  · cases congrArg Chunk.is_allocated hc
  · have hsize : k = m - n - gap := congrArg Chunk.size hc
    exact Or.inl ⟨hb', hsize, hsize ▸ hk⟩
  · have hsize : k = gap := congrArg Chunk.size hc
    exact Or.inr (Or.inl ⟨hb', hsize, hsize ▸ hk⟩)
  · exact Or.inr (Or.inr hold)

theorem Loose.away (h : Loose P Q s) (ha : s.chunks.find? a = some ⟨m, false⟩)
    (hb : s.chunks.find? b = some c) (hba : b ≠ a) :
    0 < c.size ∧ (b + c.size ≤ a ∨ a + m ≤ b) :=
  ⟨h.chunked.tiling.positive b c hb, h.chunked.tiling.away ha hb hba⟩

theorem Loose.pageTag_hole (h : Loose P Q s) (ha : s.chunks.find? a = some ⟨m, false⟩)
    (hab : a ≤ b) (hbm : b < a + m) : pageTag b = pageTag a :=
  pageTag_eq (pageTag_spec a).1 ((pageTag_spec a).2.1.trans hab) (hbm.trans_le (h.hole_fits ha))

/-- The pieces lie in the page of the hole. -/
theorem Split.fits (hsplit : Split s s' a m gap n) (h : Loose P Q s)
    (hc : s'.chunks.find? b = some c) : Fits b c := by
  have hfits := h.hole_fits hsplit.hole
  have hroom := hsplit.room
  have hpositive := hsplit.positive
  rcases hsplit.cases hc with ⟨rfl, rfl⟩ | ⟨rfl, hk, rfl⟩ | ⟨rfl, hk, rfl⟩ | ⟨-, hc⟩
  · refine Or.inl ?_
    rw [h.pageTag_hole hsplit.hole (by omega) (by omega)]
    change a + gap + n ≤ _
    omega
  · refine Or.inl ?_
    rw [h.pageTag_hole hsplit.hole (by omega) (by omega)]
    change a + gap + n + (m - n - gap) ≤ _
    omega
  · refine Or.inl ?_
    change b + gap ≤ _
    omega
  · exact h.fits b c hc

/-- The pointer is between the new holes, and an old hole next to one of them was next to the hole
that was split. -/
theorem Split.apart (hsplit : Split s s' a m gap n) (h : Loose (fun _ _ => False) Q s) {k d l : ℕ}
    (hb : s'.chunks.find? b = some ⟨k, false⟩) (hd : s'.chunks.find? d = some ⟨l, false⟩)
    (hadj : b + k = d) : pageTag b ≠ pageTag d := by
  intro htag
  have ha := hsplit.hole
  have hroom := hsplit.room
  have hpositive := hsplit.positive
  rcases hsplit.hole_cases hb with ⟨hb', hk, hpos⟩ | ⟨hb', hk, hpos⟩ | ⟨hba, hb'⟩
  · rcases hsplit.hole_cases hd with ⟨hd', -, -⟩ | ⟨hd', -, -⟩ | ⟨-, hd'⟩
    · omega
    · omega
    · refine h.apart a m d l ha hd' (by omega) ?_
      rw [← htag, hb']
      exact (h.pageTag_hole ha (by omega) (by omega)).symm
  · rcases hsplit.hole_cases hd with ⟨hd', -, -⟩ | ⟨hd', -, -⟩ | ⟨hda, hd'⟩
    · omega
    · omega
    · obtain ⟨hl, haway⟩ := h.away ha hd' hda
      change 0 < l at hl
      change d + l ≤ a ∨ a + m ≤ d at haway
      omega
  · obtain ⟨hpos, haway⟩ := h.away ha hb' hba
    change 0 < k at hpos
    change b + k ≤ a ∨ a + m ≤ b at haway
    rcases hsplit.hole_cases hd with ⟨hd', -, -⟩ | ⟨hd', -, -⟩ | ⟨-, hd'⟩
    · omega
    · rw [hd'] at hadj htag
      exact h.apart b k a m hb' ha hadj htag
    · exact h.apart b k d l hb' hd' hadj htag

theorem Split.partly (hsplit : Split s s' a m gap n) (h : Loose P (fun x => x = a) s) (b : ℕ) :
    s'.chunks.find? b ≠ some ⟨PageSize, false⟩ := by
  intro hb
  have hfits := h.hole_fits hsplit.hole
  have htag := (pageTag_spec a).2.1
  have hroom := hsplit.room
  have hpositive := hsplit.positive
  rcases hsplit.hole_cases hb with ⟨-, hk, -⟩ | ⟨-, hk, -⟩ | ⟨hba, hb'⟩
  · omega
  · omega
  · exact hba (h.partly b hb')

theorem Split.morePointer (hsplit : Split s s' a m gap n) (h : Loose P Q s) :
    MorePointer s s' (a + gap) n := by
  intro b c hc
  have hroom := hsplit.room
  have hpositive := hsplit.positive
  constructor
  · intro hb
    rcases hsplit.cases hb with hnew | ⟨-, -, rfl⟩ | ⟨-, -, rfl⟩ | ⟨-, hb⟩
    · exact Or.inr hnew
    · cases hc
    · cases hc
    · exact Or.inl hb
  · rintro (hb | ⟨rfl, rfl⟩)
    · have hba : b ≠ a := by
        rintro rfl
        exact hole_ne_allocated hc m (hsplit.hole.symm.trans hb)
      obtain ⟨hpos, haway⟩ := h.away hsplit.hole hb hba
      rw [hsplit.find?_eq, if_neg (by omega), if_neg (by omega), if_neg (by tauto), if_neg hba]
      exact hb
    · rw [hsplit.find?_eq, if_pos rfl]

theorem Split.unallocated (hsplit : Split s s' a m gap n) (h : Loose P Q s)
    (hc : s.chunks.find? (a + gap) = some c) : c.is_allocated = false := by
  have hroom := hsplit.room
  have hpositive := hsplit.positive
  by_cases hzero : gap = 0
  · subst hzero
    obtain rfl := Option.some.inj (hsplit.hole.symm.trans hc)
    rfl
  · obtain ⟨hpos, haway⟩ := h.away hsplit.hole hc (by omega)
    omega

end Split

/-- Allocating in a hole; the hole may be a whole page. -/
theorem Loose.allocateIn (h : Loose (fun _ _ => False) (fun x => x = a) s) {m alignment : ℕ}
    (ha : s.chunks.find? a = some ⟨m, false⟩) (hn : 0 < n) (halignment : 0 < alignment)
    (hfit : n + (getNextAlignedAddress a alignment - a) ≤ m) :
    ∃ s' b, getNextAlignedAddress a alignment = b ∧ s.AllocateIn a n alignment = some (s', b) ∧
      Merged s' ∧ MorePointer s s' b n ∧
      (∀ c, s.chunks.find? b = some c → c.is_allocated = false) ∧ SamePages s s' := by
  have hm : m < Space := by
    have hpage := h.hole_fits ha
    have htag := (pageTag_spec a).2.1
    have hspace : PageSize < Space := by decide
    omega
  obtain ⟨s', gap, hgap, hallocate, hchunked, hpages, hsplit⟩ :=
    h.chunked.allocateIn ha hm hn halignment hfit
  rw [← hpages.mappedSpace] at hchunked
  have hmerged : Merged s' := by
    refine ⟨hchunked, hpages.backed h.backed, fun b c hc => hsplit.fits h hc, ?_, hsplit.partly h⟩
    intro b k d l hb hd hadj htag
    exact hsplit.apart h hb hd hadj htag
  exact ⟨s', a + gap, hgap, hallocate, hmerged, hsplit.morePointer h,
    fun c hc => hsplit.unallocated h hc, hpages⟩

theorem map_fresh (hbacked : Backed s) {size perm : ℕ} (hsize : 0 < size)
    (hfree : FreeSpace s.memory a n) (hn : n % PageSize = 0) (hle : size ≤ n)
    (hlt : n < size + PageSize) {s' : Manager} (hmap : s.Map a size perm = some s') :
    SameTables s s' ∧ Backed s' ∧ (∀ x ∈ Ico a (a + n), x ∉ mappedSpace s) ∧
      mappedSpace s ∪ Ico a (a + n) = mappedSpace s' ∧ Accounted s s' := by
  have haligned := hfree.aligned
  have hspace := hfree.space
  obtain ⟨htables, hbacked', hmapped, hpages⟩ :=
    map_spec hbacked hsize haligned (by omega) hmap
  have hrange : ∀ x, x ∈ Ico a (a + n) ↔
      pageTag x % PageSize = 0 ∧ a ≤ pageTag x ∧ pageTag x < a + size := by
    intro x
    simp only [mem_Ico, pageTag, pageSize_eq] at *
    omega
  have hunion : ∀ x, x ∈ mappedSpace s' ↔ x ∈ mappedSpace s ∨ x ∈ Ico a (a + n) := by
    intro x
    rw [hrange]
    exact hmapped (pageTag x)
  refine ⟨htables, hbacked', fun x hx hmem => ?_, ?_, ?_⟩
  · have hpage := getPage_of_mapped hbacked hmem
    rw [hfree.unmapped x hx.1 hx.2] at hpage
    cases hpage
  · ext x
    rw [mem_union, hunion]
  · refine accounted_map hbacked (fun x hx => hfree.unmapped x hx.1 hx.2) (fun x => ?_) hunion
    rw [hpages, hrange]

theorem SamePointers.refl (s : Manager) : SamePointers s s := fun _ _ _ => Iff.rfl

theorem Merged.withPage (h : Merged s) (hfree : FreeSpace s.memory a PageSize) {perm : ℕ}
    {s' : Manager} (hmap : s.Map a PageSize perm = some s') :
    Loose (fun _ _ => False) (fun x => x = a) (s'.CreateHole a PageSize) ∧
      (s'.CreateHole a PageSize).chunks.find? a = some ⟨PageSize, false⟩ ∧
      SamePointers s (s'.CreateHole a PageSize) ∧ s.chunks.find? a = none ∧
      Accounted s (s'.CreateHole a PageSize) := by
  have hpos := pageSize_pos
  obtain ⟨htables, hbacked, hnew, hunion, haccounted⟩ := map_fresh h.backed hpos hfree
    (Nat.mod_self PageSize) le_rfl (by omega) hmap
  have hnone := h.chunked.fresh hpos hnew
  obtain ⟨hchunked, hfind⟩ := (htables.chunked h.chunked).createHole hpos hnew
  rw [htables.chunks] at hfind
  rw [hunion] at hchunked
  have hcases : ∀ b c, (s'.CreateHole a PageSize).chunks.find? b = some c →
      b = a ∧ c = ⟨PageSize, false⟩ ∨ b ≠ a ∧ s.chunks.find? b = some c := by
    intro b c hc
    simp only [hfind] at hc
    exact inserted_eq_some_iff.mp hc
  have htag_a : pageTag a = a := pageTag_of_tag hfree.aligned
  refine ⟨⟨hchunked, hbacked, fun b c hc => ?_, fun b m d l hb hd hadj htag => ?_, fun b hb => ?_⟩,
    by simp [hfind], fun b c hc => ?_, hnone, haccounted.present, haccounted.fresh⟩
  · rcases hcases b c hc with ⟨rfl, rfl⟩ | ⟨-, hc⟩
    · refine Or.inl ?_
      rw [htag_a]
    · exact h.fits b c hc
  · rcases hcases b _ hb with ⟨hba, hm⟩ | ⟨hba, hb⟩
    · have hm' : m = PageSize := congrArg Chunk.size hm
      rw [hba, htag_a] at htag
      have hlt := (pageTag_spec d).2.2
      omega
    · rcases hcases d _ hd with ⟨hda, -⟩ | ⟨hda, hd⟩
      · have hm : 0 < m := h.chunked.tiling.positive b _ hb
        rw [hda, htag_a] at htag
        have hle := (pageTag_spec b).2.1
        omega
      · exact h.apart b m d l hb hd hadj htag
  · rcases hcases b _ hb with ⟨hba, -⟩ | ⟨-, hb⟩
    · exact hba
    · exact (h.partly b hb).elim
  · simp only [hfind]
    by_cases hba : b = a
    · rw [if_pos hba, hba, hnone]
      exact iff_of_false (hole_ne_allocated hc _) (by simp)
    · rw [if_neg hba]

theorem Merged.withLarge (h : Merged s) {size perm : ℕ} (hsize : PageSize < size)
    (hfree : FreeSpace s.memory a n) (hn : n % PageSize = 0) (hle : size ≤ n)
    (hlt : n < size + PageSize) {s' : Manager} (hmap : s.Map a size perm = some s') :
    Merged (s'.CreatePointer a n) ∧ MorePointer s (s'.CreatePointer a n) a n ∧
      s.chunks.find? a = none ∧ Accounted s (s'.CreatePointer a n) := by
  have hpos : 0 < n := by omega
  obtain ⟨htables, hbacked, hnew, hunion, haccounted⟩ :=
    map_fresh h.backed (by omega) hfree hn hle hlt hmap
  have hnone := h.chunked.fresh hpos hnew
  obtain ⟨hchunked, hfind⟩ := (htables.chunked h.chunked).createPointer hpos hnew
  rw [htables.chunks] at hfind
  rw [hunion] at hchunked
  have hcases : ∀ b c, (s'.CreatePointer a n).chunks.find? b = some c →
      b = a ∧ c = ⟨n, true⟩ ∨ b ≠ a ∧ s.chunks.find? b = some c := by
    intro b c hc
    simp only [hfind] at hc
    exact inserted_eq_some_iff.mp hc
  have hhole : ∀ b k, (s'.CreatePointer a n).chunks.find? b = some ⟨k, false⟩ →
      s.chunks.find? b = some ⟨k, false⟩ := by
    intro b k hb
    rcases hcases b _ hb with ⟨-, hc⟩ | ⟨-, hb⟩
    · cases congrArg Chunk.is_allocated hc
    · exact hb
  refine ⟨⟨hchunked, hbacked, fun b c hc => ?_, fun b m d l hb hd => ?_, fun b hb => ?_⟩,
    fun b c hc => ?_, hnone, haccounted.present, haccounted.fresh⟩
  · rcases hcases b c hc with ⟨rfl, rfl⟩ | ⟨-, hc⟩
    · exact Or.inr ⟨rfl, hsize.trans_le hle, hfree.aligned, hn⟩
    · exact h.fits b c hc
  · exact h.apart b m d l (hhole b m hb) (hhole d l hd)
  · exact h.partly b (hhole b _ hb)
  · simp only [hfind]
    by_cases hba : b = a
    · subst hba
      simp [hnone, eq_comm]
    · simp [hba]

theorem ceil_spec {size : ℕ} (hsize : 0 < size) :
    ceil size PageSize * PageSize % PageSize = 0 ∧ size ≤ ceil size PageSize * PageSize ∧
      ceil size PageSize * PageSize < size + PageSize := by
  refine ⟨Nat.mul_mod_left _ _, ?_, ?_⟩
  all_goals
    simp only [ceil, pageSize_eq]
    omega

theorem getNextAlignedAddress_of_dvd {alignment : ℕ} (halignment : 0 < alignment)
    (hdvd : alignment ∣ a) : getNextAlignedAddress a alignment = a := by
  obtain ⟨k, rfl⟩ := hdvd
  have hdiv : (alignment * k + alignment - 1) / alignment = k := by
    rw [Nat.add_sub_assoc halignment, Nat.mul_add_div halignment,
      Nat.div_eq_of_lt (by omega), Nat.add_zero]
  rw [getNextAlignedAddress, ceil, hdiv, Nat.mul_comm]

theorem Merged.loose (h : Merged s) (Q : ℕ → Prop) : Loose (fun _ _ => False) Q s :=
  h.fewer h.chunked h.backed (fun _ _ => id) (fun _ _ => id) (fun _ _ => False.elim)

/-- What a call of `Allocate` can do: hand out a new pointer, or throw and change nothing. -/
def Allocated (s : Manager) (size : ℕ) (s' : Manager) : Except Error ℕ → Prop
  | .ok a => Merged s' ∧ (∃ n, size ≤ n ∧ MorePointer s s' a n) ∧
    (∀ c, s.chunks.find? a = some c → c.is_allocated = false) ∧ Accounted s s'
  | .error _ => s' = s

/-- The hole that `Allocate` cuts a small piece out of, if there is one. -/
def holeFor (s : Manager) (size alignment : ℕ) : Option (ℕ × ℕ) :=
  (s.holes.lowerBound size).find? fun hole => s.canHoleContain hole.2 size alignment

/-- What a call of `Allocate` that returns an address has done. -/
inductive Placement (s : Manager) (size alignment : ℕ) : Manager → ℕ → Prop
  | large {address : ℕ} {s' : Manager} (hlarge : PageSize < size)
      (hspace : MapSpaceDown s.memory MapBaseAddress (ceil size PageSize * PageSize) = some address)
      (hfound : address ≠ noSpace) (hmap : s.Map address size 7 = some s') :
      Placement s size alignment (s'.CreatePointer address (ceil size PageSize * PageSize)) address
  | hole {hole : ℕ × ℕ} {s' : Manager} {address : ℕ} (hsmall : ¬PageSize < size)
      (hhole : holeFor s size alignment = some hole)
      (hallocate : s.AllocateIn hole.2 size alignment = some (s', address)) :
      Placement s size alignment s' address
  | page {base b : ℕ} {s' s'' : Manager} (hsmall : ¬PageSize < size)
      (hnone : holeFor s size alignment = none)
      (hspace : MapSpace s.memory MapBaseAddress PageSize = some base) (hfound : base ≠ noSpace)
      (hmap : s.Map base PageSize 7 = some s')
      (hallocate : (s'.CreateHole base PageSize).AllocateIn base size alignment = some (s'', b)) :
      Placement s size alignment s'' base

theorem allocate_cases {size alignment : ℕ} {s' : Manager} {result : Except Error ℕ}
    (hr : s.Allocate size alignment = some (s', result)) :
    (∃ a, result = .ok a ∧ Placement s size alignment s' a) ∨
      s' = s ∧ ∃ e, result = .error e := by
  unfold Manager.Allocate at hr
  split_ifs at hr with hle hlarge
  · obtain ⟨a, hspace, hmap⟩ := Option.bind_eq_some_iff.mp hr
    split_ifs at hmap with ha
    · obtain ⟨rfl, rfl⟩ := Prod.mk.inj (Option.some.inj hmap)
      exact Or.inr ⟨rfl, _, rfl⟩
    · obtain ⟨s₁, hs₁, heq⟩ := Option.map_eq_some_iff.mp hmap
      obtain ⟨rfl, rfl⟩ := Prod.mk.inj heq
      exact Or.inl ⟨a, rfl, .large hlarge hspace ha hs₁⟩
  · cases hfound : holeFor s size alignment with
    | some hole =>
      rw [show (s.holes.lowerBound size).find? _ = some hole from hfound] at hr
      obtain ⟨⟨s₁, b⟩, hallocate, heq⟩ := Option.map_eq_some_iff.mp hr
      obtain ⟨rfl, rfl⟩ := Prod.mk.inj heq
      exact Or.inl ⟨b, rfl, .hole hlarge hfound hallocate⟩
    | none =>
      rw [show (s.holes.lowerBound size).find? _ = none from hfound] at hr
      obtain ⟨⟨s₁, page⟩, hpage, hr⟩ := Option.bind_eq_some_iff.mp hr
      obtain ⟨a, hspace, hmap⟩ := Option.bind_eq_some_iff.mp hpage
      split_ifs at hmap with ha
      · obtain ⟨rfl, rfl⟩ := Prod.mk.inj (Option.some.inj hmap)
        obtain ⟨rfl, rfl⟩ := Prod.mk.inj (Option.some.inj hr)
        exact Or.inr ⟨rfl, _, rfl⟩
      · obtain ⟨s₂, hs₂, heq⟩ := Option.map_eq_some_iff.mp hmap
        obtain ⟨rfl, rfl⟩ := Prod.mk.inj heq
        obtain ⟨⟨s₃, b⟩, hallocate, heq⟩ := Option.map_eq_some_iff.mp hr
        obtain ⟨rfl, rfl⟩ := Prod.mk.inj heq
        exact Or.inl ⟨a, rfl, .page hlarge hfound hspace ha hs₂ hallocate⟩

/-- A new page for a small piece starts at a multiple of the alignment. -/
def Placed (s : Manager) (size alignment : ℕ) : Prop :=
  ¬PageSize < size → holeFor s size alignment = none →
    ∀ base ∈ MapSpace s.memory MapBaseAddress PageSize, base ≠ noSpace → alignment ∣ base

instance (s : Manager) (size alignment : ℕ) : Decidable (Placed s size alignment) :=
  inferInstanceAs (Decidable (_ → _ → _))

theorem placed_of_dvd {alignment : ℕ} (hdvd : alignment ∣ PageSize) (s : Manager) (size : ℕ) :
    Placed s size alignment := by
  intro _ _ base hbase hfound
  exact hdvd.trans (Nat.dvd_of_mod_eq_zero (mapSpace_spec hbase hfound).aligned)

/-- The hole found is one, and can contain the aligned piece. -/
theorem Merged.holeFor_fits (h : Merged s) {size alignment : ℕ} {hole : ℕ × ℕ}
    (hhole : holeFor s size alignment = some hole) :
    s.chunks.find? hole.2 = some ⟨hole.1, false⟩ ∧
      size + (getNextAlignedAddress hole.2 alignment - hole.2) ≤ hole.1 := by
  have hmem : hole ∈ s.holes.entries :=
    (List.dropWhile_sublist _).subset (List.mem_of_find?_eq_some hhole)
  have hchunk := (h.chunked.holes hole.1 hole.2).mp hmem
  have hcontain : s.canHoleContain hole.2 size alignment = true := by
    simpa using List.find?_some hhole
  simp only [Manager.canHoleContain, hchunk, Option.elim_some, decide_eq_true_eq] at hcontain
  exact ⟨hchunk, hcontain⟩

theorem Merged.placement (h : Merged s) {size alignment : ℕ} (hsize : 0 < size)
    (halignment : 0 < alignment) (hplaced : Placed s size alignment) {s' : Manager}
    (hplacement : Placement s size alignment s' a) : Allocated s size s' (.ok a) := by
  cases hplacement with
  | large hlarge hspace hfound hmap =>
    obtain ⟨hmod, hle, hlt⟩ := ceil_spec hsize
    obtain ⟨hfree, -⟩ := mapSpaceDown_spec (by decide) hspace hfound
    obtain ⟨hmerged, hmore, hnone, haccounted⟩ := h.withLarge hlarge hfree hmod hle hlt hmap
    refine ⟨hmerged, ⟨_, hle, hmore⟩, fun c hc => ?_, haccounted⟩
    rw [hnone] at hc
    cases hc
  | hole hsmall hhole hallocate =>
    obtain ⟨hchunk, hfit⟩ := h.holeFor_fits hhole
    obtain ⟨s₁, b, -, hallocate₁, hmerged, hmore, hfresh, hpages⟩ :=
      (h.loose _).allocateIn hchunk hsize halignment hfit
    obtain ⟨rfl, rfl⟩ := Prod.mk.inj (Option.some.inj (hallocate₁.symm.trans hallocate))
    exact ⟨hmerged, ⟨size, le_rfl, hmore⟩, hfresh, hpages.accounted (.refl hmerged.backed)⟩
  | page hsmall hnone hspace hfound hmap hallocate =>
    obtain ⟨hloose, hchunk, hsame, hfresh, haccounted⟩ :=
      h.withPage (mapSpace_spec hspace hfound) hmap
    have halign := getNextAlignedAddress_of_dvd halignment (hplaced hsmall hnone a hspace hfound)
    obtain ⟨s₁, b, hb, hallocate₁, hmerged, hmore, -, hpages⟩ :=
      hloose.allocateIn hchunk hsize halignment (by rw [halign]; omega)
    obtain ⟨rfl, rfl⟩ := Prod.mk.inj (Option.some.inj (hallocate₁.symm.trans hallocate))
    obtain rfl : a = b := halign.symm.trans hb
    refine ⟨hmerged, ⟨size, le_rfl, fun c d hd => ?_⟩, fun c hc => ?_,
      haccounted.trans (hpages.accounted (.refl hmerged.backed))⟩
    · rw [hmore c d hd, hsame c d hd]
    · rw [hfresh] at hc
      cases hc

theorem Merged.allocate (h : Merged s) {size alignment : ℕ} (hsize : 0 < size)
    (halignment : 0 < alignment) (hplaced : Placed s size alignment)
    {s' : Manager} {result : Except Error ℕ}
    (hr : s.Allocate size alignment = some (s', result)) : Allocated s size s' result := by
  rcases allocate_cases hr with ⟨a, rfl, hplacement⟩ | ⟨rfl, e, rfl⟩
  · exact h.placement hsize halignment hplaced hplacement
  · rfl

theorem map_isSome {size : ℕ} (hsize : 0 < size) (hspace : a + size ≤ Space)
    (hlast : pageTag (a + size - 1) + PageSize < Space) (s : Manager) (perm : ℕ) :
    ∃ s', s.Map a size perm = some s' := by
  obtain ⟨visited, hvisited⟩ :=
    Option.isSome_iff_exists.mp ((tags_isSome_iff hsize hspace).mpr hlast)
  rw [Manager.Map, PageSpace.Map, hvisited]
  exact ⟨_, rfl⟩

theorem allocateLarge_isSome (s : Manager) {size : ℕ} (hsize : PageSize < size) :
    (s.AllocateLarge size).isSome = true := by
  have hpos := pageSize_pos
  obtain ⟨hmod, hle, hlt⟩ := ceil_spec (by omega : 0 < size)
  have hsome : (MapSpaceDown s.memory MapBaseAddress _).isSome = true :=
    mapSpaceDown_isSome s.memory (by decide) hmod (by omega)
  obtain ⟨address, haddress⟩ := Option.isSome_iff_exists.mp hsome
  rw [Manager.AllocateLarge, haddress, Option.bind_some]
  split_ifs with hno
  · rfl
  · have hbase : MapBaseAddress + PageSize ≤ Space := by decide
    obtain ⟨hfree, hend⟩ := mapSpaceDown_spec hbase haddress hno
    have hlast : pageTag (address + size - 1) + PageSize < Space := by
      have htag := (pageTag_spec (address + size - 1)).2.1
      have hbase' : MapBaseAddress + PageSize + PageSize < Space := by decide
      omega
    obtain ⟨s', hs'⟩ := map_isSome (by omega) (by omega) hlast s 7
    rw [hs']
    rfl

/-- A small piece needs a new page, and the one found is the last of the space, where the loop of
`Map` does not end. -/
def NeedsLastPage (s : Manager) (size alignment : ℕ) : Prop :=
  ¬PageSize < size ∧ holeFor s size alignment = none ∧
    MapSpace s.memory MapBaseAddress PageSize = some (Space - PageSize)

theorem map_lastPage (s : Manager) (perm : ℕ) : s.Map (Space - PageSize) PageSize perm = none := by
  have hlast : ¬(tags (Space - PageSize) PageSize).isSome = true := by
    rw [tags_isSome_iff pageSize_pos (by decide)]
    decide
  rw [Manager.Map, Option.not_isSome_iff_eq_none.mp hlast, Option.bind_none]

theorem allocate_lastPage {size alignment : ℕ} (h : NeedsLastPage s size alignment) :
    s.Allocate size alignment = none := by
  obtain ⟨hsmall, hnone, hspace⟩ := h
  have hfound : Space - PageSize ≠ noSpace := by decide
  unfold Manager.Allocate
  rw [show (s.holes.lowerBound size).find? _ = none from hnone, if_neg hsmall]
  simp [Manager.RequestOnePage, hspace, hfound, map_lastPage]

/-- `Allocate` returns, unless it needs a page and the one found is the last one of the space. -/
theorem Merged.allocate_isSome_iff (h : Merged s) {size alignment : ℕ} (hsize : 0 < size)
    (halignment : 0 < alignment) (hdvd : alignment ∣ PageSize) :
    (s.Allocate size alignment).isSome = true ↔ ¬NeedsLastPage s size alignment := by
  constructor
  · intro hsome hlast
    rw [allocate_lastPage hlast] at hsome
    cases hsome
  · intro hlast
    unfold Manager.Allocate
    have hle : alignment ≤ PageSize := Nat.le_of_dvd pageSize_pos hdvd
    rw [if_neg (not_lt.mpr hle)]
    split_ifs with hlarge
    · exact allocateLarge_isSome s hlarge
    · cases hfound : holeFor s size alignment with
      | some hole =>
        rw [show (s.holes.lowerBound size).find? _ = some hole from hfound]
        obtain ⟨hchunk, hfit⟩ := h.holeFor_fits hfound
        obtain ⟨s', b, -, hallocate, -⟩ := (h.loose _).allocateIn hchunk hsize halignment hfit
        simp [hallocate]
      | none =>
        rw [show (s.holes.lowerBound size).find? _ = none from hfound]
        have hsome : (MapSpace s.memory MapBaseAddress PageSize).isSome = true :=
          mapSpace_isSome s.memory (by decide) (by decide) (by decide)
        obtain ⟨address, haddress⟩ := Option.isSome_iff_exists.mp hsome
        by_cases hno : address = noSpace
        · simp [Manager.RequestOnePage, haddress, hno]
        · have hfree := mapSpace_spec haddress hno
          have hlt : address + PageSize < Space := by
            refine hfree.space.lt_of_ne fun hend => hlast ⟨hlarge, hfound, ?_⟩
            rw [haddress, ← hend, Nat.add_sub_cancel]
          have haligned := hfree.aligned
          have htag : pageTag (address + PageSize - 1) = address :=
            pageTag_eq haligned (by have := pageSize_pos; omega)
              (by have := pageSize_pos; omega)
          obtain ⟨s', hs'⟩ := map_isSome pageSize_pos hfree.space (by rw [htag]; exact hlt) s 7
          obtain ⟨hloose, hhole, -⟩ := h.withPage hfree hs'
          have halign := getNextAlignedAddress_of_dvd halignment
            (hdvd.trans (Nat.dvd_of_mod_eq_zero haligned))
          obtain ⟨s₁, b, -, hallocate, -⟩ :=
            hloose.allocateIn hhole hsize halignment (by rw [halign]; omega)
          simp [Manager.RequestOnePage, haddress, hno, hs', hallocate]

end MMLMStore.ManagedChunks
