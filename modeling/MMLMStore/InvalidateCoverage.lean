import MMLMStore.SharerDirectory

/-!
# Invalidation reaches every copy it forgets

The invalidate event clears sharer bits sub-block by sub-block, but sends a write request only from
the first sub-block of a sharer's block. Three filters meet in the loop: partial invalidation keeps
to the sub-block of the address, the except module is left alone, and mid-block sub-blocks send
nothing.
-/
namespace MMLMStore.InvalidateCoverage

open AlignedBlocks SharerDirectory

variable {g : Geometry}

/-- What the invalidate event reads of its frame; `except_module` is `none` for a null pointer. -/
structure InvalidateFrame (g : Geometry) where
  tag : g.BlockTag
  address : ℕ
  except_module : Option MemModule
  partial_invalidation : Bool

structure WriteRequest where
  target_module : MemModule
  address : ℕ
  deriving DecidableEq, Repr

structure Invalidation (g : Geometry) where
  directory : Directory g
  pending : ℕ
  requests : List WriteRequest

namespace InvalidateFrame

variable (f : InvalidateFrame g)

/-- Partial invalidation skips the sub-blocks that do not contain the address. -/
def skips (z : ℕ) : Bool :=
  f.partial_invalidation &&
    (decide (f.address < g.directoryEntryTag f.tag.val z) ||
      decide ((g.directoryEntryTag f.tag.val z + g.subBlockSize) % 2 ^ 32 ≤ f.address))

theorem skips_eq_false_iff (hone : f.partial_invalidation = true) (z : ℕ) :
    f.skips z = false ↔ g.directoryEntryTag f.tag.val z ≤ f.address ∧
      f.address < (g.directoryEntryTag f.tag.val z + g.subBlockSize) % 2 ^ 32 := by
  simp only [skips, hone, Bool.true_and, Bool.or_eq_false_iff, decide_eq_false_iff_not,
    not_lt, not_le]

def visitNode (z : ℕ) (s : Invalidation g) (i : ℕ) : Invalidation g :=
  if s.directory.sharers z i = false then s else
  match g.getUserData i with
  | none => s
  | some sharer =>
    if some sharer = f.except_module then s else
    -- the mid-block sub-blocks are dropped as well, but nothing is sent for them
    if g.directoryEntryTag f.tag.val z % sharer.blockSize ≠ 0 then
      { s with directory := s.directory.dropNode z i }
    else
      { directory := s.directory.dropNode z i
        pending := s.pending + 1
        requests := s.requests ++ [⟨sharer, g.directoryEntryTag f.tag.val z⟩] }

def visitSubBlock (s : Invalidation g) (z : ℕ) : Invalidation g :=
  if f.skips z then s else (List.range g.numNodes).foldl (f.visitNode z) s

/-- The invalidate event: sub-blocks in order and, in each, the nodes in order. -/
def invalidate (d : Directory g) : Invalidation g :=
  (List.range g.numSubBlocks).foldl f.visitSubBlock ⟨d, 1, []⟩

/-- The module of a node, if the event may take its bits. -/
def Takes (i : ℕ) (h : MemModule) : Prop :=
  g.getUserData i = some h ∧ some h ≠ f.except_module

theorem visitNode_cases (z : ℕ) (s : Invalidation g) (i : ℕ) :
    (∃ h, s.directory.sharers z i = true ∧ f.Takes i h ∧
      (f.visitNode z s i).directory = s.directory.dropNode z i ∧
      ∀ r, r ∈ (f.visitNode z s i).requests ↔ r ∈ s.requests ∨
        (r = ⟨h, g.directoryEntryTag f.tag.val z⟩ ∧
          h.blockSize ∣ g.directoryEntryTag f.tag.val z)) ∨
    ((s.directory.sharers z i = true → ∀ h, ¬f.Takes i h) ∧ f.visitNode z s i = s) := by
  by_cases hsharer : s.directory.sharers z i = true
  · obtain ⟨h, hh, hidx, hdata⟩ := s.directory.exists_userData hsharer
    by_cases hexcept : some h = f.except_module
    · right
      refine ⟨fun _ h' htakes => ?_, ?_⟩
      · have heq : h = h' := Option.some.inj (hdata.symm.trans htakes.1)
        exact htakes.2 (heq ▸ hexcept)
      · simp only [visitNode, hsharer, hdata]
        rw [if_neg (by simp), if_pos hexcept]
    · left
      refine ⟨h, hsharer, ⟨hdata, hexcept⟩, ?_⟩
      have hvisit : f.visitNode z s i =
          if g.directoryEntryTag f.tag.val z % h.blockSize ≠ 0 then
            { s with directory := s.directory.dropNode z i }
          else
            { directory := s.directory.dropNode z i
              pending := s.pending + 1
              requests := s.requests ++ [⟨h, g.directoryEntryTag f.tag.val z⟩] } := by
        simp only [visitNode, hsharer, hdata]
        rw [if_neg (by simp), if_neg hexcept]
      rw [hvisit]
      by_cases hmid : h.blockSize ∣ g.directoryEntryTag f.tag.val z
      · rw [if_neg (not_not_intro (Nat.mod_eq_zero_of_dvd hmid))]
        simp [hmid]
      · rw [if_pos (fun hzero => hmid (Nat.dvd_of_mod_eq_zero hzero))]
        simp [hmid]
  · right
    exact ⟨fun h => absurd h hsharer, by simp [visitNode, hsharer]⟩

def cells : List (ℕ × ℕ) :=
  ((List.range g.numSubBlocks).filter fun z => !f.skips z).flatMap fun z =>
    (List.range g.numNodes).map fun i => (z, i)

theorem mem_cells {z i : ℕ} :
    (z, i) ∈ f.cells ↔ z < g.numSubBlocks ∧ f.skips z = false ∧ i < g.numNodes := by
  simp [cells, and_assoc]

theorem invalidate_eq (d : Directory g) :
    f.invalidate d = f.cells.foldl (fun s c => f.visitNode c.1 s c.2) ⟨d, 1, []⟩ := by
  simp only [cells, List.foldl_flatMap, List.foldl_map, List.foldl_filter]
  unfold invalidate
  congr 1
  funext s z
  cases hz : f.skips z <;> simp [visitSubBlock, hz]

theorem foldl_sharers (l : List (ℕ × ℕ)) (s : Invalidation g) (z i : ℕ) :
    (l.foldl (fun s c => f.visitNode c.1 s c.2) s).directory.sharers z i = true ↔
      s.directory.sharers z i = true ∧ ((z, i) ∈ l → ∀ h, ¬f.Takes i h) := by
  induction l generalizing s with
  | nil => simp
  | cons c l ih =>
    rw [List.foldl_cons, ih, List.mem_cons]
    rcases f.visitNode_cases c.1 s c.2 with ⟨h, hset, htakes, hdir, -⟩ | ⟨hnone, hsame⟩
    · rw [hdir, Directory.dropNode_sharers]
      by_cases hc : z = c.1 ∧ i = c.2
      · obtain ⟨rfl, rfl⟩ := hc
        simp only [and_self, if_true, Bool.false_eq_true, false_and, false_iff]
        intro hkeep
        exact hkeep.2 (Or.inl trivial) h htakes
      · have hne : (z, i) ≠ c := fun heq => hc (Prod.ext_iff.mp heq)
        simp [hc, hne]
    · rw [hsame]
      constructor
      · intro hkeep
        refine ⟨hkeep.1, fun hmem => ?_⟩
        rcases hmem with heq | hmem
        · obtain ⟨rfl, rfl⟩ := Prod.ext_iff.mp heq
          exact hnone hkeep.1
        · exact hkeep.2 hmem
      · intro hkeep
        exact ⟨hkeep.1, fun hmem => hkeep.2 (Or.inr hmem)⟩

theorem foldl_owner (l : List (ℕ × ℕ)) (s : Invalidation g) (z k : ℕ) :
    (l.foldl (fun s c => f.visitNode c.1 s c.2) s).directory.owner z = some k ↔
      s.directory.owner z = some k ∧
        ((z, k) ∈ l → s.directory.sharers z k = true → ∀ h, ¬f.Takes k h) := by
  induction l generalizing s with
  | nil => simp
  | cons c l ih =>
    rw [List.foldl_cons, ih, List.mem_cons]
    rcases f.visitNode_cases c.1 s c.2 with ⟨h, hset, htakes, hdir, -⟩ | ⟨hnone, hsame⟩
    · rw [hdir, Directory.dropNode_sharers, Directory.dropNode_owner]
      by_cases hc : z = c.1 ∧ k = c.2
      · obtain ⟨rfl, rfl⟩ := hc
        constructor
        · intro hkeep
          by_cases ho : s.directory.owner c.1 = some c.2
          · simp [ho] at hkeep
          · simp [ho] at hkeep
        · intro hkeep
          exact absurd htakes (hkeep.2 (Or.inl rfl) hset h)
      · have hne : (z, k) ≠ c := fun heq => hc (Prod.ext_iff.mp heq)
        simp only [hc, hne, if_false, false_or]
        by_cases hz : z = c.1 ∧ s.directory.owner z = some c.2
        · have hk : c.2 ≠ k := fun heq => hc ⟨hz.1, heq.symm⟩
          rw [if_pos hz, hz.2]
          simp [hk]
        · simp [hz]
    · rw [hsame]
      constructor
      · intro hkeep
        refine ⟨hkeep.1, fun hmem hset => ?_⟩
        rcases hmem with heq | hmem
        · obtain ⟨rfl, rfl⟩ := Prod.ext_iff.mp heq
          exact hnone hset
        · exact hkeep.2 hmem hset
      · intro hkeep
        exact ⟨hkeep.1, fun hmem => hkeep.2 (Or.inr hmem)⟩

theorem foldl_requests (l : List (ℕ × ℕ)) (s : Invalidation g) (r : WriteRequest) :
    r ∈ (l.foldl (fun s c => f.visitNode c.1 s c.2) s).requests ↔
      r ∈ s.requests ∨ ∃ z i, (z, i) ∈ l ∧ s.directory.sharers z i = true ∧
        f.Takes i r.target_module ∧ r.address = g.directoryEntryTag f.tag.val z ∧
        r.target_module.blockSize ∣ r.address := by
  induction l generalizing s with
  | nil => simp
  | cons c l ih =>
    rw [List.foldl_cons, ih]
    rcases f.visitNode_cases c.1 s c.2 with ⟨h, hset, htakes, hdir, hreq⟩ | ⟨hnone, hsame⟩
    · rw [hdir, hreq]
      constructor
      · intro hmem
        rcases hmem with (hmem | ⟨rfl, hdvd⟩) | ⟨z, i, hmem, hbit, hrest⟩
        · exact Or.inl hmem
        · exact Or.inr ⟨c.1, c.2, List.mem_cons_self, hset, htakes, rfl, hdvd⟩
        · rw [Directory.dropNode_sharers] at hbit
          split_ifs at hbit
          exact Or.inr ⟨z, i, List.mem_cons_of_mem c hmem, hbit, hrest⟩
      · intro hmem
        rcases hmem with hmem | ⟨z, i, hmem, hbit, htakes', haddr, hdvd⟩
        · exact Or.inl (Or.inl hmem)
        · by_cases hc : z = c.1 ∧ i = c.2
          · obtain ⟨rfl, rfl⟩ := hc
            have heq : h = r.target_module :=
              Option.some.inj (htakes.1.symm.trans htakes'.1)
            left
            right
            rw [haddr] at hdvd
            exact ⟨by rw [heq, ← haddr], heq ▸ hdvd⟩
          · right
            rcases List.mem_cons.mp hmem with heq | hmem
            · exact absurd (Prod.ext_iff.mp heq) hc
            · refine ⟨z, i, hmem, ?_, htakes', haddr, hdvd⟩
              rw [Directory.dropNode_sharers, if_neg hc]
              exact hbit
    · rw [hsame]
      constructor
      · intro hmem
        rcases hmem with hmem | ⟨z, i, hmem, hrest⟩
        · exact Or.inl hmem
        · exact Or.inr ⟨z, i, List.mem_cons_of_mem c hmem, hrest⟩
      · intro hmem
        rcases hmem with hmem | ⟨z, i, hmem, hbit, htakes, hrest⟩
        · exact Or.inl hmem
        · rcases List.mem_cons.mp hmem with heq | hmem
          · obtain ⟨rfl, rfl⟩ := Prod.ext_iff.mp heq
            exact absurd htakes (hnone hbit _)
          · exact Or.inr ⟨z, i, hmem, hbit, htakes, hrest⟩

/-- The bits of a directory that the event takes, with the module at each. -/
structure Clears (d : Directory g) (z i : ℕ) (h : MemModule) : Prop where
  lt : z < g.numSubBlocks
  visited : f.skips z = false
  sharer : d.sharers z i = true
  takes : f.Takes i h

theorem Takes.high {i : ℕ} {h : MemModule} (ht : f.Takes i h) :
    h ∈ g.highModules ∧ h.index = i := g.getUserData_eq_some.mp ht.1

theorem mem_cells_of_takes {z i : ℕ} {h : MemModule} (ht : f.Takes i h) :
    (z, i) ∈ f.cells ↔ z < g.numSubBlocks ∧ f.skips z = false := by
  obtain ⟨hh, rfl⟩ := ht.high
  rw [mem_cells]
  simp [g.index_lt h hh]

theorem invalidate_sharers (d : Directory g) (z i : ℕ) :
    (f.invalidate d).directory.sharers z i = true ↔
      d.sharers z i = true ∧ ∀ h, ¬f.Clears d z i h := by
  rw [invalidate_eq, foldl_sharers]
  constructor
  · intro hkeep
    refine ⟨hkeep.1, fun h hclears => ?_⟩
    have hmem := (f.mem_cells_of_takes hclears.takes).mpr ⟨hclears.lt, hclears.visited⟩
    exact hkeep.2 hmem h hclears.takes
  · intro hkeep
    refine ⟨hkeep.1, fun hmem h htakes => ?_⟩
    obtain ⟨hlt, hvisited⟩ := (f.mem_cells_of_takes htakes).mp hmem
    exact hkeep.2 h ⟨hlt, hvisited, hkeep.1, htakes⟩

theorem invalidate_owner (d : Directory g) (z k : ℕ) :
    (f.invalidate d).directory.owner z = some k ↔
      d.owner z = some k ∧ ∀ h, ¬f.Clears d z k h := by
  rw [invalidate_eq, foldl_owner]
  constructor
  · intro hkeep
    refine ⟨hkeep.1, fun h hclears => ?_⟩
    have hmem := (f.mem_cells_of_takes hclears.takes).mpr ⟨hclears.lt, hclears.visited⟩
    exact hkeep.2 hmem hclears.sharer h hclears.takes
  · intro hkeep
    refine ⟨hkeep.1, fun hmem hset h htakes => ?_⟩
    obtain ⟨hlt, hvisited⟩ := (f.mem_cells_of_takes htakes).mp hmem
    exact hkeep.2 h ⟨hlt, hvisited, hset, htakes⟩

theorem mem_requests (d : Directory g) (r : WriteRequest) :
    r ∈ (f.invalidate d).requests ↔ ∃ z i, f.Clears d z i r.target_module ∧
      r.address = g.directoryEntryTag f.tag.val z ∧ r.target_module.blockSize ∣ r.address := by
  rw [invalidate_eq, foldl_requests]
  constructor
  · intro hmem
    rcases hmem with hmem | ⟨z, i, hmem, hset, htakes, haddr, hdvd⟩
    · simp at hmem
    · obtain ⟨hlt, hvisited⟩ := (f.mem_cells_of_takes htakes).mp hmem
      exact ⟨z, i, ⟨hlt, hvisited, hset, htakes⟩, haddr, hdvd⟩
  · intro hmem
    obtain ⟨z, i, hclears, haddr, hdvd⟩ := hmem
    have hcell := (f.mem_cells_of_takes hclears.takes).mpr ⟨hclears.lt, hclears.visited⟩
    exact Or.inr ⟨z, i, hcell, hclears.sharer, hclears.takes, haddr, hdvd⟩

/-- Every bit the event clears is in a block of the sharer for which it sends a request. -/
def Reported (d : Directory g) : Prop :=
  ∀ z i, d.sharers z i = true → (f.invalidate d).directory.sharers z i = false →
    ∃ r ∈ (f.invalidate d).requests, r.target_module.index = i ∧
      blockBase r.target_module.blockSize r.address =
        blockBase r.target_module.blockSize (g.directoryEntryTag f.tag.val z)

/-- Where the event visits a sub-block of a sharer it may take, it visits the first sub-block of
that sharer's block as well, and the sharer is recorded there. -/
def Covered (d : Directory g) : Prop :=
  ∀ z i h, f.Clears d z i h →
    f.skips (g.firstSubBlock h z) = false ∧ d.sharers (g.firstSubBlock h z) i = true

theorem Covered.clears {d : Directory g} (hcov : f.Covered d) {z i : ℕ} {h : MemModule}
    (hclears : f.Clears d z i h) : f.Clears d (g.firstSubBlock h z) i h := by
  obtain ⟨hvisited, hset⟩ := hcov z i h hclears
  exact ⟨lt_of_le_of_lt (Geometry.firstSubBlock_le h z) hclears.lt, hvisited, hset, hclears.takes⟩

/-- Invalidating a whole block reaches every copy when sharers are recorded block by block. -/
theorem covered_of_full (d : Directory g) (hfull : f.partial_invalidation = false)
    (hblock : ∀ z i h, d.sharers z i = true → g.getUserData i = some h →
      d.sharers (g.firstSubBlock h z) i = true) : f.Covered d := by
  intro z i h hclears
  exact ⟨by simp [skips, hfull], hblock z i h hclears.sharer hclears.takes.1⟩

theorem visited_unique (hone : f.partial_invalidation = true) {z z' : ℕ}
    (hz : z < g.numSubBlocks) (hz' : z' < g.numSubBlocks) (hv : f.skips z = false)
    (hv' : f.skips z' = false) : z = z' := by
  have hle := f.tag.add_le
  have hsub := Geometry.subBlock_lt hz
  have hsub' := Geometry.subBlock_lt hz'
  rw [f.skips_eq_false_iff hone, Geometry.directoryEntryTag_eq f.tag hz] at hv
  rw [f.skips_eq_false_iff hone, Geometry.directoryEntryTag_eq f.tag hz'] at hv'
  have hmod := Nat.mod_le (f.tag.val + g.subBlockSize * z + g.subBlockSize) (2 ^ 32)
  have hmod' := Nat.mod_le (f.tag.val + g.subBlockSize * z' + g.subBlockSize) (2 ^ 32)
  have h1 : g.subBlockSize * z < g.subBlockSize * (z' + 1) := by
    rw [Nat.mul_succ]
    omega
  have h2 : g.subBlockSize * z' < g.subBlockSize * (z + 1) := by
    rw [Nat.mul_succ]
    omega
  have h3 := Nat.lt_of_mul_lt_mul_left h1
  have h4 := Nat.lt_of_mul_lt_mul_left h2
  omega

/-- Partial invalidation reaches every copy exactly when the sub-block it visits starts the block
of each sharer it takes. -/
theorem covered_iff_oneSubBlock (d : Directory g) (hone : f.partial_invalidation = true) :
    f.Covered d ↔ ∀ z i h, f.Clears d z i h → g.firstSubBlock h z = z := by
  constructor
  · intro hcov z i h hclears
    have hfirst := hcov.clears f hclears
    exact f.visited_unique hone hfirst.lt hclears.lt hfirst.visited hclears.visited
  · intro hstart z i h hclears
    rw [hstart z i h hclears]
    exact ⟨hclears.visited, hclears.sharer⟩

end InvalidateFrame

open InvalidateFrame

/-- The event asks back every copy it forgets exactly when it also visits the first sub-block of
each sharer's block. -/
theorem reported_iff (f : InvalidateFrame g) (d : Directory g) : f.Reported d ↔ f.Covered d := by
  constructor
  · intro hrep z i h hclears
    have hgone : (f.invalidate d).directory.sharers z i = false := by
      rw [Bool.eq_false_iff]
      intro hset
      exact ((f.invalidate_sharers d z i).mp hset).2 h hclears
    obtain ⟨r, hr, hidx, hblock⟩ := hrep z i hclears.sharer hgone
    obtain ⟨z', i', hclears', haddr, hdvd⟩ := (f.mem_requests d r).mp hr
    -- the request went to the node of the bit, hence to its module
    have hi : i' = i := hclears'.takes.high.2.symm.trans hidx
    subst hi
    have hmod : r.target_module = h :=
      Option.some.inj (hclears'.takes.1.symm.trans hclears.takes.1)
    rw [hmod] at hblock hdvd hclears'
    rw [haddr] at hblock hdvd
    have hh := hclears.takes.high.1
    have hsame := (Geometry.blockBase_directoryEntryTag_inj f.tag hh hclears'.lt hclears.lt).mp
      hblock
    have hstart := (Geometry.dvd_directoryEntryTag f.tag hh hclears'.lt).mp hdvd
    rw [← hsame, hstart]
    exact ⟨hclears'.visited, hclears'.sharer⟩
  · intro hcov z i hset hgone
    have hcleared : ∃ h, f.Clears d z i h := by
      by_contra hnone
      have hkept := (f.invalidate_sharers d z i).mpr ⟨hset, not_exists.mp hnone⟩
      rw [hgone] at hkept
      cases hkept
    obtain ⟨h, hclears⟩ := hcleared
    have hfirst := hcov.clears f hclears
    have hh := hclears.takes.high.1
    have hstart := Geometry.firstSubBlock_firstSubBlock (g := g) h z
    refine ⟨⟨h, g.directoryEntryTag f.tag.val (g.firstSubBlock h z)⟩, ?_, hclears.takes.high.2, ?_⟩
    · apply (f.mem_requests d _).mpr
      exact ⟨_, i, hfirst, rfl, (Geometry.dvd_directoryEntryTag f.tag hh hfirst.lt).mpr hstart⟩
    · apply (Geometry.blockBase_directoryEntryTag_inj f.tag hh hfirst.lt hclears.lt).mpr
      exact hstart

/-- A block of 128 bytes below a cache with blocks of 64 and one with blocks of 128. -/
def twoSizes : Geometry where
  blockSize := 128
  highModules := [⟨"l1-small", .Cache, 64, 64, 0⟩, ⟨"l1-large", .Cache, 128, 128, 1⟩]
  numNodes := 2
  blockSize_power := ⟨7, rfl⟩
  blockSize_int := by norm_num
  high_power := by
    intro h hh
    rcases List.mem_pair.mp hh with rfl | rfl
    · exact ⟨6, rfl⟩
    · exact ⟨7, rfl⟩
  high_le := by decide
  sub_power := by
    intro h hh
    rcases List.mem_pair.mp hh with rfl | rfl
    · exact ⟨6, rfl⟩
    · exact ⟨7, rfl⟩
  sub_le := by decide
  index_lt := by decide
  index_inj := by decide

/-- The large cache shares the whole block. -/
def sharedByLarge : Directory twoSizes where
  sharers z i := decide (z < 2 ∧ i = 1)
  owner _ := none
  numSharers z := if z < 2 then 1 else 0
  sharer_high := by
    intro z i hi
    obtain ⟨-, rfl⟩ := of_decide_eq_true hi
    exact ⟨⟨"l1-large", .Cache, 128, 128, 1⟩, by simp [twoSizes], rfl⟩
  numSharers_eq := by
    intro z
    by_cases hz : z < 2
    · simp [hz, twoSizes, Finset.filter_eq']
    · simp [hz]

/-- The invalidation of a store by the small cache to the second half of the block. -/
def storeToSecondHalf : InvalidateFrame twoSizes where
  tag := ⟨0, ⟨0, rfl⟩, by norm_num⟩
  address := 64
  except_module := some ⟨"l1-small", .Cache, 64, 64, 0⟩
  partial_invalidation := true

/-- The large cache is forgotten for the second half of the block and keeps its copy. -/
theorem reported_fails : ¬∀ (g : Geometry) (f : InvalidateFrame g) (d : Directory g),
    f.Reported d := by
  intro hall
  obtain ⟨r, hr, -⟩ :=
    hall twoSizes storeToSecondHalf sharedByLarge 1 1 (by decide) (by decide)
  have hnone : (storeToSecondHalf.invalidate sharedByLarge).requests = [] := by decide
  rw [hnone] at hr
  exact List.not_mem_nil hr

end MMLMStore.InvalidateCoverage
