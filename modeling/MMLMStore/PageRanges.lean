import MMLMStore.PageSpace

/-!
# Page ranges

The loops of `Map`, `Unmap` and `Protect` with their 32-bit variable. They change the pages that
meet their range, unless the range reaches into the last page, where they do not end, or is empty.
-/
namespace MMLMStore.PageRanges

open PagedMemory PageSpace

/-- `for (tag = tag1; tag <= tag2; tag += PageSize)` from a tag on, within a number of passes. -/
def forTags (body : Memory → ℕ → Memory) (tag2 : ℕ) : ℕ → ℕ → Memory → Option Memory
  | 0, _, _ => none
  | passes + 1, tag, m =>
    if tag ≤ tag2 then forTags body tag2 passes ((tag + PageSize) % Space) (body m tag)
    else some m

def forRange (body : Memory → ℕ → Memory) (m : Memory) (passes address size : ℕ) : Option Memory :=
  let tag1 := pageTag address
  let tag2 := pageTag ((address + size + (Space - 1)) % Space)
  forTags body tag2 passes tag1 m

def protectPage (perm : ℕ) (m : Memory) (tag : ℕ) : Memory :=
  (m.getPage tag).elim m fun page => m.putPage tag { page with perm }

def mapIn (m : Memory) (passes address size perm : ℕ) : Option Memory :=
  forRange (mapPage perm) m passes address size

def unmapIn (m : Memory) (passes address size : ℕ) : Option Memory :=
  if address % PageSize = 0 ∧ size % PageSize = 0 then forRange erasePage m passes address size
  else none

def protectIn (m : Memory) (passes address size perm : ℕ) : Option Memory :=
  if address % PageSize = 0 ∧ size % PageSize = 0 then
    forRange (protectPage perm) m passes address size
  else none

def Meets (address size tag : ℕ) : Prop :=
  tag % PageSize = 0 ∧ ∃ x, (address ≤ x ∧ x < address + size) ∧ tag ≤ x ∧ x < tag + PageSize

/-- What each function does to a page of its range. -/
def mappedPage (perm : ℕ) (page : Option Page) : Option Page :=
  some ((page.getD ⟨perm, none⟩).addPerm perm)

def unmappedPage (_ : Option Page) : Option Page := none

def protectedPage (perm : ℕ) (page : Option Page) : Option Page :=
  page.map fun page => { page with perm }

/-- The pages of the range are changed, and no others. -/
structure Affects (change : Option Page → Option Page) (m m' : Memory) (address size : ℕ) :
    Prop where
  inside : ∀ tag, Meets address size tag → m'.pages tag = change (m.pages tag)
  outside : ∀ tag, ¬ Meets address size tag → m'.pages tag = m.pages tag

/-- The range has addresses, none of them in the last page, or is empty with a start at a page
other than the first one. -/
def Regular (address size : ℕ) : Prop :=
  (0 < size ∧ pageTag (address + size - 1) + PageSize < Space) ∨
    (size = 0 ∧ address % PageSize = 0 ∧ address ≠ 0)

instance (address size : ℕ) : Decidable (Regular address size) :=
  inferInstanceAs (Decidable (_ ∨ _))

section Loops

variable {body : Memory → ℕ → Memory} {tag2 : ℕ} {m : Memory}

theorem forTags_unique {passes passes' tag : ℕ} {m m₁ m₂ : Memory}
    (h₁ : forTags body tag2 passes tag m = some m₁)
    (h₂ : forTags body tag2 passes' tag m = some m₂) : m₁ = m₂ := by
  induction passes generalizing passes' tag m with
  | zero => cases h₁
  | succ passes ih =>
    cases passes' with
    | zero => cases h₂
    | succ passes' =>
      simp only [forTags] at h₁ h₂
      split_ifs at h₁ h₂ with htag
      · exact ih h₁ h₂
      · exact (Option.some.inj h₁).symm.trans (Option.some.inj h₂)

theorem forTags_ends (body : Memory → ℕ → Memory) {n tag : ℕ} (htag2 : tag2 % PageSize = 0)
    (hlast : tag2 + PageSize < Space) (htag : tag % PageSize = 0)
    (hn : (tag2 + PageSize - tag) / PageSize = n) (m : Memory) :
    forTags body tag2 (n + 1) tag m =
      some (((List.range n).map fun i => tag + i * PageSize).foldl body m) := by
  induction n generalizing tag m with
  | zero =>
    have hlt : ¬ tag ≤ tag2 := by
      rw [pageSize_eq] at *
      omega
    rw [forTags, if_neg hlt]
    rfl
  | succ n ih =>
    have hle : tag ≤ tag2 := by
      rw [pageSize_eq] at *
      omega
    have hmod : (tag + PageSize) % Space = tag + PageSize :=
      Nat.mod_eq_of_lt ((Nat.add_le_add_right hle PageSize).trans_lt hlast)
    have hnext : (tag2 + PageSize - (tag + PageSize)) / PageSize = n := by
      rw [pageSize_eq] at *
      omega
    have htags : ((List.range (n + 1)).map fun i => tag + i * PageSize) =
        tag :: (List.range n).map fun i => tag + PageSize + i * PageSize := by
      rw [List.range_succ_eq_map, List.map_cons, List.map_map, Nat.zero_mul, Nat.add_zero]
      refine congrArg (tag :: ·) (List.map_congr_left fun i _ => ?_)
      simp only [Function.comp_apply]
      rw [Nat.succ_mul]
      omega
    have haligned : (tag + PageSize) % PageSize = 0 := (Nat.add_mod_right tag PageSize).trans htag
    rw [forTags, if_pos hle, hmod, ih haligned hnext, htags, List.foldl_cons]

theorem forTags_diverges (body : Memory → ℕ → Memory) {tag : ℕ} (hlast : tag2 + PageSize = Space)
    (htag : tag % PageSize = 0) (hlt : tag < Space) (passes : ℕ) (m : Memory) :
    forTags body tag2 passes tag m = none := by
  induction passes generalizing tag m with
  | zero => rfl
  | succ passes ih =>
    have hle : tag ≤ tag2 := by
      rw [pageSize_eq, space_eq] at *
      omega
    have hnext : (tag + PageSize) % Space % PageSize = 0 := by
      rw [pageSize_eq, space_eq] at *
      omega
    rw [forTags, if_pos hle]
    exact ih hnext (Nat.mod_lt _ (by decide)) _

theorem pageTag_add_le {x : ℕ} (hx : x < Space) : pageTag x + PageSize ≤ Space := by
  simp only [pageTag, pageSize_eq, space_eq] at *
  omega

/-- The loop ends if there is a list of the tags it visits. -/
theorem forRange_iff {address size : ℕ} (haddress : address < Space) (m' : Memory) :
    (∃ passes, forRange body m passes address size = some m') ↔
      ∃ visited, tags address size = some visited ∧ visited.foldl body m = m' := by
  have hlt : (address + size + (Space - 1)) % Space < Space := Nat.mod_lt _ (by decide)
  have hle := pageTag_add_le hlt
  have htag1 := (pageTag_spec address).1
  have htag2 := (pageTag_spec ((address + size + (Space - 1)) % Space)).1
  simp only [forRange]
  rcases hle.eq_or_lt with hlast | hlast
  · refine iff_of_false ?_ ?_
    · rintro ⟨passes, h⟩
      have hnone := forTags_diverges body hlast htag1
        ((pageTag_spec address).2.1.trans_lt haddress) passes m
      exact Option.some_ne_none _ (h.symm.trans hnone)
    · rintro ⟨visited, h, -⟩
      rw [tags, if_pos hlast] at h
      cases h
  · have hends := forTags_ends body htag2 hlast htag1 rfl m
    rw [tags, if_neg hlast.ne]
    constructor
    · rintro ⟨passes, h⟩
      exact ⟨_, rfl, forTags_unique hends h⟩
    · rintro ⟨visited, hvisited, rfl⟩
      obtain rfl := Option.some.inj hvisited
      exact ⟨_, hends⟩

end Loops

section Changes

def Visits (body : Memory → ℕ → Memory) (change : Option Page → Option Page) : Prop :=
  ∀ m tag, tag % PageSize = 0 → ∀ t,
    (body m tag).pages t = if t = tag then change (m.pages t) else m.pages t

theorem visits_mapPage (perm : ℕ) : Visits (mapPage perm) (mappedPage perm) := by
  intro m tag htag t
  simp only [mapPage, Memory.putPage, Memory.getPage, pageTag_of_tag htag]
  split_ifs with ht
  · rw [ht]
    rfl
  · rfl

theorem visits_erasePage : Visits erasePage unmappedPage := fun _ _ _ _ => rfl

theorem visits_protectPage (perm : ℕ) : Visits (protectPage perm) (protectedPage perm) := by
  intro m tag htag t
  simp only [protectPage, Memory.getPage, pageTag_of_tag htag]
  cases hpage : m.pages tag with
  | none =>
    rw [Option.elim_none]
    split_ifs with ht
    · rw [ht, hpage]
      rfl
    · rfl
  | some page =>
    simp only [Option.elim_some, Memory.putPage, pageTag_of_tag htag]
    split_ifs with ht
    · rw [ht, hpage]
      rfl
    · rfl

variable {body : Memory → ℕ → Memory} {change : Option Page → Option Page}

theorem pages_foldl (hbody : Visits body change) {visited : List ℕ} (hnodup : visited.Nodup)
    (haligned : ∀ tag ∈ visited, tag % PageSize = 0) (m : Memory) (t : ℕ) :
    (visited.foldl body m).pages t = if t ∈ visited then change (m.pages t) else m.pages t := by
  induction visited generalizing m with
  | nil => rfl
  | cons tag rest ih =>
    rw [List.forall_mem_cons] at haligned
    rw [List.nodup_cons] at hnodup
    rw [List.foldl_cons, ih hnodup.2 haligned.2, hbody m tag haligned.1]
    by_cases ht : t = tag
    · rw [ht, if_neg hnodup.1, if_pos rfl, if_pos List.mem_cons_self]
    · rw [if_neg ht]
      simp only [List.mem_cons, ht, false_or]

theorem tags_spec {address size : ℕ} {visited : List ℕ} (h : tags address size = some visited) :
    visited.Nodup ∧ ∀ tag ∈ visited, tag % PageSize = 0 := by
  simp only [tags] at h
  split_ifs at h
  obtain rfl := Option.some.inj h
  refine ⟨List.Nodup.map ?_ List.nodup_range, fun tag htag => ?_⟩
  · intro i j hij
    exact Nat.eq_of_mul_eq_mul_right pageSize_pos (Nat.add_left_cancel hij)
  · obtain ⟨i, -, rfl⟩ := List.mem_map.mp htag
    rw [Nat.add_mul_mod_self_right]
    exact (pageTag_spec address).1

theorem meets_iff {address size tag : ℕ} (hsize : 0 < size) :
    Meets address size tag ↔
      tag % PageSize = 0 ∧ pageTag address ≤ tag ∧ tag < address + size := by
  refine and_congr_right fun htag => ?_
  constructor
  · rintro ⟨x, ⟨hle, hlt⟩, hx, hxlt⟩
    simp only [pageTag, pageSize_eq] at *
    omega
  · rintro ⟨hle, hlt⟩
    refine ⟨max address tag, ?_⟩
    simp only [pageTag, pageSize_eq] at *
    omega

theorem not_meets_zero (address tag : ℕ) : ¬ Meets address 0 tag := by
  rintro ⟨-, x, ⟨hle, hlt⟩, -⟩
  omega

/-- An empty range visits the page of its address if that is not the start of the page. -/
theorem tags_zero {address : ℕ} (haddress : address < Space) :
    tags address 0 =
      if address = 0 then none
      else if address % PageSize = 0 then some []
      else if pageTag address + PageSize = Space then none
      else some [pageTag address] := by
  simp only [tags, Nat.add_zero]
  by_cases hzero : address = 0
  · rw [if_pos hzero, hzero]
    exact if_pos (by decide)
  have hwrap : (address + (Space - 1)) % Space = address - 1 := by
    rw [space_eq] at *
    omega
  rw [if_neg hzero, hwrap]
  by_cases haligned : address % PageSize = 0
  · have htag2 : pageTag (address - 1) + PageSize = address := by
      simp only [pageTag, pageSize_eq] at *
      omega
    rw [if_pos haligned, htag2, if_neg haddress.ne, pageTag_of_tag haligned, Nat.sub_self,
      Nat.zero_div]
    rfl
  · have htag2 : pageTag (address - 1) = pageTag address := by
      simp only [pageTag, pageSize_eq] at *
      omega
    rw [if_neg haligned, htag2, Nat.add_sub_cancel_left, Nat.div_self pageSize_pos]
    simp

theorem loop_zero_iff (hbody : Visits body change) (m : Memory) {address : ℕ}
    (haddress : address < Space) :
    (∃ visited, tags address 0 = some visited ∧
      Affects change m (visited.foldl body m) address 0) ↔
    address % PageSize = 0 ∧ address ≠ 0 ∨ address % PageSize ≠ 0 ∧
      pageTag address + PageSize < Space ∧
      change (m.pages (pageTag address)) = m.pages (pageTag address) := by
  rw [tags_zero haddress]
  by_cases hzero : address = 0
  · rw [if_pos hzero]
    refine iff_of_false (fun ⟨_, h, _⟩ => Option.some_ne_none _ h.symm) ?_
    rintro (h | h)
    · exact h.2 hzero
    · exact h.1 (by rw [hzero]; rfl)
  rw [if_neg hzero]
  by_cases haligned : address % PageSize = 0
  · rw [if_pos haligned]
    refine iff_of_true ⟨[], rfl, fun tag h => absurd h (not_meets_zero address tag), ?_⟩
      (Or.inl ⟨haligned, hzero⟩)
    exact fun _ _ => rfl
  rw [if_neg haligned, or_iff_right fun h => haligned h.1, and_iff_right haligned]
  have hle := pageTag_add_le haddress
  have htag := (pageTag_spec address).1
  by_cases hlast : pageTag address + PageSize = Space
  · rw [if_pos hlast]
    exact iff_of_false (fun ⟨_, h, _⟩ => Option.some_ne_none _ h.symm) fun h => h.1.ne hlast
  rw [if_neg hlast, and_iff_right (hle.lt_of_ne hlast)]
  constructor
  · rintro ⟨visited, hvisited, haffects⟩
    obtain rfl := Option.some.inj hvisited
    have hsame := haffects.outside (pageTag address) (not_meets_zero address _)
    rwa [List.foldl_cons, List.foldl_nil, hbody m _ htag, if_pos rfl] at hsame
  · intro hsame
    refine ⟨_, rfl, fun tag h => absurd h (not_meets_zero address tag), fun tag _ => ?_⟩
    rw [List.foldl_cons, List.foldl_nil, hbody m _ htag]
    split_ifs with ht
    · rw [ht, hsame]
    · rfl

/-- When a loop ends with the pages of its range changed, and no others. -/
theorem loop_iff (hbody : Visits body change) (m : Memory) {address size : ℕ}
    (haddress : address < Space) (hspace : address + size ≤ Space) :
    (∃ passes m', forRange body m passes address size = some m' ∧
      Affects change m m' address size) ↔
    Regular address size ∨ size = 0 ∧ address % PageSize ≠ 0 ∧
      pageTag address + PageSize < Space ∧
      change (m.pages (pageTag address)) = m.pages (pageTag address) := by
  have hresult : (∃ passes m', forRange body m passes address size = some m' ∧
      Affects change m m' address size) ↔
      ∃ visited, tags address size = some visited ∧
        Affects change m (visited.foldl body m) address size := by
    constructor
    · rintro ⟨passes, m', h, haffects⟩
      obtain ⟨visited, hvisited, rfl⟩ := (forRange_iff haddress m').mp ⟨passes, h⟩
      exact ⟨visited, hvisited, haffects⟩
    · rintro ⟨visited, hvisited, haffects⟩
      obtain ⟨passes, h⟩ := (forRange_iff haddress _).mpr ⟨visited, hvisited, rfl⟩
      exact ⟨passes, _, h, haffects⟩
  rw [hresult]
  rcases Nat.eq_zero_or_pos size with rfl | hsize
  · rw [loop_zero_iff hbody m haddress, Regular]
    simp
  · have hends := tags_isSome_iff hsize hspace
    rw [Option.isSome_iff_exists] at hends
    rw [Regular, and_iff_right hsize, or_iff_left fun h => hsize.ne' h.1,
      or_iff_left fun h => hsize.ne' h.1, ← hends]
    refine exists_congr fun visited => and_iff_left_of_imp fun hvisited => ?_
    obtain ⟨hnodup, haligned⟩ := tags_spec hvisited
    have hmem : ∀ tag, tag ∈ visited ↔ Meets address size tag := by
      intro tag
      rw [mem_tags hsize hspace hvisited, meets_iff hsize]
    constructor
    · intro tag htag
      rw [pages_foldl hbody hnodup haligned, if_pos ((hmem tag).mpr htag)]
    · intro tag htag
      rw [pages_foldl hbody hnodup haligned, if_neg fun h => htag ((hmem tag).mp h)]

end Changes

theorem mappedPage_eq_self_iff (perm : ℕ) (page : Option Page) :
    mappedPage perm page = page ↔ ∃ p, page = some p ∧ p.perm ||| perm = p.perm := by
  cases page with
  | none => simp [mappedPage]
  | some p =>
    have hpage : p.addPerm perm = p ↔ p.perm ||| perm = p.perm := by
      cases p
      simp [Page.addPerm]
    simpa [mappedPage] using hpage

/-- A range that the loop of `Map` handles as it should: it may also be empty if its page is there
with the permissions. -/
def Mappable (m : Memory) (address size perm : ℕ) : Prop :=
  Regular address size ∨ size = 0 ∧ address % PageSize ≠ 0 ∧ pageTag address + PageSize < Space ∧
    ∃ page, m.getPage address = some page ∧ page.perm ||| perm = page.perm

/-- Each function ends with the pages of its range changed, and no others, exactly if the range is
one that its loop can handle. -/
theorem ranges_iff (m : Memory) {address size : ℕ} (perm : ℕ) (haddress : address < Space)
    (hspace : address + size ≤ Space) :
    ((∃ passes m', mapIn m passes address size perm = some m' ∧
        Affects (mappedPage perm) m m' address size) ↔ Mappable m address size perm) ∧
      (address % PageSize = 0 → size % PageSize = 0 →
        ((∃ passes m', unmapIn m passes address size = some m' ∧
          Affects unmappedPage m m' address size) ↔ Regular address size) ∧
        ((∃ passes m', protectIn m passes address size perm = some m' ∧
          Affects (protectedPage perm) m m' address size) ↔ Regular address size)) := by
  refine ⟨?_, fun haligned hsize => ⟨?_, ?_⟩⟩
  · rw [Mappable, ← mappedPage_eq_self_iff]
    exact loop_iff (visits_mapPage perm) m haddress hspace
  · simp only [unmapIn, haligned, hsize, and_self, if_true]
    rw [loop_iff visits_erasePage m haddress hspace]
    exact or_iff_left fun h => h.2.1 haligned
  · simp only [protectIn, haligned, hsize, and_self, if_true]
    rw [loop_iff (visits_protectPage perm) m haddress hspace]
    exact or_iff_left fun h => h.2.1 haligned

def twoPages : Memory := mapPage 2 (mapPage 7 (.new true) 0x3000) 0x4000

theorem ranges_iff_twoPages :
    ((twoPages.getPage 0x3000).isSome ∧ (twoPages.getPage 0x4000).isSome) ∧
    (∃ passes m', mapIn twoPages passes 0x3000 0x3000 3 = some m' ∧
      Affects (mappedPage 3) twoPages m' 0x3000 0x3000) ∧
    (∃ passes m', unmapIn twoPages passes 0x3000 0x3000 = some m' ∧
      Affects unmappedPage twoPages m' 0x3000 0x3000) ∧
    ∃ passes m', protectIn twoPages passes 0x3000 0x3000 3 = some m' ∧
      Affects (protectedPage 3) twoPages m' 0x3000 0x3000 := by
  have hlt : 0x3000 < Space := by decide
  have hspace : 0x3000 + 0x3000 ≤ Space := by decide
  have hregular : Regular 0x3000 0x3000 := by decide
  obtain ⟨hmap, hothers⟩ := ranges_iff twoPages 3 hlt hspace
  obtain ⟨hunmap, hprotect⟩ := hothers (by decide) (by decide)
  exact ⟨by decide, hmap.mpr (Or.inl hregular), hunmap.mpr hregular, hprotect.mpr hregular⟩

/-- The loop for the last page of the space does not end. -/
theorem ranges_fail :
    ¬ ∀ (m : Memory) (address size perm : ℕ), address < Space → address + size ≤ Space →
      (∃ passes m', mapIn m passes address size perm = some m' ∧
        Affects (mappedPage perm) m m' address size) ∧
      (address % PageSize = 0 → size % PageSize = 0 →
        (∃ passes m', unmapIn m passes address size = some m' ∧
          Affects unmappedPage m m' address size) ∧
        ∃ passes m', protectIn m passes address size perm = some m' ∧
          Affects (protectedPage perm) m m' address size) := by
  intro h
  have hmap := (h (.new true) 0xfffff000 0x1000 3 (by decide) (by decide)).1
  rcases (loop_iff (visits_mapPage 3) (.new true) (by decide) (by decide)).mp hmap with h | h
  · exact absurd h (by decide)
  · exact absurd h.1 (by decide)

end MMLMStore.PageRanges
