import MMLMStore.PageSpace
import Mathlib.Data.List.MinMax

/-!
# Next pages

The pages of a memory are kept in a hash table, in any order. The next page after an address is
the page right behind it, or else the lowest one found in a pass over the table. A walk from one
page to the next visits the later pages in ascending order.
-/
namespace MMLMStore.NextPages

open PagedMemory PageSpace

/-- The pages of a memory with their tags, in the order in which the table is iterated. -/
structure Table (m : Memory) where
  entries : List (ℕ × Page)
  mem_iff : ∀ x : ℕ × Page, x ∈ entries ↔ m.pages x.1 = some x.2
  aligned : ∀ x ∈ entries, x.1 % PageSize = 0 ∧ x.1 < Space
  nodup : (entries.map Prod.fst).Nodup

namespace Table

variable {m : Memory}

def empty (safe : Bool) : Table (.new safe) :=
  ⟨[], fun _ => iff_of_false List.not_mem_nil (Option.some_ne_none _).symm,
    fun _ h => absurd h List.not_mem_nil, List.nodup_nil⟩

def put (t : Table m) {address : ℕ} (haddress : address < Space) (page : Page) :
    Table (m.putPage address page) where
  entries := (pageTag address, page) :: t.entries.filter fun x => x.1 ≠ pageTag address
  mem_iff := by
    rintro ⟨tag, p⟩
    simp only [Memory.putPage, List.mem_cons, List.mem_filter, t.mem_iff, Prod.mk.injEq,
      decide_not, Bool.not_eq_true', decide_eq_false_iff_not]
    split_ifs with htag
    · simp [htag, eq_comm]
    · simp [htag]
  aligned := by
    intro x hx
    rcases List.mem_cons.mp hx with rfl | hx
    · exact ⟨(pageTag_spec address).1, (pageTag_spec address).2.1.trans_lt haddress⟩
    · exact t.aligned x (List.mem_filter.mp hx).1
  nodup := by
    rw [List.map_cons, List.nodup_cons]
    refine ⟨?_, t.nodup.sublist (List.filter_sublist.map _)⟩
    intro hmem
    obtain ⟨x, hx, htag⟩ := List.mem_map.mp hmem
    simpa [htag] using (List.mem_filter.mp hx).2

def erase (t : Table m) (tag : ℕ) : Table (erasePage m tag) where
  entries := t.entries.filter fun x => x.1 ≠ tag
  mem_iff := by
    intro x
    simp only [erasePage, List.mem_filter, t.mem_iff, decide_not, Bool.not_eq_true',
      decide_eq_false_iff_not]
    split_ifs with htag <;> simp [htag]
  aligned := fun x hx => t.aligned x (List.mem_filter.mp hx).1
  nodup := t.nodup.sublist (List.filter_sublist.map _)

/-- The body of the loop for the lowest tag, with the tag and the page found so far. -/
def closer (tag : ℕ) (lowest : ℕ × Option (ℕ × Page)) (x : ℕ × Page) : ℕ × Option (ℕ × Page) :=
  if tag < x.1 ∧ x.1 < lowest.1 then (x.1, some x) else lowest

def getNextPage (t : Table m) (address : ℕ) : Option (ℕ × Page) :=
  let tag := pageTag ((address + PageSize) % Space)
  if tag = 0 then none
  else match m.pages tag with
    | some page => some (tag, page)
    | none => (t.entries.foldl (closer tag) (0xffffffff, none)).2

/-- The pages seen while one goes from page to page, within a number of passes. -/
def walk (t : Table m) : ℕ → ℕ → Option (List (ℕ × Page))
  | 0, _ => none
  | passes + 1, address =>
    match t.getNextPage address with
    | none => some []
    | some x => (t.walk passes x.1).map (x :: ·)

/-- The pages behind the page of an address, in the order of the table. -/
def later (t : Table m) (address : ℕ) : List (ℕ × Page) :=
  t.entries.filter fun x => pageTag address < x.1

variable {t : Table m} {address : ℕ}

theorem mem_later {x : ℕ × Page} :
    x ∈ t.later address ↔ m.pages x.1 = some x.2 ∧ pageTag address < x.1 := by
  rw [later, List.mem_filter, t.mem_iff, decide_eq_true_iff]

/-- The loop finds the first page with the lowest tag if all tags are below the initial one. -/
theorem foldl_closer (tag sentinel : ℕ) {entries : List (ℕ × Page)}
    (hentries : ∀ x ∈ entries, x.1 < sentinel) :
    entries.foldl (closer tag) (sentinel, none) =
      (((entries.filter fun x => tag < x.1).argmin Prod.fst).elim sentinel Prod.fst,
        (entries.filter fun x => tag < x.1).argmin Prod.fst) := by
  induction entries using List.reverseRecOn with
  | nil => rfl
  | append_singleton entries x ih =>
    have hx := hentries x (by simp)
    rw [List.foldl_append, ih fun y hy => hentries y (List.mem_append_left _ hy)]
    simp only [List.foldl_cons, List.foldl_nil, List.filter_append, closer]
    by_cases hlt : tag < x.1
    · have hlast : [x].filter (fun x => tag < x.1) = [x] :=
        List.filter_eq_self.mpr fun y hy => by simpa [List.mem_singleton.mp hy] using hlt
      rw [hlast, List.argmin_concat]
      cases (entries.filter fun x => tag < x.1).argmin Prod.fst with
      | none => simp [hlt, hx]
      | some y =>
        simp only [hlt, true_and, Option.elim_some]
        split_ifs <;> rfl
    · have hlast : [x].filter (fun x => tag < x.1) = [] :=
        List.filter_eq_nil_iff.mpr fun y hy => by simpa [List.mem_singleton.mp hy] using hlt
      rw [hlast, List.append_nil, if_neg fun h => hlt h.1]

theorem lt_sentinel (t : Table m) : ∀ x ∈ t.entries, x.1 < 0xffffffff := by
  intro x hx
  obtain ⟨haligned, hlt⟩ := t.aligned x hx
  rw [pageSize_eq, space_eq] at *
  omega

theorem eq_of_tag_eq {x y : ℕ × Page} (hx : m.pages x.1 = some x.2) (hy : m.pages y.1 = some y.2)
    (h : x.1 = y.1) : x = y := by
  rw [h, hy] at hx
  exact Prod.ext h (Option.some.inj hx).symm

theorem next_tag (haddress : address < Space) :
    pageTag ((address + PageSize) % Space) =
      if pageTag address + PageSize = Space then 0 else pageTag address + PageSize := by
  obtain ⟨haligned, hle, hlt⟩ := pageTag_spec address
  split_ifs with hlast
  · have hmod : (address + PageSize) % Space = address - pageTag address := by
      rw [pageSize_eq, space_eq] at *
      omega
    exact pageTag_eq (Nat.zero_mod _) (Nat.zero_le _) (by omega)
  · have hmod : (address + PageSize) % Space = address + PageSize := by
      rw [pageSize_eq, space_eq] at *
      omega
    rw [hmod]
    exact pageTag_eq ((Nat.add_mod_right _ _).trans haligned) (by omega) (by omega)

theorem getNextPage_eq (t : Table m) (haddress : address < Space) :
    t.getNextPage address = (t.later address).argmin Prod.fst := by
  simp only [getNextPage, next_tag haddress]
  by_cases hlast : pageTag address + PageSize = Space
  · have hnone : t.later address = [] := by
      refine List.eq_nil_iff_forall_not_mem.mpr fun x hx => ?_
      obtain ⟨hmem, hlt⟩ := List.mem_filter.mp hx
      obtain ⟨haligned, hspace⟩ := t.aligned x hmem
      have htag := (pageTag_spec address).1
      simp only [pageSize_eq, space_eq, decide_eq_true_eq] at *
      omega
    rw [if_pos hlast, if_pos rfl, hnone]
    rfl
  · -- behind the page of the address the tags start here
    have hge : ∀ x ∈ t.entries, pageTag address < x.1 ↔ pageTag address + PageSize ≤ x.1 := by
      intro x hx
      have haligned := (t.aligned x hx).1
      have htag := (pageTag_spec address).1
      rw [pageSize_eq] at *
      omega
    rw [if_neg hlast, if_neg (Nat.add_pos_right _ pageSize_pos).ne']
    cases hpage : m.pages (pageTag address + PageSize) with
    | some page =>
      have hmem : (pageTag address + PageSize, page) ∈ t.later address :=
        mem_later.mpr ⟨hpage, Nat.lt_add_of_pos_right pageSize_pos⟩
      cases hmin : (t.later address).argmin Prod.fst with
      | none =>
        rw [List.argmin_eq_none.mp hmin] at hmem
        exact absurd hmem List.not_mem_nil
      | some x =>
        have hx := List.argmin_mem hmin
        have hle := List.le_of_mem_argmin hmem hmin
        have hle' := (hge x (List.mem_filter.mp hx).1).mp (mem_later.mp hx).2
        exact congrArg some (eq_of_tag_eq hpage (mem_later.mp hx).1 (le_antisymm hle' hle))
    | none =>
      have hsame : t.entries.filter (fun x => pageTag address + PageSize < x.1) =
          t.later address := by
        refine List.filter_congr fun x hx => decide_eq_decide.mpr ?_
        rw [hge x hx]
        refine (lt_iff_le_and_ne).trans (and_iff_left_of_imp fun _ heq => ?_)
        have hmem := (t.mem_iff x).mp hx
        rw [← heq, hpage] at hmem
        exact Option.some_ne_none _ hmem.symm
      simp only [foldl_closer _ _ t.lt_sentinel, hsame]

theorem pageTag_of_mem {x : ℕ × Page} (hx : x ∈ t.later address) :
    pageTag x.1 = x.1 ∧ x.1 < Space := by
  obtain ⟨haligned, hlt⟩ := t.aligned x (List.mem_filter.mp hx).1
  exact ⟨pageTag_of_tag haligned, hlt⟩

theorem length_later_lt {x : ℕ × Page} (hx : x ∈ t.later address) :
    (t.later x.1).length < (t.later address).length := by
  have hlt := (mem_later.mp hx).2
  have hrest : t.later x.1 = (t.later address).filter fun y => x.1 < y.1 := by
    rw [later, later, List.filter_filter, (pageTag_of_mem hx).1]
    refine List.filter_congr fun y _ => ?_
    rw [← Bool.decide_and]
    exact decide_eq_decide.mpr (iff_self_and.mpr hlt.trans)
  rw [hrest]
  exact List.length_filter_lt_length_iff_exists.mpr ⟨x, hx, by simp⟩

theorem walk_spec (t : Table m) {passes : ℕ} (haddress : address < Space)
    (hpasses : (t.later address).length < passes) :
    ∃ visited, t.walk passes address = some visited ∧
      visited.Pairwise (fun x y => x.1 < y.1) ∧ ∀ x, x ∈ visited ↔ x ∈ t.later address := by
  induction passes generalizing address with
  | zero => exact absurd hpasses (Nat.not_lt_zero _)
  | succ passes ih =>
    have hnext := t.getNextPage_eq haddress
    cases hmin : (t.later address).argmin Prod.fst with
    | none =>
      refine ⟨[], ?_, List.Pairwise.nil, fun x => ?_⟩
      · simp only [walk, hnext, hmin]
      · rw [List.argmin_eq_none.mp hmin]
    | some x =>
      have hx := List.argmin_mem hmin
      obtain ⟨htag, hlt⟩ := pageTag_of_mem hx
      obtain ⟨visited, hwalk, hsorted, hvisited⟩ :=
        ih hlt ((length_later_lt hx).trans_le (Nat.le_of_lt_succ hpasses))
      have hrest : ∀ y, y ∈ visited ↔ m.pages y.1 = some y.2 ∧ x.1 < y.1 := by
        intro y
        rw [hvisited, mem_later, htag]
      refine ⟨x :: visited, ?_, List.pairwise_cons.mpr ⟨fun y hy => ((hrest y).mp hy).2, hsorted⟩,
        fun y => ?_⟩
      · simp only [walk, hnext, hmin, hwalk, Option.map_some]
      · rw [List.mem_cons, hrest]
        constructor
        · rintro (rfl | ⟨hmem, hy⟩)
          · exact hx
          · exact mem_later.mpr ⟨hmem, (mem_later.mp hx).2.trans hy⟩
        · intro hy
          have hmem := (mem_later.mp hy).1
          rcases (List.le_of_mem_argmin hy hmin).eq_or_lt with heq | hlt
          · exact Or.inl (eq_of_tag_eq hmem (mem_later.mp hx).1 heq.symm)
          · exact Or.inr ⟨hmem, hlt⟩

theorem exists_mem_later (t : Table m) {tag : ℕ} (hlt : pageTag address < tag)
    (hpage : (m.pages tag).isSome = true) : ∃ page, (tag, page) ∈ t.later address := by
  obtain ⟨page, hpage⟩ := Option.isSome_iff_exists.mp hpage
  exact ⟨page, mem_later.mpr ⟨hpage, hlt⟩⟩

theorem getNextPage_eq_none_iff (t : Table m) (haddress : address < Space) :
    t.getNextPage address = none ↔
      ∀ tag, (m.pages tag).isSome = true → tag ≤ pageTag address := by
  rw [t.getNextPage_eq haddress, List.argmin_eq_none, List.eq_nil_iff_forall_not_mem]
  constructor
  · intro h tag hpage
    by_contra hlt
    obtain ⟨page, hmem⟩ := t.exists_mem_later (not_le.mp hlt) hpage
    exact h _ hmem
  · intro h x hx
    obtain ⟨hpage, hlt⟩ := mem_later.mp hx
    exact absurd (h x.1 (by rw [hpage]; rfl)) (not_le.mpr hlt)

theorem getNextPage_eq_some_iff (t : Table m) (haddress : address < Space) (x : ℕ × Page) :
    t.getNextPage address = some x ↔ m.pages x.1 = some x.2 ∧
      IsLeast {tag | pageTag address < tag ∧ (m.pages tag).isSome = true} x.1 := by
  constructor
  · intro h
    rw [t.getNextPage_eq haddress] at h
    obtain ⟨hpage, hlt⟩ := mem_later.mp (List.argmin_mem h)
    refine ⟨hpage, ⟨hlt, by rw [hpage]; rfl⟩, fun tag htag => ?_⟩
    obtain ⟨page, hmem⟩ := t.exists_mem_later htag.1 htag.2
    exact List.le_of_mem_argmin hmem h
  · rintro ⟨hpage, hleast⟩
    have hmem : x ∈ t.later address := mem_later.mpr ⟨hpage, hleast.1.1⟩
    rw [t.getNextPage_eq haddress]
    cases hmin : (t.later address).argmin Prod.fst with
    | none =>
      rw [List.argmin_eq_none.mp hmin] at hmem
      exact absurd hmem List.not_mem_nil
    | some y =>
      obtain ⟨hy, hlt⟩ := mem_later.mp (List.argmin_mem hmin)
      have hle := hleast.2 ⟨hlt, by rw [hy]; rfl⟩
      exact congrArg some (eq_of_tag_eq hy hpage
        (le_antisymm (List.le_of_mem_argmin hmem hmin) hle))

end Table

open Table

/-- The next page is the one with the lowest tag behind the page of the address, and there is none
only if no page has such a tag. A walk visits all of these pages once in ascending order and
ends. -/
theorem nextPages (m : Memory) (t : Table m) {address passes : ℕ} (haddress : address < Space)
    (hpasses : t.entries.length < passes) :
    (∀ x, t.getNextPage address = some x ↔ m.pages x.1 = some x.2 ∧
      IsLeast {tag | pageTag address < tag ∧ (m.pages tag).isSome = true} x.1) ∧
    (t.getNextPage address = none ↔
      ∀ tag, (m.pages tag).isSome = true → tag ≤ pageTag address) ∧
    ∃ visited, t.walk passes address = some visited ∧
      visited.Pairwise (fun x y => x.1 < y.1) ∧
      ∀ x, x ∈ visited ↔ m.pages x.1 = some x.2 ∧ pageTag address < x.1 := by
  have hlength : (t.later address).length < passes :=
    (List.length_filter_le _ _).trans_lt hpasses
  obtain ⟨visited, hwalk, hsorted, hvisited⟩ := t.walk_spec haddress hlength
  refine ⟨t.getNextPage_eq_some_iff haddress, t.getNextPage_eq_none_iff haddress, visited, hwalk,
    hsorted, fun x => ?_⟩
  rw [hvisited, mem_later]

def somePages : Memory :=
  (((Memory.new true).putPage 0x5000 ⟨3, none⟩).putPage 0xfffff000 ⟨3, none⟩).putPage 0x3000
    ⟨3, none⟩

/-- Three pages that were entered in another order, the last one of the space among them. -/
def someTable : Table somePages :=
  (((Table.empty true).put (show 0x5000 < Space by decide) ⟨3, none⟩).put
    (show 0xfffff000 < Space by decide) ⟨3, none⟩).put (show 0x3000 < Space by decide) ⟨3, none⟩

theorem nextPages_someTable :
    ∃ visited, someTable.walk 4 0x3abc = some visited ∧
      visited.Pairwise (fun x y => x.1 < y.1) ∧
      ∀ x, x ∈ visited ↔ somePages.pages x.1 = some x.2 ∧ pageTag 0x3abc < x.1 :=
  (nextPages somePages someTable (by decide) (by decide)).2.2

example : (someTable.walk 4 0x3abc).map (·.map Prod.fst) = some [0x5000, 0xfffff000] := by decide

end MMLMStore.NextPages
