import MMLMStore.PageSpace
import Mathlib.Order.Bounds.Basic

/-!
# Found space

The searches for free space, with loops whose 32-bit variables wrap around at the end of the
space. Upwards they find the lowest free region, downwards the highest one, and neither assertion
in them fails.
-/
namespace MMLMStore.FoundSpace

open PagedMemory PageSpace

/-- How a pass through the body of a search ends. A search without a result has failed its
assertion. -/
inductive Pass
  | again (tag_start tag_end : ℕ)
  | done (found : Option ℕ)

def upPass (m : Memory) (size tag_start tag_end : ℕ) : Pass :=
  if tag_end = 0 then .done (some noSpace)
  else if (m.getPage tag_end).isSome then
    .again ((tag_end + PageSize) % Space) ((tag_end + PageSize) % Space)
  else if (tag_end + Space - tag_start + PageSize) % Space = size then .done (some tag_start)
  else if (tag_end + Space - tag_start + PageSize) % Space < size then
    .again tag_start ((tag_end + PageSize) % Space)
  else .done none

def downPass (m : Memory) (size tag_start tag_end : ℕ) : Pass :=
  if tag_start = 0 then .done (some noSpace)
  else if (m.getPage tag_start).isSome then
    .again ((tag_start + Space - PageSize) % Space) ((tag_start + Space - PageSize) % Space)
  else if (tag_end + Space - tag_start + PageSize) % Space = size then .done (some tag_start)
  else if (tag_end + Space - tag_start + PageSize) % Space < size then
    .again ((tag_start + Space - PageSize) % Space) tag_end
  else .done none

def search (pass : ℕ → ℕ → Pass) : ℕ → ℕ → ℕ → Option (Option ℕ)
  | 0, _, _ => none
  | passes + 1, tag_start, tag_end =>
    match pass tag_start tag_end with
    | .again tag_start tag_end => search pass passes tag_start tag_end
    | .done found => some found

def mapSpaceIn (m : Memory) (passes address size : ℕ) : Option (Option ℕ) :=
  if address % PageSize = 0 ∧ size % PageSize = 0 then
    search (upPass m size) passes address address
  else some none

def mapSpaceDownIn (m : Memory) (passes address size : ℕ) : Option (Option ℕ) :=
  if address % PageSize = 0 ∧ size % PageSize = 0 then
    search (downPass m size) passes address address
  else some none

/-- A result that is the best one of the possible starts, if there are any. -/
structure Finds (best : Set ℕ → ℕ → Prop) (starts : Set ℕ) (found : ℕ) : Prop where
  noSpace_iff : found = noSpace ↔ starts = ∅
  best : found ≠ noSpace → best starts found

def upStarts (m : Memory) (address size : ℕ) : Set ℕ :=
  {start | address ≤ start ∧ FreeSpace m start size}

/-- Starts of free regions up to the page of the address, aligned or not. -/
def downStarts (m : Memory) (address size : ℕ) : Set ℕ :=
  {start | PageSize ≤ start ∧ start + size ≤ address + PageSize ∧
    ∀ x, start ≤ x → x < start + size → m.getPage x = none}

section Results

variable {best : Set ℕ → ℕ → Prop} {starts : Set ℕ} {found : ℕ}

theorem noSpace_not_aligned : noSpace % PageSize ≠ 0 := by decide

theorem ne_noSpace_of_aligned (h : found % PageSize = 0) : found ≠ noSpace := by
  rintro rfl
  exact noSpace_not_aligned h

theorem Finds.of_start (haligned : found % PageSize = 0) (hfound : found ∈ starts)
    (hbest : best starts found) : Finds best starts found := by
  refine ⟨iff_of_false (ne_noSpace_of_aligned haligned) ?_, fun _ => hbest⟩
  exact Set.Nonempty.ne_empty ⟨found, hfound⟩

theorem Finds.of_none (hnone : ∀ start, start ∉ starts) : Finds best starts noSpace :=
  ⟨iff_of_true rfl (Set.eq_empty_of_forall_notMem hnone), fun h => absurd rfl h⟩

end Results

section Searches

variable {m : Memory} {size : ℕ}

theorem fits_one_more {a b : ℕ} (ha : a % PageSize = 0) (hb : b % PageSize = 0)
    (hsize : size % PageSize = 0) (hless : b - a < size) : b - a + PageSize ≤ size := by
  rw [pageSize_eq] at *
  omega

theorem apart_of_mapped {tag start : ℕ} (htag : tag % PageSize = 0)
    (hmapped : (m.getPage tag).isSome = true) (hpos : 0 < size)
    (hfree : ∀ x, start ≤ x → x < start + size → m.getPage x = none) :
    start + size ≤ tag ∨ tag + PageSize ≤ start := by
  by_contra hmeet
  rw [not_or, not_le, not_le] at hmeet
  have hpage_pos : 0 < PageSize := by decide
  have hpage : pageTag (max start tag) = tag :=
    pageTag_eq htag (le_max_right start tag) (max_lt hmeet.2 (by omega))
  have hnone := hfree (max start tag) (le_max_left start tag) (max_lt (by omega) hmeet.1)
  rw [getPage_congr (hpage.trans (pageTag_of_tag htag).symm)] at hnone
  simp [hnone] at hmapped

/-- The search upwards has seen free pages from `tag_start` on, less than it needs, and has no
start in front of them. -/
theorem mapSpaceFrom_finds {left tag_start address : ℕ} (hsize : size % PageSize = 0)
    (haddress : address ≤ tag_start) (hstart : tag_start % PageSize = 0)
    (hspace : tag_start + left * PageSize ≤ Space)
    (hfree : ∀ x, tag_start ≤ x → x < Space - left * PageSize → m.getPage x = none)
    (hless : Space - left * PageSize - tag_start < size)
    (hnone : ∀ start ∈ upStarts m address size, tag_start ≤ start) :
    ∃ found, mapSpaceFrom m size left tag_start = some found ∧
      Finds IsLeast (upStarts m address size) found := by
  induction left generalizing tag_start with
  | zero =>
    refine ⟨noSpace, rfl, .of_none fun start hmem => ?_⟩
    have hle := hnone start hmem
    have hend := hmem.2.space
    omega
  | succ left ih =>
    have hnext : Space - (left + 1) * PageSize + PageSize = Space - left * PageSize := by
      rw [pageSize_eq] at *
      omega
    have hend : (Space - (left + 1) * PageSize) % PageSize = 0 := by
      rw [pageSize_eq, space_eq] at *
      omega
    have hle : tag_start ≤ Space - (left + 1) * PageSize := by omega
    simp only [mapSpaceFrom]
    split_ifs with hmapped hfound hmore
    · -- every start up to here would have the mapped page in its region
      refine ih ?_ ?_ ?_ ?_ ?_ ?_
      · omega
      · rw [pageSize_eq] at *
        omega
      · rw [pageSize_eq] at *
        omega
      · intro x hx hlt
        omega
      · omega
      · intro start hmem
        have hstart' := hnone start hmem
        rcases apart_of_mapped hend hmapped (by omega) hmem.2.unmapped with hbefore | hbehind
        · omega
        · exact hbehind
    · have hall := unmapped_append hend hfree (by simpa using hmapped)
      have hmem : tag_start ∈ upStarts m address size := by
        refine ⟨haddress, hstart, ?_, fun x hx hlt => hall x hx ?_⟩
        · rw [pageSize_eq] at *
          omega
        · omega
      exact ⟨tag_start, rfl, .of_start hstart hmem ⟨hmem, hnone⟩⟩
    · have hall := unmapped_append hend hfree (by simpa using hmapped)
      rw [hnext] at hall
      refine ih haddress hstart ?_ hall ?_ hnone
      · rw [Nat.succ_mul] at hspace
        omega
      · omega
    · have hfits := fits_one_more hstart hend hsize hless
      omega

/-- The search downwards has seen free pages up to `tag_end`, less than it needs, and has no
region that ends behind them. -/
theorem mapSpaceDownFrom_finds {k tag_end address : ℕ} (hsize : size % PageSize = 0)
    (haddress : tag_end ≤ address) (hend : tag_end % PageSize = 0) (hle : k * PageSize ≤ tag_end)
    (hfree : ∀ x, k * PageSize + PageSize ≤ x → x < tag_end + PageSize → m.getPage x = none)
    (hless : tag_end - k * PageSize < size)
    (hnone : ∀ start ∈ downStarts m address size, start + size ≤ tag_end + PageSize) :
    ∃ found, mapSpaceDownFrom m size k tag_end = some found ∧
      Finds IsGreatest (downStarts m address size) found := by
  induction k generalizing tag_end with
  | zero =>
    refine ⟨noSpace, rfl, .of_none fun start hmem => ?_⟩
    have hle := hnone start hmem
    have hstart := hmem.1
    omega
  | succ k ih =>
    have hnext : (k + 1) * PageSize = k * PageSize + PageSize := Nat.succ_mul k PageSize
    have hstart : (k + 1) * PageSize % PageSize = 0 := Nat.mul_mod_left (k + 1) PageSize
    simp only [mapSpaceDownFrom]
    split_ifs with hmapped hfound hmore
    · -- every region down to here would have the mapped page in it
      refine ih ?_ (Nat.mul_mod_left k PageSize) le_rfl ?_ ?_ ?_
      · omega
      · intro x hx hlt
        omega
      · omega
      · intro start hmem
        have hend' := hnone start hmem
        rcases apart_of_mapped hstart hmapped (by omega) hmem.2.2 with hbefore | hbehind
        · exact hbefore.trans hnext.le
        · omega
    · have hmem : (k + 1) * PageSize ∈ downStarts m address size := by
        refine ⟨by omega, by omega, fun x hx hlt => ?_⟩
        exact unmapped_cons hstart (by simpa using hmapped) hfree x hx (by omega)
      exact ⟨_, rfl, .of_start hstart hmem ⟨hmem, fun start h => by have := hnone start h; omega⟩⟩
    · refine ih haddress hend (by omega) (fun x hx hlt => ?_) (by omega) hnone
      exact unmapped_cons hstart (by simpa using hmapped) hfree x (by omega) hlt
    · have hfits := fits_one_more hstart hend hsize (by omega)
      omega

/-- The 32-bit loop upwards does what the recursion over the remaining pages does. -/
theorem search_upPass {left tag_start passes : ℕ} (hpos : 0 < tag_start)
    (hle : tag_start ≤ Space - left * PageSize) (hleft : left * PageSize < Space)
    (hpasses : left < passes) :
    search (upPass m size) passes (tag_start % Space) ((Space - left * PageSize) % Space) =
      some (mapSpaceFrom m size left tag_start) := by
  induction left generalizing tag_start passes with
  | zero =>
    obtain ⟨passes, rfl⟩ := Nat.exists_eq_succ_of_ne_zero hpasses.ne'
    have hzero : (Space - 0 * PageSize) % Space = 0 := by
      rw [Nat.zero_mul, Nat.sub_zero]
      exact Nat.mod_self Space
    rw [hzero, search, upPass, if_pos rfl, mapSpaceFrom]
  | succ left ih =>
    obtain ⟨passes, rfl⟩ := Nat.exists_eq_succ_of_ne_zero (Nat.ne_zero_of_lt hpasses)
    have hnext : Space - (left + 1) * PageSize + PageSize = Space - left * PageSize := by
      rw [pageSize_eq] at *
      omega
    have hleft' : left * PageSize < Space := by
      rw [Nat.succ_mul] at hleft
      omega
    have hend : Space - (left + 1) * PageSize ≠ 0 := by omega
    have hbelow : tag_start ≤ Space - left * PageSize := by omega
    have hpositive : 0 < Space - left * PageSize := by omega
    have hmod : (Space - (left + 1) * PageSize) % Space = Space - (left + 1) * PageSize :=
      Nat.mod_eq_of_lt (by rw [pageSize_eq, space_eq] at *; omega)
    have hmod' : tag_start % Space = tag_start := by
      apply Nat.mod_eq_of_lt
      rw [pageSize_eq, space_eq] at *
      omega
    have hseen : (Space - (left + 1) * PageSize + Space - tag_start + PageSize) % Space =
        Space - (left + 1) * PageSize - tag_start + PageSize := by
      rw [pageSize_eq, space_eq] at *
      omega
    rw [search, upPass, hmod, hmod', hseen, hnext, if_neg hend]
    simp only [mapSpaceFrom, hnext]
    split_ifs
    · exact ih hpositive le_rfl hleft' (by omega)
    · rfl
    · have hagain := ih hpos hbelow hleft' (Nat.lt_of_succ_lt_succ hpasses)
      rwa [hmod'] at hagain
    · rfl

/-- The 32-bit loop downwards does what the recursion over the pages below does. -/
theorem search_downPass {k tag_end passes : ℕ} (hle : k * PageSize ≤ tag_end)
    (hend : tag_end < Space) (hpasses : k < passes) :
    search (downPass m size) passes (k * PageSize) tag_end =
      some (mapSpaceDownFrom m size k tag_end) := by
  induction k generalizing tag_end passes with
  | zero =>
    obtain ⟨passes, rfl⟩ := Nat.exists_eq_succ_of_ne_zero hpasses.ne'
    rw [Nat.zero_mul, search, downPass, if_pos rfl, mapSpaceDownFrom]
  | succ k ih =>
    obtain ⟨passes, rfl⟩ := Nat.exists_eq_succ_of_ne_zero (Nat.ne_zero_of_lt hpasses)
    have hnext : ((k + 1) * PageSize + Space - PageSize) % Space = k * PageSize := by
      rw [pageSize_eq, space_eq] at *
      omega
    have hseen : (tag_end + Space - (k + 1) * PageSize + PageSize) % Space =
        tag_end - (k + 1) * PageSize + PageSize := by
      rw [pageSize_eq, space_eq] at *
      omega
    have hpos : (k + 1) * PageSize ≠ 0 := Nat.mul_ne_zero (Nat.succ_ne_zero k) pageSize_pos.ne'
    have hbelow : k * PageSize ≤ tag_end := by
      rw [Nat.succ_mul] at hle
      omega
    rw [search, downPass, hnext, hseen, if_neg hpos]
    simp only [mapSpaceDownFrom]
    split_ifs
    · exact ih le_rfl (hbelow.trans_lt hend) (Nat.lt_of_succ_lt_succ hpasses)
    · rfl
    · exact ih hbelow hend (Nat.lt_of_succ_lt_succ hpasses)
    · rfl

end Searches

/-- Both searches end without a failed assertion, upwards with the lowest free start and downwards
with the highest one, or without any if there is none. -/
theorem mapSpaces_find (m : Memory) {address size passes : ℕ} (haddress : address % PageSize = 0)
    (hpos : 0 < address) (hlt : address < Space) (hsize : size % PageSize = 0)
    (hsize_pos : 0 < size) (hpasses : Space / PageSize ≤ passes) :
    (∃ found, mapSpaceIn m passes address size = some (some found) ∧
      Finds IsLeast (upStarts m address size) found) ∧
    ∃ found, mapSpaceDownIn m passes address size = some (some found) ∧
      Finds IsGreatest (downStarts m address size) found := by
  constructor
  · have hpages : Space - (Space - address) / PageSize * PageSize = address := by
      rw [pageSize_eq, space_eq] at *
      omega
    have hleft : (Space - address) / PageSize < passes := by
      rw [pageSize_eq, space_eq] at *
      omega
    obtain ⟨found, hfound, hspec⟩ : ∃ found,
        mapSpaceFrom m size ((Space - address) / PageSize) address = some found ∧
          Finds IsLeast (upStarts m address size) found :=
      mapSpaceFrom_finds hsize le_rfl haddress (by omega) (fun x hx hlt => by omega) (by omega)
        (fun start hmem => hmem.1)
    have hsearch : search (upPass m size) passes _ _ = _ :=
      search_upPass hpos hpages.ge (by omega) hleft
    rw [hpages, Nat.mod_eq_of_lt hlt, hfound] at hsearch
    exact ⟨found, (if_pos ⟨haddress, hsize⟩).trans hsearch, hspec⟩
  · have hpages : address / PageSize * PageSize = address :=
      Nat.div_mul_cancel (Nat.dvd_of_mod_eq_zero haddress)
    have hleft : address / PageSize < passes := by
      rw [pageSize_eq, space_eq] at *
      omega
    obtain ⟨found, hfound, hspec⟩ : ∃ found,
        mapSpaceDownFrom m size (address / PageSize) address = some found ∧
          Finds IsGreatest (downStarts m address size) found :=
      mapSpaceDownFrom_finds hsize le_rfl haddress hpages.le (fun x hx hlt => by omega) (by omega)
        (fun start hmem => hmem.2.1)
    have hsearch : search (downPass m size) passes _ _ = _ := search_downPass hpages.le hlt hleft
    rw [hpages, hfound] at hsearch
    exact ⟨found, (if_pos ⟨haddress, hsize⟩).trans hsearch, hspec⟩

def twoPages : Memory := mapPage 3 (mapPage 3 (.new true) 0x3000) 0x5000

theorem mapSpaces_find_twoPages :
    (∃ found, mapSpaceIn twoPages (Space / PageSize) 0x2000 0x2000 = some (some found) ∧
      Finds IsLeast (upStarts twoPages 0x2000 0x2000) found) ∧
    ∃ found, mapSpaceDownIn twoPages (Space / PageSize) 0x2000 0x2000 = some (some found) ∧
      Finds IsGreatest (downStarts twoPages 0x2000 0x2000) found :=
  mapSpaces_find twoPages (by decide) (by decide) (by decide) (by decide) (by decide) le_rfl

example : mapSpaceIn twoPages 6 0x2000 0x2000 = some (some 0x6000) ∧
    mapSpaceDownIn twoPages 6 0x4000 0x2000 = some (some 0x1000) := by decide

end MMLMStore.FoundSpace
