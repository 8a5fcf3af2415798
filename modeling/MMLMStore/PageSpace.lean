import MMLMStore.PagedMemory

/-!
# Mapping pages

Pages of a memory space are mapped and unmapped in loops over their tags, and free space for them
is looked for upwards and downwards. A loop that has to reach the last page of the space does not
end, as its tag wraps around.
-/
namespace MMLMStore.PageSpace

open PagedMemory

/-- What `(unsigned) -1` stands for. -/
def noSpace : ℕ := Space - 1

/-- The tags visited by `for (tag = tag1; tag <= tag2; tag += PageSize)` for a range of addresses,
if the loop ends. -/
def tags (address size : ℕ) : Option (List ℕ) :=
  let tag1 := pageTag address
  let tag2 := pageTag ((address + size + (Space - 1)) % Space)
  if tag2 + PageSize = Space then none
  else some ((List.range ((tag2 + PageSize - tag1) / PageSize)).map fun i => tag1 + i * PageSize)

def mapPage (perm : ℕ) (m : Memory) (tag : ℕ) : Memory :=
  m.putPage tag (((m.getPage tag).getD ⟨perm, none⟩).addPerm perm)

def erasePage (m : Memory) (tag : ℕ) : Memory :=
  { m with pages := fun t => if t = tag then none else m.pages t }

def Map (m : Memory) (address size perm : ℕ) : Option Memory :=
  (tags address size).map fun visited => visited.foldl (mapPage perm) m

def Unmap (m : Memory) (address size : ℕ) : Option Memory :=
  if address % PageSize = 0 ∧ size % PageSize = 0 then
    (tags address size).map fun visited => visited.foldl erasePage m
  else none

/-- The loop of `MapSpace` with a number of pages left until `tag_end` wraps around. There is no
result if the assertion fails. -/
def mapSpaceFrom (m : Memory) (size : ℕ) : ℕ → ℕ → Option ℕ
  | 0, _ => some noSpace
  | left + 1, tag_start =>
    let tag_end := Space - (left + 1) * PageSize
    if (m.getPage tag_end).isSome then mapSpaceFrom m size left (tag_end + PageSize)
    else if tag_end - tag_start + PageSize = size then some tag_start
    else if tag_end - tag_start + PageSize < size then mapSpaceFrom m size left tag_start
    else none

def MapSpace (m : Memory) (address size : ℕ) : Option ℕ :=
  if address % PageSize = 0 ∧ size % PageSize = 0 then
    mapSpaceFrom m size ((Space - address) % Space / PageSize) address
  else none

/-- The loop of `MapSpaceDown` with `tag_start` in pages. -/
def mapSpaceDownFrom (m : Memory) (size : ℕ) : ℕ → ℕ → Option ℕ
  | 0, _ => some noSpace
  | k + 1, tag_end =>
    let tag_start := (k + 1) * PageSize
    if (m.getPage tag_start).isSome then mapSpaceDownFrom m size k (k * PageSize)
    else if tag_end - tag_start + PageSize = size then some tag_start
    else if tag_end - tag_start + PageSize < size then mapSpaceDownFrom m size k tag_end
    else none

def MapSpaceDown (m : Memory) (address size : ℕ) : Option ℕ :=
  if address % PageSize = 0 ∧ size % PageSize = 0 then
    mapSpaceDownFrom m size (address / PageSize) address
  else none

theorem pageSize_eq : PageSize = 4096 := by decide

theorem space_eq : Space = 4294967296 := by decide

theorem pageTag_spec (x : ℕ) :
    pageTag x % PageSize = 0 ∧ pageTag x ≤ x ∧ x < pageTag x + PageSize := by
  simp only [pageTag, pageSize_eq]
  omega

theorem pageTag_eq {x tag : ℕ} (htag : tag % PageSize = 0) (hle : tag ≤ x)
    (hlt : x < tag + PageSize) : pageTag x = tag := by
  simp only [pageTag, pageSize_eq] at *
  omega

theorem pageTag_of_tag {tag : ℕ} (htag : tag % PageSize = 0) : pageTag tag = tag :=
  pageTag_eq htag le_rfl (Nat.lt_add_of_pos_right pageSize_pos)

theorem pageTag_eq_iff_mem {x tag : ℕ} (htag : tag % PageSize = 0) :
    pageTag x = tag ↔ tag ≤ x ∧ x < tag + PageSize := by
  refine ⟨fun h => ?_, fun h => pageTag_eq htag h.1 h.2⟩
  rw [← h]
  exact (pageTag_spec x).2

theorem pageTag_between {a x b : ℕ} (hax : a ≤ x) (hxb : x ≤ b) (h : pageTag a = pageTag b) :
    pageTag x = pageTag a := by
  obtain ⟨haligned, hle, -⟩ := pageTag_spec a
  obtain ⟨-, -, hlt⟩ := pageTag_spec b
  rw [← h] at hlt
  exact pageTag_eq haligned (hle.trans hax) (hxb.trans_lt hlt)

variable {m : Memory}

theorem getPage_congr {x y : ℕ} (h : pageTag x = pageTag y) : m.getPage x = m.getPage y := by
  unfold Memory.getPage
  rw [h]

theorem mem_tags {address size : ℕ} (hsize : 0 < size) (hspace : address + size ≤ Space)
    {visited : List ℕ} (h : tags address size = some visited) (tag : ℕ) :
    tag ∈ visited ↔ tag % PageSize = 0 ∧ pageTag address ≤ tag ∧ tag < address + size := by
  have hwrap : (address + size + (Space - 1)) % Space = address + size - 1 := by
    rw [space_eq] at *
    omega
  simp only [tags, hwrap] at h
  split_ifs at h with hlast
  obtain rfl := Option.some.inj h
  simp only [List.mem_map, List.mem_range]
  simp only [pageTag, pageSize_eq] at *
  constructor
  · rintro ⟨i, hi, rfl⟩
    omega
  · rintro ⟨htag, hle, hlt⟩
    exact ⟨(tag - address / 4096 * 4096) / 4096, by omega, by omega⟩

theorem tags_isSome_iff {address size : ℕ} (hsize : 0 < size) (hspace : address + size ≤ Space) :
    (tags address size).isSome = true ↔ pageTag (address + size - 1) + PageSize < Space := by
  have hwrap : (address + size + (Space - 1)) % Space = address + size - 1 := by
    rw [space_eq] at *
    omega
  simp only [tags, hwrap]
  split_ifs with hlast
  · simp [hlast]
  · have hle : pageTag (address + size - 1) + PageSize ≤ Space := by
      simp only [pageTag, pageSize_eq, space_eq] at *
      omega
    simpa using lt_of_le_of_ne hle hlast

theorem getPage_mapPage (perm : ℕ) (m : Memory) {tag : ℕ} (htag : tag % PageSize = 0) (x : ℕ) :
    ((mapPage perm m tag).getPage x).isSome = true ↔
      (m.getPage x).isSome = true ∨ pageTag x = tag := by
  have hpage : x / PageSize = tag / PageSize ↔ pageTag x = tag := by
    rw [← pageTag_eq_iff, pageTag_of_tag htag]
  rw [mapPage, getPage_putPage, ← hpage]
  split_ifs with hx <;> simp [hx]

theorem getPage_foldl_mapPage (perm : ℕ) {visited : List ℕ}
    (hvisited : ∀ tag ∈ visited, tag % PageSize = 0) (m : Memory) (x : ℕ) :
    ((visited.foldl (mapPage perm) m).getPage x).isSome = true ↔
      (m.getPage x).isSome = true ∨ pageTag x ∈ visited := by
  induction visited generalizing m with
  | nil => simp
  | cons tag rest ih =>
    rw [List.forall_mem_cons] at hvisited
    rw [List.foldl_cons, ih hvisited.2, getPage_mapPage perm m hvisited.1, List.mem_cons]
    tauto

theorem getPage_erasePage (m : Memory) (tag x : ℕ) :
    ((erasePage m tag).getPage x).isSome = true ↔
      (m.getPage x).isSome = true ∧ pageTag x ≠ tag := by
  simp only [erasePage, Memory.getPage]
  split_ifs with hx <;> simp [hx]

theorem getPage_foldl_erasePage (visited : List ℕ) (m : Memory) (x : ℕ) :
    ((visited.foldl erasePage m).getPage x).isSome = true ↔
      (m.getPage x).isSome = true ∧ pageTag x ∉ visited := by
  induction visited generalizing m with
  | nil => simp
  | cons tag rest ih =>
    rw [List.foldl_cons, ih, getPage_erasePage, List.mem_cons]
    tauto

structure FreeSpace (m : Memory) (address size : ℕ) : Prop where
  aligned : address % PageSize = 0
  space : address + size ≤ Space
  unmapped : ∀ x, address ≤ x → x < address + size → m.getPage x = none

theorem unmapped_page {b x : ℕ} (hb : b % PageSize = 0) (hpage : m.getPage b = none)
    (hle : b ≤ x) (hlt : x < b + PageSize) : m.getPage x = none := by
  rw [getPage_congr ((pageTag_eq hb hle hlt).trans (pageTag_of_tag hb).symm), hpage]

theorem unmapped_append {a b : ℕ} (hb : b % PageSize = 0)
    (hbefore : ∀ x, a ≤ x → x < b → m.getPage x = none) (hpage : m.getPage b = none) :
    ∀ x, a ≤ x → x < b + PageSize → m.getPage x = none := by
  intro x hle hlt
  rcases lt_or_ge x b with hx | hx
  · exact hbefore x hle hx
  · exact unmapped_page hb hpage hx hlt

theorem unmapped_cons {a b : ℕ} (ha : a % PageSize = 0) (hpage : m.getPage a = none)
    (hbehind : ∀ x, a + PageSize ≤ x → x < b → m.getPage x = none) :
    ∀ x, a ≤ x → x < b → m.getPage x = none := by
  intro x hle hlt
  rcases lt_or_ge x (a + PageSize) with hx | hx
  · exact unmapped_page ha hpage hle hx
  · exact hbehind x hx hlt

/-- The search upwards, once it has seen the free pages up to `tag_end`. -/
theorem mapSpaceFrom_spec {size left tag_start address : ℕ}
    (hleft : tag_start + left * PageSize ≤ Space) (hstart : tag_start % PageSize = 0)
    (hfree : ∀ x, tag_start ≤ x → x < Space - left * PageSize → m.getPage x = none)
    (h : mapSpaceFrom m size left tag_start = some address) (haddress : address ≠ noSpace) :
    FreeSpace m address size := by
  induction left generalizing tag_start with
  | zero => exact absurd (Option.some.inj h).symm haddress
  | succ left ih =>
    simp only [mapSpaceFrom] at h
    have hspace : Space % PageSize = 0 := by decide
    have hend : (Space - (left + 1) * PageSize) % PageSize = 0 := by
      rw [pageSize_eq] at *
      omega
    have hnext : Space - (left + 1) * PageSize + PageSize = Space - left * PageSize := by
      rw [pageSize_eq] at *
      omega
    split_ifs at h with hmapped hfound hmore
    · refine ih ?_ ?_ ?_ h
      · rw [pageSize_eq] at *
        omega
      · rw [pageSize_eq] at *
        omega
      · intro x hle hlt
        omega
    · obtain rfl := Option.some.inj h
      have hall := unmapped_append hend hfree (by simpa using hmapped)
      refine ⟨hstart, ?_, fun x hle hlt => hall x hle ?_⟩
      · rw [pageSize_eq] at *
        omega
      · omega
    · have hall := unmapped_append hend hfree (by simpa using hmapped)
      rw [hnext] at hall
      refine ih ?_ hstart hall h
      rw [Nat.succ_mul] at hleft
      omega

theorem mapSpace_spec {address size found : ℕ} (h : MapSpace m address size = some found)
    (hfound : found ≠ noSpace) : FreeSpace m found size := by
  unfold MapSpace at h
  split_ifs at h with haligned
  rcases Nat.eq_zero_or_pos ((Space - address) % Space / PageSize) with hleft | hleft
  · rw [hleft] at h
    exact absurd (Option.some.inj h).symm hfound
  · have hlt : address < Space := by
      by_contra hno
      rw [Nat.sub_eq_zero_of_le (not_lt.mp hno)] at hleft
      simp at hleft
    have hpages : address + (Space - address) % Space / PageSize * PageSize = Space := by
      have hzero : address ≠ 0 := by
        rintro rfl
        simp at hleft
      have haddress := haligned.1
      rw [pageSize_eq, space_eq] at *
      omega
    refine mapSpaceFrom_spec hpages.le haligned.1 ?_ h hfound
    intro x hle hlt
    omega

/-- The search downwards, once it has seen the free pages above `tag_start` up to `tag_end`. -/
theorem mapSpaceDownFrom_spec {size k tag_end address : ℕ} (hend : k * PageSize ≤ tag_end)
    (hspace : tag_end + PageSize ≤ Space)
    (hfree : ∀ x, k * PageSize + PageSize ≤ x → x < tag_end + PageSize → m.getPage x = none)
    (h : mapSpaceDownFrom m size k tag_end = some address) (haddress : address ≠ noSpace) :
    FreeSpace m address size ∧ address + size ≤ tag_end + PageSize := by
  induction k generalizing tag_end with
  | zero => exact absurd (Option.some.inj h).symm haddress
  | succ k ih =>
    simp only [mapSpaceDownFrom] at h
    have hnext : (k + 1) * PageSize = k * PageSize + PageSize := Nat.succ_mul k PageSize
    have hstart : (k + 1) * PageSize % PageSize = 0 := Nat.mul_mod_left (k + 1) PageSize
    split_ifs at h with hmapped hfound hmore
    · obtain ⟨hspec, hle⟩ := ih le_rfl (by omega) (fun x hle hlt => by omega) h
      exact ⟨hspec, by omega⟩
    · obtain rfl := Option.some.inj h
      refine ⟨⟨hstart, by omega, fun x hle hlt => ?_⟩, by omega⟩
      exact unmapped_cons hstart (by simpa using hmapped) hfree x hle (by omega)
    · refine ih (by omega) hspace (fun x hle hlt => ?_) h
      exact unmapped_cons hstart (by simpa using hmapped) hfree x (by omega) hlt

theorem mapSpaceDown_spec {address size found : ℕ} (hspace : address + PageSize ≤ Space)
    (h : MapSpaceDown m address size = some found) (hfound : found ≠ noSpace) :
    FreeSpace m found size ∧ found + size ≤ address + PageSize := by
  unfold MapSpaceDown at h
  split_ifs at h with haligned
  have haddress : address / PageSize * PageSize = address :=
    Nat.div_mul_cancel (Nat.dvd_of_mod_eq_zero haligned.1)
  refine mapSpaceDownFrom_spec haddress.le hspace (fun x hle hlt => ?_) h hfound
  omega

theorem mapSpaceFrom_isSome (m : Memory) {left tag_start : ℕ}
    (hleft : tag_start + left * PageSize = Space) :
    (mapSpaceFrom m PageSize left tag_start).isSome = true := by
  induction left generalizing tag_start with
  | zero => rfl
  | succ left ih =>
    have hend : Space - (left + 1) * PageSize = tag_start := by omega
    simp only [mapSpaceFrom, hend]
    split_ifs with hmapped hfound hmore
    · refine ih ?_
      rw [Nat.succ_mul] at hleft
      omega
    · rfl
    · omega
    · omega

theorem mapSpace_isSome (m : Memory) {address : ℕ} (haddress : address % PageSize = 0)
    (hlt : address < Space) (hpos : 0 < address) :
    (MapSpace m address PageSize).isSome = true := by
  rw [MapSpace, if_pos ⟨haddress, Nat.mod_self PageSize⟩]
  refine mapSpaceFrom_isSome m ?_
  rw [pageSize_eq, space_eq] at *
  omega

/-- The assertion of the search downwards holds: what it has seen grows by one page at a time. -/
theorem mapSpaceDownFrom_isSome (m : Memory) {size k tag_end : ℕ} (hsize : size % PageSize = 0)
    (hend : tag_end % PageSize = 0) (hle : k * PageSize ≤ tag_end)
    (hseen : tag_end + PageSize ≤ k * PageSize + size) :
    (mapSpaceDownFrom m size k tag_end).isSome = true := by
  induction k generalizing tag_end with
  | zero => rfl
  | succ k ih =>
    have hnext : (k + 1) * PageSize = k * PageSize + PageSize := Nat.succ_mul k PageSize
    have hmod : k * PageSize % PageSize = 0 := Nat.mul_mod_left k PageSize
    simp only [mapSpaceDownFrom]
    split_ifs with hmapped hfound hmore
    · refine ih hmod le_rfl ?_
      omega
    · rfl
    · refine ih hend (by omega) ?_
      -- both sides are whole pages
      obtain ⟨e, he⟩ := Nat.dvd_of_mod_eq_zero hend
      obtain ⟨p, hp⟩ := Nat.dvd_of_mod_eq_zero hsize
      have hpages : PageSize * (e + 1) < PageSize * (p + (k + 1)) := by
        rw [Nat.mul_add, Nat.mul_add, ← he, ← hp, Nat.mul_comm PageSize (k + 1), Nat.mul_one]
        omega
      have hless : e + 1 < p + (k + 1) := Nat.lt_of_mul_lt_mul_left hpages
      have hall : PageSize * (e + 1) ≤ PageSize * (p + k) := Nat.mul_le_mul_left _ (by omega)
      rw [Nat.mul_add, Nat.mul_add, ← he, ← hp, Nat.mul_comm PageSize k, Nat.mul_one] at hall
      omega
    · omega

theorem mapSpaceDown_isSome (m : Memory) {address size : ℕ} (haddress : address % PageSize = 0)
    (hsize : size % PageSize = 0) (hpos : PageSize ≤ size) :
    (MapSpaceDown m address size).isSome = true := by
  have hdiv : address / PageSize * PageSize = address :=
    Nat.div_mul_cancel (Nat.dvd_of_mod_eq_zero haddress)
  rw [MapSpaceDown, if_pos ⟨haddress, hsize⟩]
  exact mapSpaceDownFrom_isSome m hsize haddress hdiv.le (by omega)

end MMLMStore.PageSpace
