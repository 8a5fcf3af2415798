import MMLMStore.PagedMemory

/-!
# Page copies

Regions of whole pages are copied one page after the other, with or without data on either side.
The regions must not overlap, which is tested with sums that wrap around, and no permissions are
checked.
-/
namespace MMLMStore.PageCopies

open ChunkedAccess PagedMemory

/-- How a copy ends if it does not return. -/
inductive Failure
  | Error (e : PagedMemory.Error)
  | Overlapping
  | Assertion
  deriving DecidableEq, Repr

/-- The destination page with the data of the source page, or zeros if that has none. -/
def copyPage (page_dest page_src : Page) : Page :=
  match page_src.data with
  | some data => { page_dest.AllocateData with data := some data }
  | none => { page_dest with data := page_dest.data.map fun _ _ => 0 }

def copyPages : ℕ → Memory → ℕ → ℕ → Memory × Except Failure Unit
  | 0, m, _, _ => (m, .ok ())
  | n + 1, m, dest, src =>
    match m.getPage dest, m.getPage src with
    | some page_dest, some page_src =>
      copyPages n (m.putPage dest (copyPage page_dest page_src)) ((dest + PageSize) % Space)
        ((src + PageSize) % Space)
    | _, _ => (m, .error .Assertion)

def Copy (m : Memory) (dest src size : ℕ) : Memory × Except Failure Unit :=
  if dest % PageSize = 0 ∧ src % PageSize = 0 ∧ size % PageSize = 0 then
    if src < dest ∧ dest < (src + size) % Space ∨ dest < src ∧ src < (dest + size) % Space then
      (m, .error .Overlapping)
    else copyPages (size / PageSize) m dest src
  else (m, .error .Assertion)

def Overlap (dest src size : ℕ) : Prop :=
  ∃ i < size, ∃ j < size, advance Space dest i = advance Space src j

def Mapped (m : Memory) (dest src size : ℕ) : Prop :=
  ∀ i < size, (m.getPage (advance Space dest i)).isSome = true ∧
    (m.getPage (advance Space src i)).isSome = true

def Permitted (m : Memory) (dest src size : ℕ) : Prop :=
  ∀ i < size, m.Permits .AccessRead (advance Space src i) ∧
    m.Permits .AccessWrite (advance Space dest i)

structure Meant (m : Memory) (dest src size : ℕ) : Prop where
  copied : ¬ Overlap dest src size → Mapped m dest src size →
    m.safe = false ∨ Permitted m dest src size →
    ∃ m', Copy m dest src size = (m', .ok ()) ∧ Moves Space Memory.byteAt m m' dest src size
  denied : ¬ Overlap dest src size → Mapped m dest src size →
    m.safe = true → ¬ Permitted m dest src size →
    ∃ e, Copy m dest src size = (m, .error (.Error e))
  rejected : Overlap dest src size → Copy m dest src size = (m, .error .Overlapping)

/-- The overlap that the test finds: two different starts, and a lower region that ends inside of
the space and behind the other start. -/
def Detected (dest src size : ℕ) : Prop :=
  dest ≠ src ∧ min dest src + size < Space ∧ max dest src < min dest src + size

instance (dest src size : ℕ) : Decidable (Detected dest src size) :=
  inferInstanceAs (Decidable (_ ∧ _))

theorem byte_copyPage (page_dest page_src : Page) (i : ℕ) :
    (copyPage page_dest page_src).byte i = page_src.byte i := by
  unfold copyPage Page.byte
  cases page_src.data with
  | some data => rfl
  | none => cases page_dest.data <;> rfl

section Copies

variable {m : Memory} {dest src size : ℕ}

theorem advance_page {address i : ℕ} (haligned : address % PageSize = 0) (hlt : address < Space)
    (hi : i < PageSize) : (advance Space address i) / PageSize = address / PageSize ∧
      advance Space address i % PageSize = i := by
  have hchunk : address % PageSize + PageSize ≤ PageSize := by rw [haligned, Nat.zero_add]
  obtain ⟨hadv, hdiv, hmod⟩ := advance_chunk pageSize_dvd hlt hchunk hi
  rw [hadv]
  exact ⟨hdiv, by rw [hmod, haligned, Nat.zero_add]⟩

theorem moves_page (page_dest : Page) {page_src : Page} (hdest : dest % PageSize = 0)
    (hdest' : dest < Space) (hsrc : src % PageSize = 0) (hsrc' : src < Space)
    (hpage : m.getPage src = some page_src) :
    Moves Space Memory.byteAt m (m.putPage dest (copyPage page_dest page_src)) dest src
      PageSize := by
  refine ⟨fun i hi => ?_, fun x hx hrange => ?_⟩
  · obtain ⟨hdiv, hmod⟩ := advance_page hdest hdest' hi
    obtain ⟨hdiv', hmod'⟩ := advance_page hsrc hsrc' hi
    rw [byteAt_putPage, if_pos hdiv, hmod, byte_copyPage, Memory.byteAt, Memory.getPage,
      pageTag_eq_iff.mpr hdiv', hmod']
    exact (congrArg (fun page => Option.elim page 0 fun page => page.byte i) hpage).symm
  · rw [byteAt_putPage, if_neg fun hdiv => ?_]
    have hmod := Nat.mod_lt x pageSize_pos
    obtain ⟨hdiv', hmod'⟩ := advance_page hdest hdest' hmod
    refine hrange _ hmod ?_
    rw [← Nat.div_add_mod (advance Space dest (x % PageSize)) PageSize, hdiv', hmod', ← hdiv,
      Nat.div_add_mod]

theorem isSome_getPage_putPage {address x : ℕ} {page : Page}
    (h : (m.getPage x).isSome = true) : ((m.putPage address page).getPage x).isSome = true := by
  rw [getPage_putPage]
  split_ifs
  · rfl
  · exact h

theorem copyPages_moves {n : ℕ} (hdest : dest % PageSize = 0) (hdest' : dest < Space)
    (hsrc : src % PageSize = 0) (hsrc' : src < Space) (hspace : n * PageSize ≤ Space)
    (hmapped : Mapped m dest src (n * PageSize)) (hapart : ¬ Overlap dest src (n * PageSize)) :
    ∃ m', copyPages n m dest src = (m', .ok ()) ∧
      Moves Space Memory.byteAt m m' dest src (n * PageSize) := by
  induction n generalizing m dest src with
  | zero =>
    rw [Nat.zero_mul]
    exact ⟨m, rfl, Moves.nil _ _ _ _⟩
  | succ n ih =>
    have hsize : (n + 1) * PageSize = PageSize + n * PageSize := by
      rw [Nat.succ_mul, Nat.add_comm]
    rw [hsize] at hspace hmapped hapart ⊢
    have hnext : ∀ {a : ℕ}, a % PageSize = 0 → advance Space a PageSize % PageSize = 0 := by
      intro a ha
      rw [advance, Nat.mod_mod_of_dvd _ pageSize_dvd, Nat.add_mod_right, ha]
    -- the first page, then the rest from the memory with it
    obtain ⟨hpage_dest, hpage_src⟩ := hmapped 0 (Nat.add_pos_left pageSize_pos _)
    rw [advance, Nat.add_zero, Nat.mod_eq_of_lt hdest'] at hpage_dest
    rw [advance, Nat.add_zero, Nat.mod_eq_of_lt hsrc'] at hpage_src
    obtain ⟨page_dest, hpage_dest⟩ := Option.isSome_iff_exists.mp hpage_dest
    obtain ⟨page_src, hpage_src⟩ := Option.isSome_iff_exists.mp hpage_src
    have hfirst := moves_page page_dest hdest hdest' hsrc hsrc' hpage_src
    have hmapped' : Mapped (m.putPage dest (copyPage page_dest page_src))
        (advance Space dest PageSize) (advance Space src PageSize) (n * PageSize) := by
      intro i hi
      rw [advance_advance, advance_advance]
      obtain ⟨h, h'⟩ := hmapped (PageSize + i) (Nat.add_lt_add_left hi _)
      exact ⟨isSome_getPage_putPage h, isSome_getPage_putPage h'⟩
    have hapart' : ¬ Overlap (advance Space dest PageSize) (advance Space src PageSize)
        (n * PageSize) := by
      rintro ⟨i, hi, j, hj, heq⟩
      rw [advance_advance, advance_advance] at heq
      exact hapart ⟨_, Nat.add_lt_add_left hi _, _, Nat.add_lt_add_left hj _, heq⟩
    obtain ⟨m', hcopy, hrest⟩ := ih (hnext hdest) (advance_lt hdest' _) (hnext hsrc)
      (advance_lt hsrc' _) (by omega) hmapped' hapart'
    refine ⟨m', ?_, hfirst.append hdest' hsrc' hspace ?_ hrest⟩
    · simp only [copyPages, hpage_dest, hpage_src]
      exact hcopy
    · exact fun i hi j hj heq => hapart ⟨i, by omega, j, hj, heq⟩

/-- The test finds regions that overlap in the way it looks for. -/
theorem test_iff (hsize : size < Space) (hdest : dest < Space) (hsrc : src < Space) :
    (src < dest ∧ dest < (src + size) % Space ∨ dest < src ∧ src < (dest + size) % Space) ↔
      Detected dest src size := by
  unfold Detected
  rcases lt_trichotomy src dest with hlt | rfl | hlt
  · rw [min_eq_right hlt.le, max_eq_left hlt.le]
    rcases lt_or_ge (src + size) Space with hend | hend
    · rw [Nat.mod_eq_of_lt hend]
      omega
    · rw [Nat.mod_eq_sub_mod hend, Nat.mod_eq_of_lt (show src + size - Space < Space by omega)]
      omega
  · omega
  · rw [min_eq_left hlt.le, max_eq_right hlt.le]
    rcases lt_or_ge (dest + size) Space with hend | hend
    · rw [Nat.mod_eq_of_lt hend]
      omega
    · rw [Nat.mod_eq_sub_mod hend, Nat.mod_eq_of_lt (show dest + size - Space < Space by omega)]
      omega

theorem overlap_of_detected (h : Detected dest src size) : Overlap dest src size := by
  obtain ⟨hne, hend, hlt⟩ := h
  rcases le_total src dest with hle | hle
  · rw [min_eq_right hle, max_eq_left hle] at *
    refine ⟨0, by omega, dest - src, by omega, ?_⟩
    rw [advance, advance, Nat.add_zero, Nat.add_sub_cancel' hle]
  · rw [min_eq_left hle, max_eq_right hle] at *
    refine ⟨src - dest, by omega, 0, by omega, ?_⟩
    rw [advance, advance, Nat.add_zero, Nat.add_sub_cancel' hle]

theorem copyPages_ne (n : ℕ) (m : Memory) (dest src : ℕ) {e : Failure} (he : e ≠ .Assertion) :
    (copyPages n m dest src).2 ≠ .error e := by
  induction n generalizing m dest src with
  | zero =>
    intro h
    cases h
  | succ n ih =>
    unfold copyPages
    split
    · exact ih _ _ _
    · intro h
      exact he (Except.error.inj h).symm

/-- A copy does what it is meant to do exactly if no permission that it needs is missing, and if
its regions overlap in a way that the test finds, or not at all. -/
theorem meant_iff (m : Memory) {dest src size : ℕ} (haligned : dest % PageSize = 0)
    (haligned' : src % PageSize = 0) (hpages : size % PageSize = 0) (hdest : dest < Space)
    (hsrc : src < Space) (hsize : size < Space) :
    Meant m dest src size ↔
      (¬ Overlap dest src size → Mapped m dest src size →
        m.safe = false ∨ Permitted m dest src size) ∧
      (Overlap dest src size → Detected dest src size) := by
  have hdiv : size / PageSize * PageSize = size :=
    Nat.div_mul_cancel (Nat.dvd_of_mod_eq_zero hpages)
  have hcopy : Copy m dest src size = if Detected dest src size then (m, .error .Overlapping)
      else copyPages (size / PageSize) m dest src := by
    rw [Copy, if_pos ⟨haligned, haligned', hpages⟩]
    exact if_congr (test_iff hsize hdest hsrc) rfl rfl
  -- the loop, for regions apart
  have hmoves : ¬ Overlap dest src size → Mapped m dest src size →
      ∃ m', Copy m dest src size = (m', .ok ()) ∧
        Moves Space Memory.byteAt m m' dest src size := by
    intro hapart hmapped
    rw [hcopy, if_neg fun h => hapart (overlap_of_detected h)]
    have hspec := copyPages_moves (n := size / PageSize) (m := m) haligned hdest haligned' hsrc
    rw [hdiv] at hspec
    exact hspec hsize.le hmapped hapart
  constructor
  · refine fun h => ⟨fun hapart hmapped => ?_, fun hoverlap => ?_⟩
    · by_contra hdenied
      rw [not_or, Bool.not_eq_false] at hdenied
      obtain ⟨e, he⟩ := h.denied hapart hmapped hdenied.1 hdenied.2
      obtain ⟨m', hm', -⟩ := hmoves hapart hmapped
      rw [he] at hm'
      cases hm'
    · by_contra hnot
      have hrejected := h.rejected hoverlap
      rw [hcopy, if_neg hnot] at hrejected
      exact copyPages_ne _ _ _ _ Failure.noConfusion (congrArg Prod.snd hrejected)
  · rintro ⟨hpermitted, hdetected⟩
    refine ⟨fun hapart hmapped _ => hmoves hapart hmapped, fun hapart hmapped hsafe hdenied => ?_,
      fun hoverlap => ?_⟩
    · rcases hpermitted hapart hmapped with h | h
      · exact absurd (hsafe.symm.trans h) Bool.noConfusion
      · exact absurd h hdenied
    · rw [hcopy, if_pos (hdetected hoverlap)]

theorem not_overlap_of_le {dest src size : ℕ} (hle : src + size ≤ dest)
    (hspace : dest + size ≤ Space) : ¬ Overlap dest src size := by
  rintro ⟨i, hi, j, hj, heq⟩
  rw [advance, advance, Nat.mod_eq_of_lt (by omega), Nat.mod_eq_of_lt (by omega)] at heq
  omega

end Copies

/-- Two pages with permissions, the first one with data. -/
def twoPages (safe : Bool) (perm : ℕ) : Memory :=
  ((Memory.new safe).putPage 0x1000 ⟨perm, some fun i => i.toUInt8⟩).putPage 0x3000 ⟨perm, none⟩

theorem meant_twoPages : Meant (twoPages false 0) 0x3000 0x1000 0x1000 :=
  (meant_iff _ (by decide) (by decide) (by decide) (by decide) (by decide) (by decide)).mpr
    ⟨fun _ _ => Or.inl rfl, fun h => absurd h (not_overlap_of_le (by decide) (by decide))⟩

example : (Copy (twoPages false 0) 0x3000 0x1000 0x1000).1.byteAt 0x3007 = 7 := by decide

/-- Without any permissions the copy goes through in safe mode. -/
theorem meant_fails :
    ¬ ∀ (m : Memory) (dest src size : ℕ), dest % PageSize = 0 → src % PageSize = 0 →
      size % PageSize = 0 → dest < Space → src < Space → size < Space →
      Meant m dest src size := by
  intro h
  have hpages : Mapped (twoPages true 0) 0x3000 0x1000 0x1000 := by
    intro i hi
    have hdest : advance Space 0x3000 i / PageSize = 0x3000 / PageSize :=
      (advance_page (by decide) (by decide) hi).1
    have hsrc : advance Space 0x1000 i / PageSize = 0x1000 / PageSize :=
      (advance_page (by decide) (by decide) hi).1
    rw [Memory.getPage, Memory.getPage, pageTag_eq_iff.mpr hdest, pageTag_eq_iff.mpr hsrc]
    exact ⟨rfl, rfl⟩
  have hdenied : ¬ Permitted (twoPages true 0) 0x3000 0x1000 0x1000 := by
    intro hpermitted
    obtain ⟨page, hpage, hperm⟩ := (hpermitted 0 (by decide)).1
    obtain rfl : (⟨0, some fun i => i.toUInt8⟩ : Page) = page := Option.some.inj hpage
    exact absurd hperm (by decide)
  obtain ⟨e, he⟩ := (h (twoPages true 0) 0x3000 0x1000 0x1000 (by decide) (by decide) (by decide)
    (by decide) (by decide) (by decide)).denied (not_overlap_of_le (by decide) (by decide)) hpages
    rfl hdenied
  have hok : (Copy (twoPages true 0) 0x3000 0x1000 0x1000).2 = .ok () := by rfl
  rw [he] at hok
  cases hok

end MMLMStore.PageCopies
