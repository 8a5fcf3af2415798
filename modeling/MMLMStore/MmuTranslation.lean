import MMLMStore.LMStoreDecode
import MMLMStore.StepRuns

/-!
# Translations of an MMU

Class `Mmu` with its spaces and pages, and the two translations. Pages are handed out in the order
of their creation, so the physical address of a page is its number.
-/
namespace MMLMStore.MmuTranslation
open LMStoreDecode StepRuns

abbrev Address := BitVec 32

def store {K V : Type*} [DecidableEq K] (table : K → Option V) (key : K) (value : V) :
    K → Option V := fun k => if k = key then some value else table k

def LogPageSize : ℕ := 12

def PageSize : Address := 1#32 <<< LogPageSize

def PageMask : Address := ~~~(PageSize - 1)

structure Page where
  /-- Index of the space in `Mmu.spaces`. -/
  space : ℕ
  virtual_address : Address
  physical_address : Address
  deriving DecidableEq

structure Space where
  virtual_pages : Address → Option Page

structure Mmu where
  top_physical_address : Address
  spaces : List Space
  pages : List Page
  physical_pages : Address → Option Page

def Space.new : Space := ⟨fun _ => none⟩

def Space.addPage (s : Space) (page : Page) : Space :=
  ⟨store s.virtual_pages page.virtual_address page⟩

def Space.getPage (s : Space) (virtual_address : Address) : Option Page :=
  s.virtual_pages virtual_address

namespace Mmu

def new : Mmu := ⟨0, [], [], fun _ => none⟩

def newSpace (m : Mmu) : Mmu := { m with spaces := m.spaces ++ [.new] }

/-- The page at the top of the physical addresses, for a tag of a space. -/
def nextPage (m : Mmu) (space : ℕ) (virtual_tag : Address) : Page :=
  ⟨space, virtual_tag, m.top_physical_address⟩

def createPage (m : Mmu) (space : ℕ) (s : Space) (page : Page) : Mmu where
  top_physical_address := m.top_physical_address + PageSize
  spaces := m.spaces.set space (s.addPage page)
  pages := m.pages ++ [page]
  physical_pages := store m.physical_pages page.physical_address page

/-- The page of a virtual address, created if not found. An index past the spaces is no space of
this MMU. -/
def findPage (m : Mmu) (space : ℕ) (virtual_address : Address) : Option (Mmu × Page) := do
  let s ← m.spaces[space]?
  let virtual_tag := virtual_address &&& PageMask
  match s.getPage virtual_tag with
  | some page => some (m, page)
  | none => some (m.createPage space s (m.nextPage space virtual_tag), m.nextPage space virtual_tag)

end Mmu

theorem Address.toNat_lt (a : Address) : a.toNat < 16 ^ 8 := a.isLt

/-- Text of an address as the translation spells it. -/
def Address.text (a : Address) : VirtAddr := translated a.toNat (Address.toNat_lt a)

/-- Addresses of the LMStore are entered into the process-wide map. -/
def record (mem_map : MemMap) (physical_address virtual_address : Address) : MemMap :=
  let p := addrPrefix virtual_address.text.text
  if p = ['7', '1'] ∨ p = ['7', '2'] ∨ p = ['7', '3'] ∨ p = ['7', '4'] ∨ p = ['7', '5'] ∨
      p = ['7', '6'] then
    store mem_map physical_address.toNat virtual_address.text
  else mem_map

/-- The map and the MMU after the translation, and the physical address. -/
def TranslateVirtualAddress (mem_map : MemMap) (m : Mmu) (space : ℕ) (virtual_address : Address) :
    Option (MemMap × Mmu × Address) := do
  let (m', page) ← m.findPage space virtual_address
  let page_offset := virtual_address &&& ~~~PageMask
  let physical_address := page.physical_address + page_offset
  some (record mem_map physical_address virtual_address, m', physical_address)

/-- Whether the page is found, its space (or a null pointer) and the virtual address (or zero). -/
def TranslatePhysicalAddress (m : Mmu) (physical_address : Address) : Bool × Option ℕ × Address :=
  match m.physical_pages (physical_address &&& PageMask) with
  | none => (false, none, 0)
  | some page =>
    (true, some page.space, page.virtual_address + (physical_address &&& ~~~PageMask))

/-! Tags and offsets. -/

section Masks

variable {n : ℕ} {m a b : BitVec n}

/-- An address is its tag plus its offset. -/
theorem tag_add_offset (m a : BitVec n) : (a &&& m) + (a &&& ~~~m) = a := by
  rw [BitVec.add_eq_or_of_and_eq_zero]
  · ext i hi
    simp only [BitVec.getElem_or, BitVec.getElem_and, BitVec.getElem_not]
    cases m[i] <;> simp
  · ext i hi
    simp only [BitVec.getElem_and, BitVec.getElem_not, BitVec.getElem_zero]
    cases m[i] <;> simp

theorem getElem_of_aligned (hb : b &&& ~~~m = 0#n) {i : ℕ} (hi : i < n) (hbit : b[i] = true) :
    m[i] = true := by
  have h : (b &&& ~~~m)[i] = (0#n)[i] := by rw [hb]
  simpa [hbit] using h

theorem add_offset_eq_or (hb : b &&& ~~~m = 0#n) : b + (a &&& ~~~m) = b ||| (a &&& ~~~m) := by
  apply BitVec.add_eq_or_of_and_eq_zero
  rw [BitVec.and_comm a, ← BitVec.and_assoc, hb, BitVec.zero_and]

/-- A tag keeps apart from an offset added to it. -/
theorem add_offset_and_mask (hb : b &&& ~~~m = 0#n) : (b + (a &&& ~~~m)) &&& m = b := by
  rw [add_offset_eq_or hb]
  ext i hi
  have hbit := getElem_of_aligned hb hi
  simp only [BitVec.getElem_or, BitVec.getElem_and, BitVec.getElem_not]
  cases hb' : b[i]
  · cases m[i] <;> simp
  · simp [hbit hb']

theorem add_offset_and_not_mask (hb : b &&& ~~~m = 0#n) :
    (b + (a &&& ~~~m)) &&& ~~~m = a &&& ~~~m := by
  rw [add_offset_eq_or hb]
  ext i hi
  have hbit := getElem_of_aligned hb hi
  simp only [BitVec.getElem_or, BitVec.getElem_and, BitVec.getElem_not]
  cases hb' : b[i]
  · cases m[i] <;> simp
  · simp [hbit hb']

theorem and_mask_aligned (m a : BitVec n) : (a &&& m) &&& ~~~m = 0#n := by
  ext i hi
  simp only [BitVec.getElem_and, BitVec.getElem_not, BitVec.getElem_zero]
  cases m[i] <;> simp

end Masks

def pageAddress (k : ℕ) : Address := BitVec.ofNat 32 (4096 * k)

theorem pageAddress_succ (k : ℕ) : pageAddress (k + 1) = pageAddress k + PageSize := by
  apply BitVec.eq_of_toNat_eq
  have hsize : PageSize.toNat = 4096 := by decide
  rw [BitVec.toNat_add, hsize, pageAddress, pageAddress, BitVec.toNat_ofNat, BitVec.toNat_ofNat]
  omega

theorem pageAddress_aligned (k : ℕ) : pageAddress k &&& ~~~PageMask = 0#32 := by
  apply BitVec.eq_of_toNat_eq
  have hoffsets : (~~~PageMask).toNat = 2 ^ 12 - 1 := by decide
  rw [BitVec.toNat_and, hoffsets, Nat.and_two_pow_sub_one_eq_mod, pageAddress,
    BitVec.toNat_ofNat, BitVec.toNat_zero]
  omega

/-- The numbers of 2^20 pages fit into the physical addresses. -/
theorem pageAddress_injective {i j : ℕ} (hi : i < 2 ^ 20) (hj : j < 2 ^ 20)
    (h : pageAddress i = pageAddress j) : i = j := by
  have hnat := congrArg BitVec.toNat h
  rw [pageAddress, pageAddress, BitVec.toNat_ofNat, BitVec.toNat_ofNat] at hnat
  omega

/-! What the tables hold. -/

def Mmu.lookup (m : Mmu) (space : ℕ) (virtual_tag : Address) : Option Page :=
  (m.spaces[space]?).bind (·.getPage virtual_tag)

/-- Each page is entered in the table of its space and in the physical table, and nothing else. -/
structure Paged (m : Mmu) : Prop where
  top : m.top_physical_address = pageAddress m.pages.length
  numbered : ∀ k page, m.pages[k]? = some page → page.physical_address = pageAddress k
  aligned : ∀ page ∈ m.pages, page.virtual_address &&& ~~~PageMask = 0#32
  physical : ∀ p page, m.physical_pages p = some page ↔
    page ∈ m.pages ∧ page.physical_address = p
  virtual : ∀ space tag page, m.lookup space tag = some page ↔
    page ∈ m.pages ∧ page.space = space ∧ page.virtual_address = tag

theorem paged_new : Paged Mmu.new where
  top := rfl
  numbered := by simp [Mmu.new]
  aligned := by simp [Mmu.new]
  physical := by simp [Mmu.new]
  virtual := by simp [Mmu.new, Mmu.lookup]

theorem lookup_newSpace (m : Mmu) (space : ℕ) (tag : Address) :
    m.newSpace.lookup space tag = m.lookup space tag := by
  unfold Mmu.lookup Mmu.newSpace
  rcases lt_trichotomy space m.spaces.length with h | h | h
  · simp [List.getElem?_append_left h]
  · simp [h, Space.new, Space.getPage]
  · rw [List.getElem?_eq_none (by simp; omega), List.getElem?_eq_none (by omega)]

theorem Paged.newSpace {m : Mmu} (h : Paged m) : Paged m.newSpace where
  top := h.top
  numbered := h.numbered
  aligned := h.aligned
  physical := h.physical
  virtual := by
    intro space tag page
    rw [lookup_newSpace]
    exact h.virtual space tag page

theorem lookup_createPage {m : Mmu} {space : ℕ} {s : Space} (hs : m.spaces[space]? = some s)
    (page : Page) (space' : ℕ) (tag : Address) :
    (m.createPage space s page).lookup space' tag =
      if space' = space ∧ tag = page.virtual_address then some page else m.lookup space' tag := by
  have hlt : space < m.spaces.length := (List.getElem?_eq_some_iff.mp hs).1
  unfold Mmu.lookup Mmu.createPage
  by_cases hspace : space' = space
  · subst hspace
    rw [List.getElem?_set_self hlt, hs, Option.bind_some, Option.bind_some]
    by_cases htag : tag = page.virtual_address
    · simp [htag, Space.getPage, Space.addPage, store]
    · simp [htag, Space.getPage, Space.addPage, store]
  · rw [List.getElem?_set_ne (Ne.symm hspace)]
    simp [hspace]

theorem Paged.top_fresh {m : Mmu} (h : Paged m) (hlen : m.pages.length < 2 ^ 20) {page : Page}
    (hpage : page ∈ m.pages) : page.physical_address ≠ m.top_physical_address := by
  obtain ⟨k, hk⟩ := List.getElem?_of_mem hpage
  have hlt : k < m.pages.length := (List.getElem?_eq_some_iff.mp hk).1
  rw [h.numbered k page hk, h.top]
  intro hsame
  have := pageAddress_injective (by omega) hlen hsame
  omega

theorem Paged.createPage {m : Mmu} (h : Paged m) {space : ℕ} {s : Space} {tag : Address}
    (hs : m.spaces[space]? = some s) (hnone : s.getPage tag = none)
    (htag : tag &&& ~~~PageMask = 0#32) (hlen : m.pages.length < 2 ^ 20) :
    Paged (m.createPage space s (m.nextPage space tag)) where
  top := by
    rw [Mmu.createPage, h.top, List.length_append, List.length_singleton, pageAddress_succ]
  numbered := by
    intro k page hk
    rcases lt_trichotomy k m.pages.length with hlt | heq | hgt
    · rw [Mmu.createPage, List.getElem?_append_left hlt] at hk
      exact h.numbered k page hk
    · subst heq
      have hpage : m.nextPage space tag = page := by simpa [Mmu.createPage] using hk
      rw [← hpage]
      exact h.top
    · rw [Mmu.createPage, List.getElem?_eq_none (by simp; omega)] at hk
      cases hk
  aligned := by
    intro page hpage
    rcases List.mem_append.mp hpage with hpage | hpage
    · exact h.aligned page hpage
    · rw [List.mem_singleton.mp hpage]
      exact htag
  physical := by
    intro p page
    simp only [Mmu.createPage, store, List.mem_append, List.mem_singleton]
    by_cases hp : p = (m.nextPage space tag).physical_address
    · rw [if_pos hp, Option.some.injEq]
      constructor
      · intro hpage
        rw [← hpage, hp]
        exact ⟨Or.inr rfl, rfl⟩
      · intro hpage
        obtain ⟨hmem | hnew, haddress⟩ := hpage
        · exact absurd (haddress.trans hp) (h.top_fresh hlen hmem)
        · exact hnew.symm
    · rw [if_neg hp, h.physical p page]
      constructor
      · intro hpage
        exact ⟨Or.inl hpage.1, hpage.2⟩
      · intro hpage
        obtain ⟨hmem | hnew, haddress⟩ := hpage
        · exact ⟨hmem, haddress⟩
        · rw [hnew] at haddress
          exact absurd haddress.symm hp
  virtual := by
    intro space' tag' page
    have hlookup : m.lookup space tag = none := by
      rw [Mmu.lookup, hs, Option.bind_some]
      exact hnone
    rw [lookup_createPage hs]
    simp only [Mmu.createPage, List.mem_append, List.mem_singleton]
    split_ifs with hnew
    · have hsame : tag' = tag := hnew.2
      rw [Option.some.injEq, hnew.1, hsame]
      constructor
      · intro hpage
        rw [← hpage]
        exact ⟨Or.inr rfl, rfl, rfl⟩
      · intro hpage
        obtain ⟨hmem | hnext, hspace, htag'⟩ := hpage
        · have hsome := (h.virtual space tag page).mpr ⟨hmem, hspace, htag'⟩
          rw [hlookup] at hsome
          cases hsome
        · exact hnext.symm
    · rw [h.virtual]
      constructor
      · intro hpage
        exact ⟨Or.inl hpage.1, hpage.2⟩
      · intro hpage
        obtain ⟨hmem | hnext, hspace, htag'⟩ := hpage
        · exact ⟨hmem, hspace, htag'⟩
        · rw [hnext] at hspace htag'
          exact absurd ⟨hspace.symm, htag'.symm⟩ hnew

theorem findPage_cases {m m' : Mmu} {space : ℕ} {v : Address} {page : Page}
    (h : m.findPage space v = some (m', page)) :
    (m' = m ∧ m.lookup space (v &&& PageMask) = some page) ∨
    (page = m.nextPage space (v &&& PageMask) ∧ ∃ s, m.spaces[space]? = some s ∧
      s.getPage (v &&& PageMask) = none ∧ m' = m.createPage space s page) := by
  obtain ⟨s, hs, hfound⟩ := Option.bind_eq_some_iff.mp h
  dsimp only at hfound
  cases hpage : s.getPage (v &&& PageMask) with
  | some p =>
    rw [hpage] at hfound
    obtain ⟨rfl, rfl⟩ := Prod.mk.inj (Option.some.inj hfound)
    refine Or.inl ⟨rfl, ?_⟩
    rw [Mmu.lookup, hs, Option.bind_some]
    exact hpage
  | none =>
    rw [hpage] at hfound
    obtain ⟨rfl, rfl⟩ := Prod.mk.inj (Option.some.inj hfound)
    exact Or.inr ⟨rfl, s, hs, hpage, rfl⟩

/-! Sequences of calls. -/

inductive Call
  | newSpace
  | TranslateVirtualAddress (space : ℕ) (virtual_address : Address)
  deriving DecidableEq

structure Translation where
  space : ℕ
  virtual_address : Address
  physical_address : Address
  deriving DecidableEq

structure Session where
  mem_map : MemMap
  mmu : Mmu
  translations : List Translation

def Session.call (s : Session) : Call → Option Session
  | .newSpace => some { s with mmu := s.mmu.newSpace }
  | .TranslateVirtualAddress space virtual_address => do
    let (mem_map, mmu, physical_address) ←
      MmuTranslation.TranslateVirtualAddress s.mem_map s.mmu space virtual_address
    some ⟨mem_map, mmu, s.translations ++ [⟨space, virtual_address, physical_address⟩]⟩

def Calls (s : Session) (c : Call) (t : Session) : Prop := s.call c = some t

/-- What the translations made so far have to be. -/
structure Faithful (s : Session) : Prop where
  functional : ∀ x ∈ s.translations, ∀ y ∈ s.translations, x.space = y.space →
    x.virtual_address = y.virtual_address → x.physical_address = y.physical_address
  injective : ∀ x ∈ s.translations, ∀ y ∈ s.translations,
    x.physical_address = y.physical_address →
      x.space = y.space ∧ x.virtual_address = y.virtual_address
  offset : ∀ x ∈ s.translations,
    x.physical_address &&& ~~~PageMask = x.virtual_address &&& ~~~PageMask
  inverse : ∀ x ∈ s.translations, TranslatePhysicalAddress s.mmu x.physical_address =
    (true, some x.space, x.virtual_address)
  /-- Success is for the physical pages handed out. -/
  succeeds : ∀ p, (TranslatePhysicalAddress s.mmu p).1 = true ↔
    ∃ x ∈ s.translations, x.physical_address &&& PageMask = p &&& PageMask
  /-- What comes back translates to the physical address. -/
  returns : ∀ p space v, TranslatePhysicalAddress s.mmu p = (true, some space, v) →
    (TranslateVirtualAddress s.mem_map s.mmu space v).map (·.2.2) = some p

def Translation.On (x : Translation) (page : Page) : Prop :=
  x.space = page.space ∧ x.virtual_address &&& PageMask = page.virtual_address ∧
    x.physical_address = page.physical_address + (x.virtual_address &&& ~~~PageMask)

structure Recorded (s : Session) : Prop where
  paged : Paged s.mmu
  pages : ∀ x ∈ s.translations, ∃ page ∈ s.mmu.pages, x.On page
  handedOut : ∀ page ∈ s.mmu.pages, ∃ x ∈ s.translations, x.On page

theorem recorded_translate {s : Session} (h : Recorded s) {space : ℕ} {v : Address} {m' : Mmu}
    {page : Page} (hfind : s.mmu.findPage space v = some (m', page))
    (hlen : m'.pages.length ≤ 2 ^ 20) (mem_map : MemMap) :
    Recorded ⟨mem_map, m',
      s.translations ++ [⟨space, v, page.physical_address + (v &&& ~~~PageMask)⟩]⟩ := by
  rcases findPage_cases hfind with ⟨rfl, hlookup⟩ | ⟨hpage, sp, hs, hnone, rfl⟩
  · obtain ⟨hmem, hspace, htag⟩ := (h.paged.virtual _ _ _).mp hlookup
    refine ⟨h.paged, fun x hx => ?_, fun p hp => ?_⟩
    · rcases List.mem_append.mp hx with hx | hx
      · exact h.pages x hx
      · rw [List.mem_singleton.mp hx]
        exact ⟨page, hmem, hspace.symm, htag.symm, rfl⟩
    · obtain ⟨x, hx, hon⟩ := h.handedOut p hp
      exact ⟨x, List.mem_append_left _ hx, hon⟩
  · have hlt : s.mmu.pages.length < 2 ^ 20 := by
      rw [Mmu.createPage, List.length_append, List.length_singleton] at hlen
      omega
    have hon : (⟨space, v, page.physical_address + (v &&& ~~~PageMask)⟩ : Translation).On page := by
      rw [hpage]
      exact ⟨rfl, rfl, rfl⟩
    refine ⟨?_, fun x hx => ?_, fun p hp => ?_⟩
    · rw [hpage]
      exact h.paged.createPage hs hnone (and_mask_aligned PageMask v) hlt
    · rcases List.mem_append.mp hx with hx | hx
      · obtain ⟨p, hp, hxp⟩ := h.pages x hx
        exact ⟨p, List.mem_append_left _ hp, hxp⟩
      · rw [List.mem_singleton.mp hx]
        exact ⟨page, List.mem_append_right _ (List.mem_singleton_self _), hon⟩
    · rcases List.mem_append.mp hp with hp | hp
      · obtain ⟨x, hx, hxp⟩ := h.handedOut p hp
        exact ⟨x, List.mem_append_left _ hx, hxp⟩
      · rw [List.mem_singleton.mp hp]
        exact ⟨_, List.mem_append_right _ (List.mem_singleton_self _), hon⟩

theorem length_pages_findPage {m m' : Mmu} {space : ℕ} {v : Address} {page : Page}
    (h : m.findPage space v = some (m', page)) : m.pages.length ≤ m'.pages.length := by
  rcases findPage_cases h with ⟨rfl, -⟩ | ⟨-, s, -, -, rfl⟩
  · exact le_rfl
  · rw [Mmu.createPage, List.length_append]
    omega

theorem recorded_call {s t : Session} {c : Call}
    (h : s.mmu.pages.length ≤ 2 ^ 20 → Recorded s) (hcall : Calls s c t)
    (hlen : t.mmu.pages.length ≤ 2 ^ 20) : Recorded t := by
  cases c with
  | newSpace =>
    cases hcall
    have hs := h hlen
    exact ⟨hs.paged.newSpace, hs.pages, hs.handedOut⟩
  | TranslateVirtualAddress space v =>
    obtain ⟨⟨mem_map, m', p⟩, htranslate, hr⟩ := Option.bind_eq_some_iff.mp hcall
    obtain ⟨⟨m₁, page⟩, hfind, hresult⟩ := Option.bind_eq_some_iff.mp htranslate
    cases hresult
    cases hr
    have hle := length_pages_findPage hfind
    exact recorded_translate (h (hle.trans hlen)) hfind hlen _

theorem recorded_new (mem_map : MemMap) : Recorded ⟨mem_map, .new, []⟩ where
  paged := paged_new
  pages := by simp
  handedOut := by simp [Mmu.new]

/-! From the tables to the translations. -/

namespace Paged

variable {m : Mmu}

theorem eq_of_virtual (h : Paged m) {page page' : Page} (hpage : page ∈ m.pages)
    (hpage' : page' ∈ m.pages) (hspace : page.space = page'.space)
    (htag : page.virtual_address = page'.virtual_address) : page = page' := by
  have hfirst := (h.virtual _ _ page).mpr ⟨hpage, rfl, rfl⟩
  have hsecond := (h.virtual _ _ page').mpr ⟨hpage', rfl, rfl⟩
  rw [hspace, htag, hsecond] at hfirst
  exact (Option.some.inj hfirst).symm

theorem physical_aligned (h : Paged m) {page : Page} (hpage : page ∈ m.pages) :
    page.physical_address &&& ~~~PageMask = 0#32 := by
  obtain ⟨k, hk⟩ := List.getElem?_of_mem hpage
  rw [h.numbered k page hk]
  exact pageAddress_aligned k

theorem tag_of_on (h : Paged m) {x : Translation} {page : Page} (hpage : page ∈ m.pages)
    (hon : x.On page) : x.physical_address &&& PageMask = page.physical_address := by
  rw [hon.2.2]
  exact add_offset_and_mask (h.physical_aligned hpage)

theorem offset_of_on (h : Paged m) {x : Translation} {page : Page} (hpage : page ∈ m.pages)
    (hon : x.On page) :
    x.physical_address &&& ~~~PageMask = x.virtual_address &&& ~~~PageMask := by
  rw [hon.2.2]
  exact add_offset_and_not_mask (h.physical_aligned hpage)

end Paged

theorem findPage_of_lookup {m : Mmu} {space : ℕ} {v : Address} {page : Page}
    (h : m.lookup space (v &&& PageMask) = some page) : m.findPage space v = some (m, page) := by
  obtain ⟨s, hs, hpage⟩ := Option.bind_eq_some_iff.mp h
  simp only [Mmu.findPage, Option.bind_eq_bind, hs, Option.bind_some, hpage]

/-- The page that a physical address lies on gives back what was translated. -/
theorem TranslatePhysicalAddress_of_on {m : Mmu} (h : Paged m) {x : Translation} {page : Page}
    (hpage : page ∈ m.pages) (hon : x.On page) :
    TranslatePhysicalAddress m x.physical_address = (true, some x.space, x.virtual_address) := by
  have hfound : m.physical_pages (x.physical_address &&& PageMask) = some page :=
    (h.physical _ page).mpr ⟨hpage, (h.tag_of_on hpage hon).symm⟩
  have hvirtual : page.virtual_address + (x.physical_address &&& ~~~PageMask) =
      x.virtual_address := by
    rw [h.offset_of_on hpage hon, ← hon.2.1]
    exact tag_add_offset PageMask x.virtual_address
  unfold TranslatePhysicalAddress
  simp only [hfound, hvirtual, hon.1]

/-- The virtual address found for a physical one is translated to it. -/
theorem TranslateVirtualAddress_of_found {m : Mmu} (h : Paged m) (mem_map : MemMap) {p : Address}
    {page : Page} (hfound : m.physical_pages (p &&& PageMask) = some page) :
    (TranslateVirtualAddress mem_map m page.space
      (page.virtual_address + (p &&& ~~~PageMask))).map (·.2.2) = some p := by
  obtain ⟨hpage, hphysical⟩ := (h.physical _ page).mp hfound
  have htag : (page.virtual_address + (p &&& ~~~PageMask)) &&& PageMask = page.virtual_address :=
    add_offset_and_mask (h.aligned page hpage)
  have hoffset : (page.virtual_address + (p &&& ~~~PageMask)) &&& ~~~PageMask =
      p &&& ~~~PageMask := add_offset_and_not_mask (h.aligned page hpage)
  have hlookup : m.lookup page.space
      ((page.virtual_address + (p &&& ~~~PageMask)) &&& PageMask) = some page := by
    rw [htag]
    exact (h.virtual _ _ page).mpr ⟨hpage, rfl, rfl⟩
  unfold TranslateVirtualAddress
  simp only [findPage_of_lookup hlookup, Option.bind_eq_bind, Option.bind_some, Option.map_some,
    hoffset, hphysical, tag_add_offset]

theorem Recorded.faithful {s : Session} (h : Recorded s) : Faithful s where
  functional := by
    intro x hx y hy hspace hvirtual
    obtain ⟨page, hpage, hon⟩ := h.pages x hx
    obtain ⟨page', hpage', hon'⟩ := h.pages y hy
    have hsame : page = page' := by
      apply h.paged.eq_of_virtual hpage hpage'
      · rw [← hon.1, ← hon'.1, hspace]
      · rw [← hon.2.1, ← hon'.2.1, hvirtual]
    rw [hon.2.2, hon'.2.2, hsame, hvirtual]
  injective := by
    intro x hx y hy hphysical
    obtain ⟨page, hpage, hon⟩ := h.pages x hx
    obtain ⟨page', hpage', hon'⟩ := h.pages y hy
    have hfirst := TranslatePhysicalAddress_of_on h.paged hpage hon
    have hsecond := TranslatePhysicalAddress_of_on h.paged hpage' hon'
    rw [hphysical, hsecond] at hfirst
    simpa [eq_comm] using hfirst
  offset := by
    intro x hx
    obtain ⟨page, hpage, hon⟩ := h.pages x hx
    exact h.paged.offset_of_on hpage hon
  inverse := by
    intro x hx
    obtain ⟨page, hpage, hon⟩ := h.pages x hx
    exact TranslatePhysicalAddress_of_on h.paged hpage hon
  succeeds := by
    intro p
    unfold TranslatePhysicalAddress
    cases hfound : s.mmu.physical_pages (p &&& PageMask) with
    | none =>
      simp only [Bool.false_eq_true, false_iff]
      intro hhanded
      obtain ⟨x, hx, htag⟩ := hhanded
      obtain ⟨page, hpage, hon⟩ := h.pages x hx
      rw [h.paged.tag_of_on hpage hon] at htag
      have hsome := (h.paged.physical _ page).mpr ⟨hpage, htag⟩
      rw [hfound] at hsome
      cases hsome
    | some page =>
      simp only [true_iff]
      obtain ⟨hpage, hphysical⟩ := (h.paged.physical _ page).mp hfound
      obtain ⟨x, hx, hon⟩ := h.handedOut page hpage
      exact ⟨x, hx, (h.paged.tag_of_on hpage hon).trans hphysical⟩
  returns := by
    intro p space v hreturned
    unfold TranslatePhysicalAddress at hreturned
    cases hfound : s.mmu.physical_pages (p &&& PageMask) with
    | none => simp [hfound] at hreturned
    | some page =>
      simp only [hfound, Prod.mk.injEq, true_and, Option.some.injEq] at hreturned
      obtain ⟨hspace, hvirtual⟩ := hreturned
      rw [← hspace, ← hvirtual]
      exact TranslateVirtualAddress_of_found h.paged s.mem_map hfound

/-- Over any calls on one MMU that create at most 2^20 pages, the translation is a one-to-one
function that keeps page offsets, and the physical translation inverts it. -/
theorem faithful_run (mem_map : MemMap) {run : List (Call × Session)}
    (hrun : IsRun Calls ⟨mem_map, .new, []⟩ run) :
    ∀ t ∈ states ⟨mem_map, .new, []⟩ run, t.mmu.pages.length ≤ 2 ^ 20 → Faithful t := by
  have hall := invariant_all (I := fun s => s.mmu.pages.length ≤ 2 ^ 20 → Recorded s)
    (fun s c t h hcall => recorded_call h hcall) hrun (fun _ => recorded_new mem_map)
  intro t ht hlen
  exact (hall t ht hlen).faithful

/-- Two spaces that use the same virtual page, one of them another page too. -/
def twoSpaces : List (Call × Session) :=
  trace Session.call ⟨fun _ => none, .new, []⟩
    [.newSpace, .TranslateVirtualAddress 0 0x71020210, .newSpace,
      .TranslateVirtualAddress 1 0x71020218, .TranslateVirtualAddress 0 0x08048000,
      .TranslateVirtualAddress 0 0x71020214]

theorem faithful_twoSpaces : twoSpaces.length = 6 ∧
    ∀ t ∈ states ⟨fun _ => none, .new, []⟩ twoSpaces, Faithful t := by
  have hpages : ∀ t ∈ states ⟨fun _ => none, .new, []⟩ twoSpaces,
      t.mmu.pages.length ≤ 2 ^ 20 := by decide +kernel
  refine ⟨by decide +kernel, fun t ht => ?_⟩
  exact faithful_run (fun _ => none) (isRun_trace Session.call _ _) t ht (hpages t ht)

end MMLMStore.MmuTranslation
