import MMLMStore.DescriptorFormat
import MMLMStore.MmuTranslation

/-!
# Diversion of accesses into the LMStore

Several MMUs share the one map of LMStore addresses. It is keyed by the physical address alone, and
each MMU hands out physical pages from zero, so an ordinary translation can find an entry that
another MMU has left. Which ones do is told from the calls: each MMU numbers the pages that it is
asked for in the order of their first use.
-/
namespace MMLMStore.MmuDiversion
open DescriptorFormat HexText LMStoreDecode MmuTranslation StepRuns

/-- All MMUs of the process, with the map they share. -/
structure System where
  mem_map : MemMap
  mmus : List Mmu

/-- The process starts with no MMU and an empty map. -/
def System.boot : System := ⟨fun _ => none, []⟩

inductive Call
  | newMmu
  | newSpace (mmu : ℕ)
  | TranslateVirtualAddress (mmu space : ℕ) (virtual_address : Address)
  deriving DecidableEq

def System.call (s : System) : Call → Option System
  | .newMmu => some { s with mmus := s.mmus ++ [.new] }
  | .newSpace mmu => do
    let m ← s.mmus[mmu]?
    some { s with mmus := s.mmus.set mmu m.newSpace }
  | .TranslateVirtualAddress mmu space virtual_address => do
    let m ← s.mmus[mmu]?
    let (mem_map, m', _) ← MmuTranslation.TranslateVirtualAddress s.mem_map m space virtual_address
    some ⟨mem_map, s.mmus.set mmu m'⟩

def Calls (s : System) (c : Call) (t : System) : Prop := s.call c = some t

def physicalAddress (s : System) (mmu space : ℕ) (virtual_address : Address) : Option Address := do
  let m ← s.mmus[mmu]?
  let (_, _, p) ← MmuTranslation.TranslateVirtualAddress s.mem_map m space virtual_address
  some p

def topByte (a : Address) : ℕ := a.toNat / 2 ^ 24

/-- After a translation the LMStore serves the physical address if and only if the top byte of the
virtual address is one of its operations, and then it reads the virtual address back. -/
def Diverts (s : System) (c : Call) (t : System) : Prop :=
  match c with
  | .TranslateVirtualAddress mmu space v => ∀ p ∈ physicalAddress s mmu space v,
    (ServesAddress t.mem_map p.toNat ↔ 0x71 ≤ topByte v ∧ topByte v ≤ 0x75) ∧
      (ServesAddress t.mem_map p.toNat →
        (PhyToVirt t.mem_map p.toNat).map VirtAddr.text = some (virtText v.toNat))
  | _ => True

/-- Pages that the MMUs were asked for, and translations of addresses of the LMStore. -/
structure Book where
  /-- For each MMU the pages, a space and a tag, in the order of their first use. -/
  pages : List (List (ℕ × Address))
  /-- The physical and the virtual address of each, the latest first. -/
  entered : List (Address × Address)

namespace Book

def new : Book := ⟨[], []⟩

variable (b : Book)

def pagesOf (mmu : ℕ) : List (ℕ × Address) := b.pages[mmu]?.getD []

/-- The page has its place in the order of first use as its number, or the next free one. -/
def landing (mmu space : ℕ) (v : Address) : Address :=
  pageAddress ((b.pagesOf mmu).idxOf (space, v &&& PageMask)) + (v &&& ~~~PageMask)

def use (pages : List (ℕ × Address)) (page : ℕ × Address) : List (ℕ × Address) :=
  if page ∈ pages then pages else pages ++ [page]

def after : Call → Book
  | .newMmu => { b with pages := b.pages ++ [[]] }
  | .newSpace _ => b
  | .TranslateVirtualAddress mmu space v =>
    ⟨b.pages.set mmu (use (b.pagesOf mmu) (space, v &&& PageMask)),
      if 0x71 ≤ topByte v ∧ topByte v ≤ 0x76 then (b.landing mmu space v, v) :: b.entered
      else b.entered⟩

end Book

/-- Where an ordinary address is translated to, no LMStore address was before, or the last of them
is not one of an operation. -/
def Undisturbed (b : Book) : Call → Prop
  | .TranslateVirtualAddress mmu space v => topByte v < 0x71 ∨ 0x76 < topByte v →
    ∀ w ∈ b.entered.lookup (b.landing mmu space v), ¬ (0x71 ≤ topByte w ∧ topByte w ≤ 0x75)
  | _ => True

instance (s : System) (t : System) : ∀ c, Decidable (Diverts s c t)
  | .newMmu => isTrue trivial
  | .newSpace _ => isTrue trivial
  -- the one result is looked at, not every 32-bit value
  | .TranslateVirtualAddress mmu space v =>
    Option.decidableForallMem (physicalAddress s mmu space v)

instance (b : Book) : ∀ c, Decidable (Undisturbed b c)
  | .newMmu => isTrue trivial
  | .newSpace _ => isTrue trivial
  | .TranslateVirtualAddress mmu space v =>
    have := Option.decidableForallMem (p := fun w => ¬ (0x71 ≤ topByte w ∧ topByte w ≤ 0x75))
      (b.entered.lookup (b.landing mmu space v))
    inferInstanceAs (Decidable (_ → _))

/-! Prefixes of address texts. -/

theorem addrPrefix_text (a : Address) : addrPrefix a.text.text = fixedHex 2 (topByte a) := by
  have hlt : a.toNat < 16 ^ 8 := Address.toNat_lt a
  have hsplit : a.toNat = topByte a * 16 ^ 6 + a.toNat % 16 ^ 6 := by
    unfold topByte
    norm_num
    omega
  have htext : a.text.text = fixedHex 2 (topByte a) ++ fixedHex 6 (a.toNat % 16 ^ 6) := by
    rw [fixedHex_append 2 6 _ (Nat.mod_lt _ (by norm_num)), ← hsplit]
    exact padLeft_hexText (by norm_num) hlt
  rw [htext, addrPrefix, substr, List.drop_zero]
  exact List.take_left' (length_fixedHex 2 _)

theorem topByte_lt (a : Address) : topByte a < 256 := by
  have := Address.toNat_lt a
  unfold topByte
  omega

/-- Comparing the first two digits with those of some bytes. -/
theorem addrPrefix_text_mem (a : Address) {bytes : List ℕ} (hbytes : ∀ n ∈ bytes, n < 256) :
    addrPrefix a.text.text ∈ bytes.map (fixedHex 2) ↔ topByte a ∈ bytes := by
  rw [addrPrefix_text]
  constructor
  · intro h
    obtain ⟨n, hn, hsame⟩ := List.mem_map.mp h
    rwa [← (fixedHex_inj (hbytes n hn) (topByte_lt a)).mp hsame]
  · exact List.mem_map_of_mem

theorem isOperation_iff (a : Address) :
    addrPrefix a.text.text ∈ [['7', '1'], ['7', '2'], ['7', '3'], ['7', '4'], ['7', '5']] ↔
      0x71 ≤ topByte a ∧ topByte a ≤ 0x75 := by
  have hlist : [['7', '1'], ['7', '2'], ['7', '3'], ['7', '4'], ['7', '5']] =
      [0x71, 0x72, 0x73, 0x74, 0x75].map (fixedHex 2) := by decide
  rw [hlist, addrPrefix_text_mem a (by decide)]
  simp only [List.mem_cons, List.not_mem_nil, or_false]
  omega

theorem isRecorded_iff (a : Address) :
    (addrPrefix a.text.text = ['7', '1'] ∨ addrPrefix a.text.text = ['7', '2'] ∨
      addrPrefix a.text.text = ['7', '3'] ∨ addrPrefix a.text.text = ['7', '4'] ∨
      addrPrefix a.text.text = ['7', '5'] ∨ addrPrefix a.text.text = ['7', '6']) ↔
      0x71 ≤ topByte a ∧ topByte a ≤ 0x76 := by
  have hlist : [['7', '1'], ['7', '2'], ['7', '3'], ['7', '4'], ['7', '5'], ['7', '6']] =
      [0x71, 0x72, 0x73, 0x74, 0x75, 0x76].map (fixedHex 2) := by decide
  have hmem := addrPrefix_text_mem a
    (show ∀ n ∈ [0x71, 0x72, 0x73, 0x74, 0x75, 0x76], n < 256 by decide)
  rw [← hlist] at hmem
  simp only [List.mem_cons, List.not_mem_nil, or_false] at hmem
  rw [hmem]
  omega

/-! One translation. -/

theorem lookup_of_getPage {m : Mmu} {space : ℕ} {sp : Space} {tag : Address}
    (hs : m.spaces[space]? = some sp) : m.lookup space tag = sp.getPage tag := by
  rw [Mmu.lookup, hs, Option.bind_some]

/-- Physical address that the virtual one has or would get: on its page, if there is one, and else
on the next page of the MMU. -/
def pageTarget (m : Mmu) (space : ℕ) (v : Address) : Address :=
  ((m.lookup space (v &&& PageMask)).elim m.top_physical_address Page.physical_address) +
    (v &&& ~~~PageMask)

/-- An ordinary address is translated to a physical one at which the map has no LMStore address. -/
def Unserved (s : System) : Call → Prop
  | .TranslateVirtualAddress mmu space v => topByte v < 0x71 ∨ 0x76 < topByte v →
    ∀ m ∈ s.mmus[mmu]?, ServesAddress s.mem_map (pageTarget m space v).toNat = false
  | _ => True

theorem TranslateVirtualAddress_eq {mem_map mem_map' : MemMap} {m m' : Mmu} {space : ℕ}
    {v p : Address}
    (h : TranslateVirtualAddress mem_map m space v = some (mem_map', m', p)) :
    p = pageTarget m space v ∧ mem_map' = record mem_map p v := by
  obtain ⟨⟨m₁, page⟩, hfind, hresult⟩ := Option.bind_eq_some_iff.mp h
  obtain ⟨hmap, hrest⟩ := Prod.mk.inj (Option.some.inj hresult)
  obtain ⟨-, hp⟩ := Prod.mk.inj hrest
  have htarget : page.physical_address + (v &&& ~~~PageMask) = pageTarget m space v := by
    unfold pageTarget
    rcases findPage_cases hfind with ⟨-, hlookup⟩ | ⟨hpage, sp, hs, hnone, -⟩
    · rw [hlookup, Option.elim_some]
    · rw [lookup_of_getPage hs, hnone, Option.elim_none, hpage]
      rfl
  rw [← hp, ← hmap]
  exact ⟨htarget, rfl⟩

/-- After a translation the map is right at the physical address, unless the virtual address is an
ordinary one and the map had an LMStore address there. -/
theorem record_right_iff (mem_map : MemMap) (p v : Address) :
    ((ServesAddress (record mem_map p v) p.toNat ↔ 0x71 ≤ topByte v ∧ topByte v ≤ 0x75) ∧
      (ServesAddress (record mem_map p v) p.toNat →
        (PhyToVirt (record mem_map p v) p.toNat).map VirtAddr.text =
          some (virtText v.toNat))) ↔
    (topByte v < 0x71 ∨ 0x76 < topByte v → ServesAddress mem_map p.toNat = false) := by
  by_cases hrecorded : 0x71 ≤ topByte v ∧ topByte v ≤ 0x76
  · have hmap : PhyToVirt (record mem_map p v) p.toNat = some v.text := by
      rw [PhyToVirt, record, if_pos ((isRecorded_iff v).mpr hrecorded), store, if_pos rfl]
    have hserves : ServesAddress (record mem_map p v) p.toNat ↔
        0x71 ≤ topByte v ∧ topByte v ≤ 0x75 := by
      rw [ServesAddress_iff, ← isOperation_iff v]
      constructor
      · intro h
        obtain ⟨w, hw, hoperation⟩ := h
        rw [hmap] at hw
        rwa [← Option.some.inj hw] at hoperation
      · intro h
        exact ⟨v.text, hmap, h⟩
    constructor
    · intro _ hordinary
      omega
    · intro _
      refine ⟨hserves, fun _ => ?_⟩
      rw [hmap]
      rfl
  · have hsame : record mem_map p v = mem_map := by
      rw [record, if_neg fun h => hrecorded ((isRecorded_iff v).mp h)]
    rw [hsame]
    constructor
    · intro h _
      rw [← Bool.not_eq_true, h.1]
      omega
    · intro h
      have hfalse := h (by omega)
      rw [hfalse]
      simp only [Bool.false_eq_true, false_iff, false_implies, and_true]
      omega

theorem diverts_iff {s t : System} {c : Call} (h : Calls s c t) :
    Diverts s c t ↔ Unserved s c := by
  cases c with
  | newMmu => exact Iff.rfl
  | newSpace mmu => exact Iff.rfl
  | TranslateVirtualAddress mmu space v =>
    obtain ⟨m, hm, htranslated⟩ := Option.bind_eq_some_iff.mp h
    obtain ⟨⟨mem_map, m', p⟩, htranslate, hr⟩ := Option.bind_eq_some_iff.mp htranslated
    obtain ⟨htarget, hmap⟩ := TranslateVirtualAddress_eq htranslate
    have hresult : physicalAddress s mmu space v = some p := by
      simp only [physicalAddress, Option.bind_eq_bind, hm, Option.bind_some, htranslate]
    have ht : t.mem_map = record s.mem_map p v := by
      rw [← hmap, ← Option.some.inj hr]
    have hright := record_right_iff s.mem_map p v
    unfold Diverts Unserved
    simp only [hresult, hm, Option.mem_def, Option.some.injEq, forall_eq', ht, ← htarget]
    exact hright

/-! The tables follow the book. -/

/-- The MMU has the pages of the list, numbered by their places. -/
structure Numbered (pages : List (ℕ × Address)) (m : Mmu) : Prop where
  top : m.top_physical_address = pageAddress pages.length
  found : ∀ space tag, (m.lookup space tag).map Page.physical_address =
    if (space, tag) ∈ pages then some (pageAddress (pages.idxOf (space, tag))) else none

theorem numbered_new : Numbered [] .new where
  top := rfl
  found := by simp [Mmu.new, Mmu.lookup]

namespace Numbered

variable {pages : List (ℕ × Address)} {m m' : Mmu}

theorem newSpace (h : Numbered pages m) : Numbered pages m.newSpace where
  top := h.top
  found := by
    intro space tag
    rw [lookup_newSpace]
    exact h.found space tag

theorem pageTarget_eq (h : Numbered pages m) (space : ℕ) (v : Address) :
    pageTarget m space v =
      pageAddress (pages.idxOf (space, v &&& PageMask)) + (v &&& ~~~PageMask) := by
  have hfound := h.found space (v &&& PageMask)
  unfold pageTarget
  cases hlookup : m.lookup space (v &&& PageMask) with
  | none =>
    have hmem : (space, v &&& PageMask) ∉ pages := by
      intro hmem
      simp [hlookup, hmem] at hfound
    rw [List.idxOf_eq_length hmem, Option.elim_none, h.top]
  | some page =>
    rw [hlookup, Option.map_some] at hfound
    split_ifs at hfound
    rw [Option.elim_some, Option.some.inj hfound]

theorem createPage (h : Numbered pages m) {space : ℕ} {s : Space} {tag : Address}
    (hs : m.spaces[space]? = some s) (hnew : (space, tag) ∉ pages) :
    Numbered (pages ++ [(space, tag)]) (m.createPage space s (m.nextPage space tag)) where
  top := by
    rw [Mmu.createPage, h.top, List.length_append, List.length_singleton, pageAddress_succ]
  found := by
    intro space' tag'
    rw [lookup_createPage hs]
    by_cases hsame : space' = space ∧ tag' = tag
    · obtain ⟨rfl, rfl⟩ := hsame
      simp [Mmu.nextPage, List.idxOf_append_of_notMem hnew, h.top]
    · have hne : (space', tag') ≠ (space, tag) := by simpa [Prod.ext_iff] using hsame
      have hkept : ¬ (space' = space ∧ tag' = (m.nextPage space tag).virtual_address) := hsame
      rw [if_neg hkept, h.found space' tag']
      by_cases hold : (space', tag') ∈ pages
      · rw [if_pos hold, if_pos (List.mem_append_left _ hold), List.idxOf_append_of_mem hold]
      · rw [if_neg hold, if_neg (by simp [hold, hne])]

theorem findPage (h : Numbered pages m) {space : ℕ} {v : Address} {page : Page}
    (hfind : m.findPage space v = some (m', page)) :
    Numbered (Book.use pages (space, v &&& PageMask)) m' := by
  have hfound := h.found space (v &&& PageMask)
  unfold Book.use
  rcases findPage_cases hfind with ⟨rfl, hlookup⟩ | ⟨hpage, s, hs, hnone, rfl⟩
  · rw [hlookup] at hfound
    split_ifs at hfound ⊢ with hold
    · exact h
    · cases hfound
  · have hnew : (space, v &&& PageMask) ∉ pages := by
      intro hmem
      simp [lookup_of_getPage hs, hnone, hmem] at hfound
    rw [if_neg hnew, hpage]
    exact h.createPage hs hnew

end Numbered

structure Follows (b : Book) (s : System) : Prop where
  length : b.pages.length = s.mmus.length
  pages : ∀ mmu m, s.mmus[mmu]? = some m → Numbered (b.pagesOf mmu) m
  map : ∀ p : Address, s.mem_map p.toNat = (b.entered.lookup p).map Address.text

theorem follows_boot : Follows .new .boot where
  length := rfl
  pages := by simp [System.boot]
  map := by simp [Book.new, System.boot]

section Calls

variable {b : Book} {s t : System}

theorem numbered_set (h : Follows b s) {mmu : ℕ} {m m' : Mmu} (hm : s.mmus[mmu]? = some m)
    {pages : List (ℕ × Address)} (hpages : Numbered pages m') (entered : List (Address × Address)) :
    ∀ i n, (s.mmus.set mmu m')[i]? = some n →
      Numbered (Book.pagesOf ⟨b.pages.set mmu pages, entered⟩ i) n := by
  intro i n hn
  have hlt := (List.getElem?_eq_some_iff.mp hm).1
  have hlt' : mmu < b.pages.length := by
    rw [h.length]
    exact hlt
  unfold Book.pagesOf
  by_cases hi : mmu = i
  · subst hi
    rw [List.getElem?_set_self hlt] at hn
    rw [List.getElem?_set_self hlt', Option.getD_some, ← Option.some.inj hn]
    exact hpages
  · rw [List.getElem?_set_ne hi] at hn ⊢
    exact h.pages i n hn

theorem lookup_record (h : Follows b s) (p v q : Address) :
    record s.mem_map p v q.toNat =
      ((if 0x71 ≤ topByte v ∧ topByte v ≤ 0x76 then (p, v) :: b.entered
        else b.entered).lookup q).map Address.text := by
  by_cases hrecorded : 0x71 ≤ topByte v ∧ topByte v ≤ 0x76
  · rw [record, if_pos ((isRecorded_iff v).mpr hrecorded), if_pos hrecorded, store,
      List.lookup_cons]
    by_cases hq : q = p
    · simp [hq]
    · have hne : q.toNat ≠ p.toNat := fun hsame => hq (BitVec.eq_of_toNat_eq hsame)
      rw [if_neg hne, h.map q, beq_eq_false_iff_ne.mpr hq]
  · rw [record, if_neg fun hp => hrecorded ((isRecorded_iff v).mp hp), if_neg hrecorded]
    exact h.map q

theorem follows_call {c : Call} (h : Follows b s) (hcall : Calls s c t) :
    Follows (b.after c) t := by
  cases c with
  | newMmu =>
    cases hcall
    refine ⟨by simp [Book.after, h.length], fun i n hn => ?_, h.map⟩
    rcases lt_or_ge i s.mmus.length with hlt | hge
    · rw [List.getElem?_append_left hlt] at hn
      rw [Book.pagesOf, Book.after, List.getElem?_append_left (h.length ▸ hlt)]
      exact h.pages i n hn
    · rw [List.getElem?_append_right hge, List.getElem?_singleton] at hn
      split_ifs at hn with hi
      rw [Book.pagesOf, Book.after, List.getElem?_append_right (h.length ▸ hge), h.length, hi,
        ← Option.some.inj hn]
      exact numbered_new
  | newSpace mmu =>
    obtain ⟨m, hm, ht⟩ := Option.bind_eq_some_iff.mp hcall
    cases ht
    refine ⟨by simp [Book.after, h.length], fun i n hn => ?_, h.map⟩
    by_cases hi : mmu = i
    · subst hi
      rw [List.getElem?_set_self (List.getElem?_eq_some_iff.mp hm).1] at hn
      rw [← Option.some.inj hn]
      exact (h.pages mmu m hm).newSpace
    · rw [List.getElem?_set_ne hi] at hn
      exact h.pages i n hn
  | TranslateVirtualAddress mmu space v =>
    obtain ⟨m, hm, htranslated⟩ := Option.bind_eq_some_iff.mp hcall
    obtain ⟨⟨mem_map, m', p⟩, htranslate, hr⟩ := Option.bind_eq_some_iff.mp htranslated
    obtain ⟨hp, hmap⟩ := TranslateVirtualAddress_eq htranslate
    obtain ⟨⟨m₁, page⟩, hfind, hresult⟩ := Option.bind_eq_some_iff.mp htranslate
    cases hr
    cases hresult
    have hlanding : page.physical_address + (v &&& ~~~PageMask) = b.landing mmu space v := by
      rw [hp, (h.pages mmu m hm).pageTarget_eq]
      rfl
    refine ⟨by simp [Book.after, h.length], ?_, fun q => ?_⟩
    · exact numbered_set h hm ((h.pages mmu m hm).findPage hfind) _
    · rw [hlanding]
      exact lookup_record h _ v q

theorem serves_iff (h : Follows b s) (p : Address) : ServesAddress s.mem_map p.toNat = false ↔
    ∀ w ∈ b.entered.lookup p, ¬ (0x71 ≤ topByte w ∧ topByte w ≤ 0x75) := by
  rw [← Bool.not_eq_true, ServesAddress_iff, PhyToVirt, h.map p]
  cases b.entered.lookup p with
  | none => simp
  | some w => simpa using (isOperation_iff w).not

/-- The state and the book agree on which calls go to an address of the LMStore. -/
theorem unserved_iff (h : Follows b s) {c : Call} (hcall : Calls s c t) :
    Unserved s c ↔ Undisturbed b c := by
  cases c with
  | newMmu => exact Iff.rfl
  | newSpace mmu => exact Iff.rfl
  | TranslateVirtualAddress mmu space v =>
    obtain ⟨m, hm, -⟩ := Option.bind_eq_some_iff.mp hcall
    have htarget : pageTarget m space v = b.landing mmu space v :=
      (h.pages mmu m hm).pageTarget_eq space v
    simp only [Unserved, Undisturbed, hm, Option.mem_def, Option.some.injEq, forall_eq', htarget,
      serves_iff h]

end Calls

/-- In a run every translation leaves the map right at its result exactly when every ordinary
address has, by the numbers of the pages and the offsets, a physical address of its own. -/
theorem diverts_run_iff {run : List (Call × System)} (hrun : IsRun Calls .boot run) :
    (∀ x ∈ transitions .boot run, Diverts x.1 x.2.1 x.2.2) ↔
      ∀ x ∈ ghosts (fun b _ c _ => b.after c) .new .boot run, Undisturbed x.1 x.2.2.1 := by
  have hdiverts : (∀ x ∈ transitions .boot run, Diverts x.1 x.2.1 x.2.2) ↔
      ∀ x ∈ transitions .boot run, Unserved x.1 x.2.1 :=
    forall₂_congr fun x hx => diverts_iff (step_of_transition hrun x hx)
  rw [hdiverts]
  have hstep : ∀ (b : Book) s (c : Call) t, Follows b s → Calls s c t →
      (Unserved s c ↔ Undisturbed b c) ∧ (Unserved s c → Follows (b.after c) t) :=
    fun b s c t h hcall => ⟨unserved_iff h hcall, fun _ => follows_call h hcall⟩
  exact transitions_iff_ghosts hstep hrun follows_boot

/-- Two MMUs, each with an LMStore address and an ordinary one at the same offset, on pages with
different numbers. -/
def apart : List (Call × System) :=
  trace System.call .boot
    [.newMmu, .newSpace 0, .newMmu, .newSpace 1, .TranslateVirtualAddress 0 0 0x71020210,
      .TranslateVirtualAddress 0 0 0x08048210, .TranslateVirtualAddress 1 0 0x72020214,
      .TranslateVirtualAddress 1 0 0x08048210]

theorem diverts_apart : apart.length = 8 ∧
    ∀ x ∈ transitions .boot apart, Diverts x.1 x.2.1 x.2.2 := by
  refine ⟨by decide +kernel, ?_⟩
  exact (diverts_run_iff (isRun_trace System.call _ _)).mpr (by decide +kernel)

def twoMmus : List (Call × System) :=
  trace System.call .boot
    [.newMmu, .newSpace 0, .newMmu, .newSpace 1, .TranslateVirtualAddress 0 0 0x71020210,
      .TranslateVirtualAddress 1 0 0x08048210]

/-- The ordinary address of the second MMU is served by the LMStore. -/
theorem diverts_fails :
    ¬ ∀ run : List (Call × System), IsRun Calls .boot run →
      ∀ x ∈ transitions .boot run, Diverts x.1 x.2.1 x.2.2 := by
  intro h
  have hdiverts := h twoMmus (isRun_trace System.call _ _)
  have hserved : ¬ ∀ x ∈ transitions .boot twoMmus, Diverts x.1 x.2.1 x.2.2 := by
    decide +kernel
  exact hserved hdiverts

end MMLMStore.MmuDiversion
