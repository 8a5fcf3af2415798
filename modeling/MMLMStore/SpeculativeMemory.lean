import MMLMStore.HashChains
import MMLMStore.PagedMemory

/-!
# Speculative memory

Speculative writes go to copies of small pages of the memory, in a hash table of bounded size.
Reads find these copies, or the memory itself. Writes to further pages are ignored once the table
is full.
-/
namespace MMLMStore.SpeculativeMemory

open ChunkedAccess StepRuns HashChains
open PagedMemory (Byte Space Memory AccessType)

def LogPageSize : ℕ := 4

def PageSize : ℕ := 2 ^ LogPageSize

def PageTableSize : ℕ := 32

def MaxPages : ℕ := 100

def pageTag (address : ℕ) : ℕ := address / PageSize * PageSize

def pageIndex (tag : ℕ) : ℕ := tag / PageSize % PageTableSize

structure Page where
  address : ℕ
  data : ℕ → Byte

def Page.copyIn (offset : ℕ) (buffer : List Byte) (page : Page) : Page :=
  { page with data := fun i =>
      if offset ≤ i then buffer.getD (i - offset) (page.data i) else page.data i }

/-- Failed accesses; the last one stands for panics and assertions. -/
inductive Error
  | Memory (error : PagedMemory.Error)
  | Aborted
  deriving DecidableEq, Repr

/-- Together with the memory it is associated with. -/
structure SpecMem where
  memory : Memory
  num_pages : ℕ
  pages : ℕ → List Page

namespace SpecMem

def new (memory : Memory) : SpecMem := ⟨memory, 0, fun _ => []⟩

variable (s : SpecMem)

def getPage (address : ℕ) : Option Page := find Page.address pageIndex s.pages (pageTag address)

/-- Read from the memory in unsafe mode, in case the page is invalid. -/
def readMemory (address size : ℕ) : SpecMem × Except Error (List Byte) :=
  let safe := s.memory.safe
  match (s.memory.setSafe false).Read address size with
  | (memory, .ok data) => ({ s with memory := memory.setSafe safe }, .ok data)
  | (memory, .error e) => ({ s with memory }, .error (.Memory e))

def newPage (address : ℕ) : SpecMem × Except Error Page :=
  match s.readMemory (pageTag address) PageSize with
  | (s, .ok data) =>
    let page : Page := ⟨pageTag address, fun i => data.getD i 0⟩
    ({ s with pages := insert Page.address pageIndex s.pages page, num_pages := s.num_pages + 1 },
      .ok page)
  | (s, .error e) => (s, .error e)

def writePage (page : Page) (offset : ℕ) (buffer : List Byte) : SpecMem :=
  { s with pages :=
      HashChains.modify Page.address pageIndex s.pages page.address (Page.copyIn offset buffer) }

def AccessPage (address : ℕ) (page : Page) (buffer : List Byte) (access : AccessType) :
    SpecMem × Except Error (List Byte) :=
  let offset := address % PageSize
  if offset + buffer.length ≤ PageSize then
    if access = .AccessRead then
      (s, .ok ((List.range buffer.length).map fun i => page.data (offset + i)))
    else if access = .AccessWrite then (s.writePage page offset buffer, .ok buffer)
    else (s, .error .Aborted)
  else (s, .error .Aborted)

/-- What the buffer holds afterwards. A write that needs a page beyond the limit is ignored. -/
def AccessAligned (address : ℕ) (buffer : List Byte) (access : AccessType) :
    SpecMem × Except Error (List Byte) :=
  match s.getPage address with
  | some page => s.AccessPage address page buffer access
  | none =>
    if access = .AccessRead then s.readMemory address buffer.length
    else if access = .AccessWrite then
      if s.num_pages ≥ MaxPages then (s, .ok buffer)
      else
        match s.newPage address with
        | (s, .ok page) => s.AccessPage address page buffer access
        | (s, .error e) => (s, .error e)
    else (s, .error .Aborted)

def Access (address : ℕ) (buffer : List Byte) (access : AccessType) :
    SpecMem × Except Error (List Byte) :=
  ChunkedAccess.access Space PageSize
    (fun s address chunk => s.AccessAligned address chunk access) s address buffer

/-- What the buffer holds before does not matter. -/
def Read (address size : ℕ) : SpecMem × Except Error (List Byte) :=
  s.Access address (List.replicate size 0) .AccessRead

def Write (address : ℕ) (buffer : List Byte) : SpecMem × Except Error (List Byte) :=
  s.Access address buffer .AccessWrite

def Clear : SpecMem :=
  { s with num_pages := 0, pages := fun i => if i < PageTableSize then [] else s.pages i }

def byteAt (address : ℕ) : Byte :=
  (s.getPage address).elim (s.memory.byteAt address) fun page => page.data (address % PageSize)

end SpecMem

/-! Writes that are kept. -/

/-- Chunks of writes that were not ignored, the oldest first. -/
abbrev Kept := List (ℕ × List Byte)

def Kept.tags (kept : Kept) : Finset ℕ := (kept.map fun chunk => pageTag chunk.1).toFinset

/-- A chunk is ignored exactly when its page is absent and the limit is reached. -/
def keep (kept : Kept) (chunk : ℕ × List Byte) : Kept :=
  if pageTag chunk.1 ∉ kept.tags ∧ MaxPages ≤ kept.tags.card then kept else kept ++ [chunk]

def Kept.lastByte (kept : Kept) (x : ℕ) : Option Byte :=
  (kept.filterMap fun chunk => written Space chunk.1 chunk.2 x).getLast?

theorem pageSize_pos : 0 < PageSize := by decide

theorem pageSize_dvd : PageSize ∣ Space := by decide

theorem pageTag_eq_iff {a x : ℕ} : pageTag x = pageTag a ↔ x / PageSize = a / PageSize := by
  unfold pageTag
  exact Nat.mul_left_inj pageSize_pos.ne'

theorem pageTag_add_mod (a : ℕ) : pageTag a + a % PageSize = a := Nat.div_add_mod' a PageSize

theorem pageTag_lt {a : ℕ} (ha : a < Space) : pageTag a < Space :=
  (Nat.div_mul_le_self a PageSize).trans_lt ha

theorem pageIndex_lt (tag : ℕ) : pageIndex tag < PageTableSize := Nat.mod_lt _ (by decide)

theorem address_copyIn (offset : ℕ) (buffer : List Byte) (page : Page) :
    (page.copyIn offset buffer).address = page.address := rfl

/-- The table holds pages of some tags, and a read finds some bytes. -/
structure Holds (m : Memory) (tags : Finset ℕ) (byte : ℕ → Byte) (s : SpecMem) : Prop where
  pages : s.memory.pages = m.pages
  safe : s.memory.safe = m.safe
  proper : Proper Page.address pageIndex PageTableSize s.pages
  held : keys Page.address PageTableSize s.pages = tags
  count : s.num_pages = tags.card
  bytes : ∀ x < Space, s.byteAt x = byte x

section Accesses

variable {m : Memory} {tags : Finset ℕ} {byte : ℕ → Byte} {s : SpecMem} {page : Page}

theorem Holds.present (h : Holds m tags byte s) (x : ℕ) :
    (s.getPage x).isSome = true ↔ pageTag x ∈ tags := by
  rw [← h.held, mem_keys h.proper (pageIndex_lt _)]
  rfl

theorem Holds.absent (h : Holds m tags byte s) {x : ℕ} (hx : s.getPage x = none) :
    pageTag x ∉ tags := by
  rw [← h.present, hx]
  exact Bool.false_ne_true

/-- Only the last address of the memory differs. -/
def SpecMem.withLast (s : SpecMem) (last : ℕ) : SpecMem :=
  { s with memory := { s.memory with last_address := last } }

theorem Holds.withLast (h : Holds m tags byte s) (last : ℕ) :
    Holds m tags byte (s.withLast last) :=
  ⟨h.pages, h.safe, h.proper, h.held, h.count, h.bytes⟩

theorem readMemory_eq {a n : ℕ} (ha : a < Space) (hn : n ≤ Space) :
    s.readMemory a n = (s.withLast a,
      .ok ((List.range n).map fun i => s.memory.byteAt (advance Space a i))) := by
  unfold SpecMem.readMemory
  rw [PagedMemory.read_eq rfl ha hn]
  rfl

theorem accessAligned_read {a : ℕ} {c : List Byte} (ha : a < Space)
    (hc : a % PageSize + c.length ≤ PageSize) :
    ∃ last, s.AccessAligned a c .AccessRead = (s.withLast last,
      .ok ((List.range c.length).map fun i => s.byteAt (advance Space a i))) := by
  -- every byte of the chunk lies in the page of the address
  have hpage : ∀ i < c.length, s.getPage (advance Space a i) = s.getPage a ∧
      advance Space a i % PageSize = a % PageSize + i := by
    intro i hi
    obtain ⟨hadv, hdiv, hmod⟩ := advance_chunk pageSize_dvd ha hc hi
    rw [hadv]
    exact ⟨by rw [SpecMem.getPage, pageTag_eq_iff.mpr hdiv]; rfl, hmod⟩
  unfold SpecMem.AccessAligned
  cases hfound : s.getPage a with
  | none =>
    have hlen : c.length ≤ Space := by
      have hle := chunk_le_space pageSize_dvd ha hc
      omega
    refine ⟨a, ?_⟩
    simp only [if_true, readMemory_eq ha hlen]
    refine congrArg (fun out => (s.withLast a, Except.ok out)) (List.map_congr_left fun i hi => ?_)
    rw [SpecMem.byteAt, (hpage i (List.mem_range.mp hi)).1, hfound]
    rfl
  | some page =>
    refine ⟨s.memory.last_address, ?_⟩
    simp only [SpecMem.AccessPage, if_pos hc, if_true]
    refine congrArg (fun out => (s, Except.ok out)) (List.map_congr_left fun i hi => ?_)
    obtain ⟨hget, hmod⟩ := hpage i (List.mem_range.mp hi)
    rw [SpecMem.byteAt, hget, hfound, hmod]
    rfl

theorem newPage_holds (h : Holds m tags byte s) {a : ℕ} (ha : a < Space)
    (hnone : s.getPage a = none) :
    ∃ s' page, s.newPage a = (s', .ok page) ∧ s'.getPage a = some page ∧
      Holds m (insert (pageTag a) tags) byte s' := by
  have hread := readMemory_eq (s := s) (pageTag_lt ha) (show PageSize ≤ Space by decide)
  refine ⟨_, _, by unfold SpecMem.newPage; rw [hread], ?_, ?_⟩
  · rw [SpecMem.getPage, find_insert, if_pos rfl]
  refine ⟨h.pages, h.safe, h.proper.insert hnone, ?_, ?_, fun x hx => ?_⟩
  · rw [keys_insert (pageIndex_lt _), ← h.held]
    rfl
  · rw [Finset.card_insert_of_notMem (h.absent hnone), ← h.count]
    rfl
  · rw [← h.bytes x hx, SpecMem.byteAt, SpecMem.byteAt, SpecMem.getPage, find_insert]
    by_cases htag : pageTag x = pageTag a
    · have hlt : x % PageSize < PageSize := Nat.mod_lt x pageSize_pos
      have hbyte : advance Space (pageTag a) (x % PageSize) = x := by
        rw [← htag, advance, pageTag_add_mod, Nat.mod_eq_of_lt hx]
      rw [SpecMem.getPage, htag]
      rw [SpecMem.getPage] at hnone
      rw [hnone, if_pos rfl]
      simp [hlt, hbyte]
    · rw [if_neg htag]
      rfl

theorem accessPage_holds (h : Holds m tags byte s) {a : ℕ} {c : List Byte} (ha : a < Space)
    (hc : a % PageSize + c.length ≤ PageSize) (hpage : s.getPage a = some page) :
    ∃ s', s.AccessPage a page c .AccessWrite = (s', .ok c) ∧
      Holds m tags (fun x => (written Space a c x).getD (byte x)) s' := by
  have haddress : page.address = pageTag a := by
    simpa using List.find?_some hpage
  have hkey := address_copyIn (a % PageSize) c
  refine ⟨s.writePage page (a % PageSize) c, ?_, ?_⟩
  · unfold SpecMem.AccessPage
    rw [if_pos hc]
    rfl
  refine ⟨h.pages, h.safe, h.proper.modify hkey, ?_, h.count, fun x hx => ?_⟩
  · rw [SpecMem.writePage, keys_modify hkey, h.held]
  · rw [← h.bytes x hx, written_chunk pageSize_dvd ha hx hc, SpecMem.byteAt, SpecMem.getPage,
      SpecMem.writePage, find_modify hkey, haddress]
    by_cases hdiv : x / PageSize = a / PageSize
    · have htag : pageTag x = pageTag a := pageTag_eq_iff.mpr hdiv
      have hget : s.getPage x = some page := by
        rw [SpecMem.getPage, htag]
        exact hpage
      have hfind : find Page.address pageIndex s.pages (pageTag x) = some page := hget
      rw [if_pos htag, hfind, SpecMem.byteAt, hget]
      by_cases hle : a % PageSize ≤ x % PageSize
      · rw [if_pos ⟨hdiv, hle⟩]
        simp [Page.copyIn, hle]
      · rw [if_neg fun hboth => hle hboth.2]
        simp [Page.copyIn, hle]
    · rw [if_neg fun htag => hdiv (pageTag_eq_iff.mp htag), if_neg fun hboth => hdiv hboth.1]
      rfl

end Accesses

/-! Kept chunks. -/

section Chunks

variable {m : Memory} {kept : Kept} {s : SpecMem} {a : ℕ} {c : List Byte}

theorem tags_append (kept : Kept) (a : ℕ) (c : List Byte) :
    Kept.tags (kept ++ [(a, c)]) = insert (pageTag a) kept.tags := by
  ext tag
  simp only [Kept.tags, List.map_append, List.map_cons, List.map_nil, List.toFinset_append,
    List.toFinset_cons, List.toFinset_nil, Finset.mem_union, Finset.mem_insert,
    Finset.notMem_empty, or_false]
  exact or_comm

theorem lastByte_append (kept : Kept) (a : ℕ) (c : List Byte) (x : ℕ) :
    Kept.lastByte (kept ++ [(a, c)]) x = (written Space a c x).or (kept.lastByte x) :=
  getLast?_filterMap_concat _ kept (a, c)

/-- The table holds the pages of the kept chunks, over the memory. -/
def Follows (m : Memory) (kept : Kept) (s : SpecMem) : Prop :=
  Holds m kept.tags (fun x => (kept.lastByte x).getD (m.byteAt x)) s

theorem follows_new (m : Memory) : Follows m [] (SpecMem.new m) where
  pages := rfl
  safe := rfl
  proper := ⟨fun _ _ _ hv => absurd hv List.not_mem_nil, fun _ _ => List.nodup_nil⟩
  held := by
    refine Finset.eq_empty_of_forall_notMem fun tag htag => ?_
    obtain ⟨i, -, hmem⟩ := Finset.mem_biUnion.mp htag
    exact absurd hmem (Finset.notMem_empty _)
  count := rfl
  bytes := fun _ _ => rfl

theorem Follows.append (h : Holds m (insert (pageTag a) kept.tags)
    (fun x => (written Space a c x).getD ((kept.lastByte x).getD (m.byteAt x))) s) :
    Follows m (kept ++ [(a, c)]) s := by
  have hbyte : (fun x => (Kept.lastByte (kept ++ [(a, c)]) x).getD (m.byteAt x)) =
      fun x => (written Space a c x).getD ((kept.lastByte x).getD (m.byteAt x)) := by
    funext x
    rw [lastByte_append]
    cases written Space a c x <;> rfl
  rw [Follows, tags_append, hbyte]
  exact h

theorem accessAligned_write (h : Follows m kept s) (ha : a < Space)
    (hc : a % PageSize + c.length ≤ PageSize) :
    ∃ s', s.AccessAligned a c .AccessWrite = (s', .ok c) ∧ Follows m (keep kept (a, c)) s' := by
  unfold SpecMem.AccessAligned
  cases hpage : s.getPage a with
  | some page =>
    have hmem : pageTag a ∈ kept.tags := (h.present a).mp (by rw [hpage]; rfl)
    obtain ⟨s', haccess, hs'⟩ := accessPage_holds h ha hc hpage
    have hkeep : keep kept (a, c) = kept ++ [(a, c)] := if_neg fun hboth => hboth.1 hmem
    rw [hkeep]
    refine ⟨s', haccess, Follows.append ?_⟩
    rwa [Finset.insert_eq_of_mem hmem]
  | none =>
    have hnot := h.absent hpage
    have hne : AccessType.AccessWrite ≠ AccessType.AccessRead := by decide
    simp only [if_neg hne, if_true]
    by_cases hfull : s.num_pages ≥ MaxPages
    · have hkeep : keep kept (a, c) = kept := if_pos ⟨hnot, h.count ▸ hfull⟩
      rw [if_pos hfull, hkeep]
      exact ⟨s, rfl, h⟩
    · have hkeep : keep kept (a, c) = kept ++ [(a, c)] :=
        if_neg fun hboth => hfull (h.count ▸ hboth.2)
      rw [if_neg hfull, hkeep]
      obtain ⟨t, page, hnew, hget, ht⟩ := newPage_holds h ha hpage
      obtain ⟨s', haccess, hs'⟩ := accessPage_holds ht ha hc hget
      rw [hnew]
      exact ⟨s', haccess, Follows.append hs'⟩

theorem Follows.chain {cs : List (ℕ × List Byte)} {s' : SpecMem} {out : List Byte}
    (h : Follows m kept s)
    (hchain : Chain (fun s a c s' _ => ∀ kept, Follows m kept s → Follows m (keep kept (a, c)) s')
      s cs s' out) : Follows m (cs.foldl keep kept) s' := by
  induction cs generalizing s kept out with
  | nil =>
    obtain ⟨rfl, -⟩ := hchain
    exact h
  | cons chunk cs ih =>
    obtain ⟨t, first, rest, hfirst, hrest, -⟩ := hchain
    exact ih (hfirst kept h) hrest

theorem write_follows (h : Follows m kept s) (buffer : List Byte) (ha : a < Space) :
    ∃ s' out, s.Write a buffer = (s', .ok out) ∧
      Follows m ((chunks Space PageSize a buffer).foldl keep kept) s' := by
  have hhandles : Handles Space PageSize
      (fun s address chunk => SpecMem.AccessAligned s address chunk .AccessWrite)
      (fun s => ∃ kept, Follows m kept s)
      (fun s a c s' _ => ∀ kept, Follows m kept s → Follows m (keep kept (a, c)) s') := by
    rintro s a c ⟨kept, hs⟩ ha - hc
    obtain ⟨s', haccess, hs'⟩ := accessAligned_write hs ha hc
    refine ⟨s', c, haccess, ⟨_, hs'⟩, fun kept' hk => ?_⟩
    obtain ⟨s'', haccess', hs''⟩ := accessAligned_write hk ha hc
    have hsame : s' = s'' := (Prod.ext_iff.mp (haccess.symm.trans haccess')).1
    rwa [hsame]
  obtain ⟨s', out, haccess, -, hchain⟩ :=
    access_chain pageSize_pos hhandles buffer ⟨kept, h⟩ ha
  exact ⟨s', out, haccess, h.chain hchain⟩

theorem read_eq {n : ℕ} (ha : a < Space) (hn : n ≤ Space) :
    ∃ last, s.Read a n = (s.withLast last,
      .ok ((List.range n).map fun i => s.byteAt (advance Space a i))) := by
  have hhandles : Handles Space PageSize
      (fun s address chunk => SpecMem.AccessAligned s address chunk .AccessRead)
      (fun s' => ∃ last, s' = s.withLast last) (Reads Space SpecMem.byteAt) := by
    rintro _ a c ⟨last, rfl⟩ ha - hc
    obtain ⟨last', haccess⟩ := accessAligned_read (s := s.withLast last) ha hc
    exact ⟨_, _, haccess, ⟨last', rfl⟩, rfl, fun _ _ => rfl⟩
  have hlen : (List.replicate n (0 : Byte)).length = n := List.length_replicate
  obtain ⟨s', out, haccess, ⟨last, rfl⟩, hout, -⟩ := access_spec (s := s) pageSize_pos hhandles
    (reads_composes _) ⟨s.memory.last_address, rfl⟩ ha (hlen.trans_le hn)
  rw [hlen] at hout
  exact ⟨last, by rw [SpecMem.Read, SpecMem.Access, haccess, hout]⟩

theorem clear_follows (h : Follows m kept s) : Follows m [] s.Clear where
  pages := h.pages
  safe := h.safe
  proper := by
    refine ⟨fun i hi v hv => ?_, fun i hi => ?_⟩
    · simp only [SpecMem.Clear, if_pos hi] at hv
      exact absurd hv List.not_mem_nil
    · simp only [SpecMem.Clear, if_pos hi]
      exact List.nodup_nil
  held := by
    refine Finset.eq_empty_of_forall_notMem fun tag htag => ?_
    obtain ⟨i, hi, hmem⟩ := Finset.mem_biUnion.mp htag
    simp only [SpecMem.Clear, if_pos (Finset.mem_range.mp hi)] at hmem
    exact absurd hmem (Finset.notMem_empty _)
  count := rfl
  bytes := fun x _ => by
    have hnone : s.Clear.getPage x = none := by
      simp only [SpecMem.getPage, find, SpecMem.Clear, if_pos (pageIndex_lt _), List.find?_nil]
    rw [SpecMem.byteAt, hnone, Option.elim_none]
    unfold Memory.byteAt Memory.getPage
    exact congrArg (fun pages : ℕ → Option PagedMemory.Page =>
      (pages (PagedMemory.pageTag x)).elim 0 fun page => page.byte (x % PagedMemory.PageSize))
      h.pages

end Chunks

/-! Runs of calls. -/

inductive Call
  | Read (address size : ℕ)
  | Write (address : ℕ) (buffer : List Byte)
  | Clear
  deriving DecidableEq, Repr

def Call.Valid : Call → Prop
  | .Read address size => address < Space ∧ size < 2 ^ 31
  | .Write address buffer => address < Space ∧ buffer.length < 2 ^ 31
  | .Clear => True

instance decidableValid : (c : Call) → Decidable c.Valid
  | .Read _ _ => inferInstanceAs (Decidable (_ ∧ _))
  | .Write _ _ => inferInstanceAs (Decidable (_ ∧ _))
  | .Clear => inferInstanceAs (Decidable True)

def SpecMem.call (s : SpecMem) : Call → SpecMem × Except Error (List Byte)
  | .Read address size => s.Read address size
  | .Write address buffer => s.Write address buffer
  | .Clear => (s.Clear, .ok [])

def next (s : SpecMem) (c : Call) : Option SpecMem := if c.Valid then some (s.call c).1 else none

def record (kept : Kept) (_ : SpecMem) (c : Call) (_ : SpecMem) : Kept :=
  match c with
  | .Read _ _ => kept
  | .Write address buffer => (chunks Space PageSize address buffer).foldl keep kept
  | .Clear => []

section Runs

variable {m : Memory} {kept : Kept} {s s' : SpecMem} {c : Call}

theorem call_follows (h : Follows m kept s) (hc : c.Valid) :
    ∃ s' out, s.call c = (s', .ok out) ∧ Follows m (record kept s c s') s' := by
  cases c with
  | Read address size =>
    have hsize : size ≤ Space := hc.2.le.trans (by decide)
    obtain ⟨last, hread⟩ := read_eq (s := s) hc.1 hsize
    exact ⟨_, _, hread, h.withLast last⟩
  | Write address buffer => exact write_follows h buffer hc.1
  | Clear => exact ⟨_, _, rfl, clear_follows h⟩

theorem next_follows (h : Follows m kept s) (hnext : next s c = some s') :
    c.Valid ∧ (∃ out, s.call c = (s', .ok out)) ∧ Follows m (record kept s c s') s' := by
  unfold next at hnext
  split_ifs at hnext with hc
  obtain ⟨s'', out, hcall, hs''⟩ := call_follows h hc
  rw [hcall] at hnext
  obtain rfl := Option.some.inj hnext
  exact ⟨hc, ⟨out, hcall⟩, hs''⟩

theorem card_keep (h : kept.tags.card ≤ MaxPages) (chunk : ℕ × List Byte) :
    (keep kept chunk).tags.card ≤ MaxPages := by
  unfold keep
  split_ifs with hdrop
  · exact h
  · rw [tags_append]
    by_cases hmem : pageTag chunk.1 ∈ kept.tags
    · rwa [Finset.insert_eq_of_mem hmem]
    · rw [Finset.card_insert_of_notMem hmem]
      by_contra hover
      exact hdrop ⟨hmem, by omega⟩

theorem card_foldl_keep (cs : List (ℕ × List Byte)) (h : kept.tags.card ≤ MaxPages) :
    (cs.foldl keep kept).tags.card ≤ MaxPages := by
  induction cs generalizing kept with
  | nil => exact h
  | cons chunk cs ih => exact ih (card_keep h chunk)

theorem card_record (h : kept.tags.card ≤ MaxPages) (s s' : SpecMem) (c : Call) :
    (record kept s c s').tags.card ≤ MaxPages := by
  cases c with
  | Read address size => exact h
  | Write address buffer => exact card_foldl_keep _ h
  | Clear => exact Nat.zero_le _

theorem keep_eq_self_iff {chunk : ℕ × List Byte} :
    keep kept chunk = kept ↔ pageTag chunk.1 ∉ kept.tags ∧ MaxPages ≤ kept.tags.card := by
  unfold keep
  split_ifs with hdrop
  · exact iff_of_true rfl hdrop
  · refine iff_of_false (fun heq => ?_) hdrop
    have hlen := congrArg List.length heq
    rw [List.length_append, List.length_singleton] at hlen
    omega

/-- What a call does over the memory, when some chunks have been kept. -/
structure Speculates (m : Memory) (kept : Kept) (s : SpecMem) (c : Call) (s' : SpecMem) :
    Prop where
  succeeds : ∃ out, s.call c = (s', .ok out)
  read : ∀ address size, c = .Read address size → s.call c = (s', .ok ((List.range size).map
    fun i => (kept.lastByte (advance Space address i)).getD (m.byteAt (advance Space address i))))
  dropped : ∀ address chunk, keep kept (address, chunk) = kept ↔
    s.getPage address = none ∧ s.num_pages = MaxPages
  proper : Proper Page.address pageIndex PageTableSize s.pages
  count : s.num_pages = (keys Page.address PageTableSize s.pages).card
  pages : s'.memory.pages = m.pages
  safe : s'.memory.safe = m.safe

def Speculated (m : Memory) (run : List (Call × SpecMem)) : Prop :=
  ∀ x ∈ ghosts record [] (SpecMem.new m) run, Speculates m x.1 x.2.1 x.2.2.1 x.2.2.2

/-- Over any memory, reads find the chunks that were kept since the last clearing, or else the
memory, which stays as it is. -/
theorem speculated_run (m : Memory) {run : List (Call × SpecMem)}
    (hrun : IsRun (fun s c s' => next s c = some s') (SpecMem.new m) run) : Speculated m run := by
  have hstep : ∀ kept s c s', (Follows m kept s ∧ kept.tags.card ≤ MaxPages) →
      next s c = some s' →
        Follows m (record kept s c s') s' ∧ (record kept s c s').tags.card ≤ MaxPages :=
    fun kept s c s' h hnext => ⟨(next_follows h.1 hnext).2.2, card_record h.2 s s' c⟩
  intro x hx
  obtain ⟨⟨hs, hcard⟩, hnext⟩ := ghosts_invariant
    (R := fun kept s => Follows m kept s ∧ kept.tags.card ≤ MaxPages) hstep hrun
    ⟨follows_new m, Nat.zero_le _⟩ x hx
  obtain ⟨hc, ⟨out, hcall⟩, hs'⟩ := next_follows hs hnext
  refine ⟨⟨out, hcall⟩, fun address size hread => ?_, fun address chunk => ?_, hs.proper, ?_,
    hs'.pages, hs'.safe⟩
  · rw [hread] at hc hcall ⊢
    obtain ⟨last, heq⟩ := read_eq (s := x.2.1) hc.1 (hc.2.le.trans (by decide))
    have hcall' : x.2.1.call (.Read address size) = _ := heq
    rw [hcall'] at hcall ⊢
    refine Prod.ext (Prod.ext_iff.mp hcall).1 (congrArg Except.ok (List.map_congr_left ?_))
    exact fun i _ => hs.bytes _ (advance_lt hc.1 i)
  · rw [keep_eq_self_iff, ← hs.present, ← hs.count]
    have hle : x.2.1.num_pages ≤ MaxPages := hs.count ▸ hcard
    rw [Bool.not_eq_true, Option.isSome_eq_false_iff, Option.isNone_iff_eq_none]
    exact and_congr_right fun _ => ⟨fun hge => le_antisymm hle hge, fun heq => heq.ge⟩
  · rw [hs.count, hs.held]

end Runs

/-- A write over two pages that wraps around, reads before and after a clearing. -/
def someCalls : List Call :=
  [.Write 0xfffffffe [1, 2, 3], .Read 0xffffffff 3, .Clear, .Read 0xffffffff 3]

theorem speculated_someCalls :
    (trace next (SpecMem.new (Memory.new true)) someCalls).length = 4 ∧
      Speculated (Memory.new true) (trace next (SpecMem.new (Memory.new true)) someCalls) :=
  ⟨by decide, speculated_run _ (isRun_trace _ _ _)⟩

end MMLMStore.SpeculativeMemory
