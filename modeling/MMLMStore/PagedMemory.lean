import MMLMStore.ChunkedAccess
import MMLMStore.HexText
import MMLMStore.StepRuns

/-!
# Paged memory

A 32-bit memory space holds its bytes in pages, which are created when they are first written and
whose data is allocated even later. An access handles one page after the other. In unsafe mode
every access succeeds, and a read returns the bytes last written.
-/
namespace MMLMStore.PagedMemory

open ChunkedAccess StepRuns

abbrev Byte := UInt8

def LogPageSize : ℕ := 12

def PageSize : ℕ := 2 ^ LogPageSize

/-- Addresses are unsigned integers of 32 bits. -/
def Space : ℕ := 2 ^ 32

inductive AccessType
  | AccessInvalid
  | AccessRead
  | AccessWrite
  | AccessExec
  | AccessInit
  | AccessModified
  deriving DecidableEq, Repr

def AccessType.bits : AccessType → ℕ
  | .AccessInvalid => 0
  | .AccessRead => 2 ^ 0
  | .AccessWrite => 2 ^ 1
  | .AccessExec => 2 ^ 2
  | .AccessInit => 2 ^ 3
  | .AccessModified => 2 ^ 4

def AccessType.isRead (access : AccessType) : Bool := access = .AccessRead ∨ access = .AccessExec

def AccessType.isWrite (access : AccessType) : Bool := access = .AccessWrite ∨ access = .AccessInit

/-- Failed accesses; the last one stands for assertions. -/
inductive Error
  | SegmentationFault (address : ℕ)
  | PermissionDenied (address : ℕ)
  | Aborted
  deriving DecidableEq, Repr

def Error.message : Error → HexText.Text
  | .SegmentationFault address =>
    "[0x".toList ++ HexText.hexText address ++ "] Segmentation fault in guest program".toList
  | .PermissionDenied address =>
    "[0x".toList ++ HexText.hexText address ++ "] Permission denied".toList
  | .Aborted => []

/-- The address of the first byte in the page, as `address & ~(PageSize - 1)`. -/
def pageTag (address : ℕ) : ℕ := address / PageSize * PageSize

/-- Permissions, and the data by offset if it is allocated. -/
structure Page where
  perm : ℕ
  data : Option (ℕ → Byte)

namespace Page

variable (page : Page)

def addPerm (perm : ℕ) : Page := { page with perm := page.perm ||| perm }

def AllocateData : Page := { page with data := some (page.data.getD fun _ => 0) }

def copyIn (offset : ℕ) (buffer : List Byte) : Page :=
  { page with data := page.data.map fun data i =>
      if offset ≤ i then buffer.getD (i - offset) (data i) else data i }

def copyOut (offset size : ℕ) : List Byte :=
  match page.data with
  | some data => (List.range size).map fun i => data (offset + i)
  | none => List.replicate size 0

def byte (i : ℕ) : Byte := (page.data.getD fun _ => 0) i

end Page

structure Memory where
  pages : ℕ → Option Page
  safe : Bool
  last_address : ℕ

namespace Memory

def new (safe : Bool) : Memory := ⟨fun _ => none, safe, 0⟩

variable (m : Memory)

def setSafe (safe : Bool) : Memory := { m with safe }

def getPage (address : ℕ) : Option Page := m.pages (pageTag address)

def putPage (address : ℕ) (page : Page) : Memory :=
  { m with pages := fun tag => if tag = pageTag address then some page else m.pages tag }

/-- The memory with a page that is entered if there was none, or as it is in the table. -/
def AccessPage (address : ℕ) (page : Page) (buffer : List Byte) (access : AccessType) :
    Memory × Except Error (List Byte) :=
  let offset := address % PageSize
  let page := if access = .AccessWrite then page.addPerm AccessType.AccessModified.bits else page
  let m := m.putPage address page
  if m.safe ∧ page.perm &&& access.bits ≠ access.bits then (m, .error (.PermissionDenied address))
  else if access.isRead then (m, .ok (page.copyOut offset buffer.length))
  else if access.isWrite then
    (m.putPage address (page.AllocateData.copyIn offset buffer), .ok buffer)
  else (m, .error .Aborted)

/-- What the buffer holds afterwards. New pages get all permissions. -/
def AccessAtPageBoundary (address : ℕ) (buffer : List Byte) (access : AccessType) :
    Memory × Except Error (List Byte) :=
  if address % PageSize + buffer.length ≤ PageSize then
    match m.getPage address with
    | some page => m.AccessPage address page buffer access
    | none =>
      if m.safe then (m, .error (.SegmentationFault address))
      else if access.isRead then (m, .ok (List.replicate buffer.length 0))
      else if access.isWrite then
        m.AccessPage address
          ⟨AccessType.AccessRead.bits ||| AccessType.AccessWrite.bits |||
            AccessType.AccessExec.bits ||| AccessType.AccessInit.bits, none⟩ buffer access
      else (m, .error .Aborted)
  else (m, .error .Aborted)

/-- The buffer has the size of the access. -/
def Access (address : ℕ) (buffer : List Byte) (access : AccessType) :
    Memory × Except Error (List Byte) :=
  ChunkedAccess.access Space PageSize
    (fun m address chunk => m.AccessAtPageBoundary address chunk access)
    { m with last_address := address } address buffer

/-- What the buffer holds before does not matter. -/
def Read (address size : ℕ) : Memory × Except Error (List Byte) :=
  m.Access address (List.replicate size 0) .AccessRead

def Write (address : ℕ) (buffer : List Byte) : Memory × Except Error (List Byte) :=
  m.Access address buffer .AccessWrite

def Init (address : ℕ) (buffer : List Byte) : Memory × Except Error (List Byte) :=
  m.Access address buffer .AccessInit

/-- The byte held for an address, zero where there is no page or no data. -/
def byteAt (address : ℕ) : Byte :=
  (m.getPage address).elim 0 fun page => page.byte (address % PageSize)

/-- The page of the address is there and has the permissions for the access. -/
def Permits (access : AccessType) (address : ℕ) : Prop :=
  ∃ page, m.getPage address = some page ∧ page.perm &&& access.bits = access.bits

end Memory

theorem pageSize_pos : 0 < PageSize := by decide

theorem pageSize_dvd : PageSize ∣ Space := by decide

theorem pageTag_eq_iff {a x : ℕ} : pageTag x = pageTag a ↔ x / PageSize = a / PageSize := by
  unfold pageTag
  exact Nat.mul_left_inj pageSize_pos.ne'

theorem byte_copyIn (page : Page) (offset : ℕ) (buffer : List Byte) (i : ℕ) :
    (page.AllocateData.copyIn offset buffer).byte i =
      if offset ≤ i then buffer.getD (i - offset) (page.byte i) else page.byte i := rfl

theorem replicate_zero (n : ℕ) : List.replicate n (0 : Byte) = (List.range n).map fun _ => 0 := by
  rw [List.map_const', List.length_range]

theorem copyOut_eq (page : Page) (offset size : ℕ) :
    page.copyOut offset size = (List.range size).map fun i => page.byte (offset + i) := by
  unfold Page.copyOut Page.byte
  cases page.data with
  | none => exact replicate_zero size
  | some data => rfl

section Accesses

variable {m : Memory} {page : Page} {access : AccessType}

theorem putPage_self {address : ℕ} (h : m.getPage address = some page) :
    m.putPage address page = m := by
  have hpages : (m.putPage address page).pages = m.pages := by
    funext tag
    simp only [Memory.putPage]
    split_ifs with htag
    · rw [htag]
      exact h.symm
    · rfl
  exact congrArg (fun pages => (⟨pages, m.safe, m.last_address⟩ : Memory)) hpages

theorem putPage_putPage (address : ℕ) (page' : Page) :
    (m.putPage address page).putPage address page' = m.putPage address page' := by
  unfold Memory.putPage
  congr 1
  funext tag
  split_ifs with htag
  · rfl
  · exact if_neg htag

theorem getPage_putPage (address x : ℕ) :
    (m.putPage address page).getPage x =
      if x / PageSize = address / PageSize then some page else m.getPage x := by
  simp only [Memory.getPage, Memory.putPage, pageTag_eq_iff]

theorem byteAt_putPage (address x : ℕ) :
    (m.putPage address page).byteAt x =
      if x / PageSize = address / PageSize then page.byte (x % PageSize) else m.byteAt x := by
  unfold Memory.byteAt
  rw [getPage_putPage]
  split_ifs <;> rfl

theorem accessAtPageBoundary_read (hsafe : m.safe = false) (hread : access.isRead = true)
    {address : ℕ} {chunk : List Byte} (haddress : address < Space)
    (hchunk : address % PageSize + chunk.length ≤ PageSize) :
    m.AccessAtPageBoundary address chunk access =
      (m, .ok ((List.range chunk.length).map fun i => m.byteAt (advance Space address i))) := by
  have hwrite : access ≠ .AccessWrite := by
    rintro rfl
    exact absurd hread (by decide)
  -- every byte of the chunk lies in the page of the address
  have hbyte : ∀ i < chunk.length, m.byteAt (advance Space address i) =
      (m.getPage address).elim 0 fun page => page.byte (address % PageSize + i) := by
    intro i hi
    obtain ⟨hadv, hdiv, hmod⟩ := advance_chunk pageSize_dvd haddress hchunk hi
    rw [hadv, Memory.byteAt, Memory.getPage, pageTag_eq_iff.mpr hdiv, hmod]
    rfl
  unfold Memory.AccessAtPageBoundary
  rw [if_pos hchunk]
  cases hpage : m.getPage address with
  | none =>
    rw [hpage] at hbyte
    simp only [hsafe, Bool.false_eq_true, if_false, hread, if_true]
    rw [replicate_zero]
    refine congrArg (fun out => (m, Except.ok out)) (List.map_congr_left fun i hi => ?_)
    exact (hbyte i (List.mem_range.mp hi)).symm
  | some page =>
    rw [hpage] at hbyte
    simp only [Memory.AccessPage, if_neg hwrite, putPage_self hpage, hsafe, Bool.false_eq_true,
      false_and, if_false, hread, if_true]
    rw [copyOut_eq]
    refine congrArg (fun out => (m, Except.ok out)) (List.map_congr_left fun i hi => ?_)
    exact (hbyte i (List.mem_range.mp hi)).symm

/-- A chunk puts its bytes into the page of its address, existing or new. -/
theorem accessAtPageBoundary_write (hsafe : m.safe = false) (hwrite : access.isWrite = true)
    {address : ℕ} {chunk : List Byte}
    (hchunk : address % PageSize + chunk.length ≤ PageSize) :
    ∃ page : Page, (∀ i, page.byte i = (m.getPage address).elim 0 fun page => page.byte i) ∧
      m.AccessAtPageBoundary address chunk access =
        (m.putPage address (page.AllocateData.copyIn (address % PageSize) chunk), .ok chunk) := by
  have hread : access.isRead = false := by
    cases access <;> first | rfl | exact absurd hwrite (by decide)
  -- the page as it is when the bytes are copied
  have hpage : ∀ page : Page, m.AccessPage address page chunk access =
      (m.putPage address ((if access = .AccessWrite then
        page.addPerm AccessType.AccessModified.bits else page).AllocateData.copyIn
          (address % PageSize) chunk), .ok chunk) := by
    intro page
    have hsafe' : ∀ page : Page, (m.putPage address page).safe = false := fun _ => hsafe
    simp only [Memory.AccessPage, hsafe', Bool.false_eq_true, false_and, if_false, hread, hwrite,
      if_true, putPage_putPage]
  have hperm : ∀ page : Page, ∀ i, (if access = .AccessWrite then
      page.addPerm AccessType.AccessModified.bits else page).byte i = page.byte i := by
    intro page i
    split_ifs <;> rfl
  unfold Memory.AccessAtPageBoundary
  rw [if_pos hchunk]
  cases hfound : m.getPage address with
  | none =>
    simp only [hsafe, Bool.false_eq_true, if_false, hread, hwrite, if_true, hpage]
    exact ⟨_, hperm _, rfl⟩
  | some page =>
    simp only [hpage]
    exact ⟨_, hperm _, rfl⟩

theorem byteAt_written {address : ℕ} {chunk : List Byte} {x : ℕ} (haddress : address < Space)
    (hchunk : address % PageSize + chunk.length ≤ PageSize) (hx : x < Space)
    (hpage : ∀ i, page.byte i = (m.getPage address).elim 0 fun page => page.byte i) :
    (m.putPage address (page.AllocateData.copyIn (address % PageSize) chunk)).byteAt x =
      (written Space address chunk x).getD (m.byteAt x) := by
  rw [byteAt_putPage, written_chunk pageSize_dvd haddress hx hchunk]
  by_cases hdiv : x / PageSize = address / PageSize
  · have hbyte : m.byteAt x = page.byte (x % PageSize) := by
      rw [hpage, Memory.byteAt, Memory.getPage, pageTag_eq_iff.mpr hdiv]
      rfl
    rw [if_pos hdiv, byte_copyIn, hbyte]
    by_cases hle : address % PageSize ≤ x % PageSize
    · rw [if_pos hle, if_pos ⟨hdiv, hle⟩, List.getD_eq_getElem?_getD]
    · rw [if_neg hle, if_neg fun h => hle h.2]
      rfl
  · rw [if_neg hdiv, if_neg fun h => hdiv h.1]
    rfl

theorem access_read (hsafe : m.safe = false) (hread : access.isRead = true) {address : ℕ}
    {buffer : List Byte} (haddress : address < Space) (hbuffer : buffer.length ≤ Space) :
    m.Access address buffer access = ({ m with last_address := address },
      .ok ((List.range buffer.length).map fun i => m.byteAt (advance Space address i))) := by
  have hhandles : Handles Space PageSize
      (fun m address chunk => Memory.AccessAtPageBoundary m address chunk access)
      (fun m' => m' = { m with last_address := address }) (Reads Space Memory.byteAt) := by
    rintro _ a chunk rfl ha - hchunk
    exact ⟨_, _, accessAtPageBoundary_read (m := { m with last_address := address }) hsafe hread
      ha hchunk, rfl, rfl, fun _ _ => rfl⟩
  obtain ⟨m', out, haccess, rfl, hout, -⟩ :=
    access_spec pageSize_pos hhandles (reads_composes _) rfl haddress hbuffer
  rw [Memory.Access, haccess, hout]
  rfl

theorem access_write (hsafe : m.safe = false) (hwrite : access.isWrite = true) {address : ℕ}
    {buffer : List Byte} (haddress : address < Space) (hbuffer : buffer.length ≤ Space) :
    ∃ m' out, m.Access address buffer access = (m', .ok out) ∧ m'.safe = false ∧
      ∀ x < Space, m'.byteAt x = (written Space address buffer x).getD (m.byteAt x) := by
  have hhandles : Handles Space PageSize
      (fun m address chunk => Memory.AccessAtPageBoundary m address chunk access)
      (fun m => m.safe = false) (Writes Space Memory.byteAt) := by
    intro m a chunk hm ha _ hchunk
    obtain ⟨page, hpage, hresult⟩ := accessAtPageBoundary_write hm hwrite hchunk
    exact ⟨_, _, hresult, hm, fun x hx => byteAt_written ha hchunk hx hpage⟩
  obtain ⟨m', out, haccess, hsafe', hout⟩ := access_spec (s := { m with last_address := address })
    pageSize_pos hhandles (writes_composes _) hsafe haddress hbuffer
  exact ⟨m', out, haccess, hsafe', hout⟩

theorem read_eq (hsafe : m.safe = false) {address size : ℕ} (haddress : address < Space)
    (hsize : size ≤ Space) : m.Read address size = ({ m with last_address := address },
      .ok ((List.range size).map fun i => m.byteAt (advance Space address i))) := by
  have hlen : (List.replicate size (0 : Byte)).length = size := List.length_replicate
  rw [Memory.Read, access_read hsafe rfl haddress (hlen.trans_le hsize), hlen]

end Accesses

/-! Runs of calls. -/

inductive Call
  | Read (address size : ℕ)
  | Write (address : ℕ) (buffer : List Byte)
  | Init (address : ℕ) (buffer : List Byte)
  deriving DecidableEq, Repr

namespace Call

def address : Call → ℕ
  | .Read address _ => address
  | .Write address _ => address
  | .Init address _ => address

def size : Call → ℕ
  | .Read _ size => size
  | .Write _ buffer => buffer.length
  | .Init _ buffer => buffer.length

def Valid (c : Call) : Prop := c.address < Space ∧ c.size < Space

instance (c : Call) : Decidable c.Valid := inferInstanceAs (Decidable (_ ∧ _))

def puts (x : ℕ) : Call → Option Byte
  | .Read _ _ => none
  | .Write address buffer => written Space address buffer x
  | .Init address buffer => written Space address buffer x

end Call

def Memory.call (m : Memory) : Call → Memory × Except Error (List Byte)
  | .Read address size => m.Read address size
  | .Write address buffer => m.Write address buffer
  | .Init address buffer => m.Init address buffer

/-- The byte last put at an address, zero if none was. -/
def lastByte (past : List Call) (x : ℕ) : Byte := (past.filterMap (Call.puts x)).getLast?.getD 0

theorem lastByte_append (past : List Call) (c : Call) (x : ℕ) :
    lastByte (past ++ [c]) x = (c.puts x).getD (lastByte past x) := by
  rw [lastByte, getLast?_filterMap_concat]
  cases c.puts x <;> rfl

theorem Call.puts_of_not_range {c : Call} (hc : c.Valid) {x : ℕ} (hx : x < Space)
    (hrange : ∀ i < c.size, advance Space c.address i ≠ x) : c.puts x = none := by
  have hwritten : ∀ buffer : List Byte, buffer.length = c.size →
      written Space c.address buffer x = none := by
    intro buffer hsize
    refine Option.eq_none_iff_forall_not_mem.mpr fun b hb => ?_
    obtain ⟨i, hi, hget⟩ := (written_eq_some_iff hc.1 hx (hsize.trans_le hc.2.le)).mp hb
    exact hrange i (hsize ▸ (List.getElem?_eq_some_iff.mp hget).1) hi
  cases c with
  | Read address size => rfl
  | Write address buffer => exact hwritten buffer rfl
  | Init address buffer => exact hwritten buffer rfl

theorem call_spec {m : Memory} (hsafe : m.safe = false) {c : Call} (hc : c.Valid) :
    ∃ m' out, m.call c = (m', .ok out) ∧ m'.safe = false ∧
      ∀ x < Space, m'.byteAt x = (c.puts x).getD (m.byteAt x) := by
  cases c with
  | Read address size => exact ⟨_, _, read_eq hsafe hc.1 hc.2.le, hsafe, fun _ _ => rfl⟩
  | Write address buffer => exact access_write hsafe rfl hc.1 hc.2.le
  | Init address buffer => exact access_write hsafe rfl hc.1 hc.2.le

/-- What a call does after the calls of the past. -/
structure Overlays (past : List Call) (m : Memory) (c : Call) (m' : Memory) : Prop where
  succeeds : ∃ out, m.call c = (m', .ok out)
  read : ∀ address size, c = .Read address size → m.call c =
    (m', .ok ((List.range size).map fun i => lastByte past (advance Space address i)))
  own : ∀ x < Space, (∀ i < c.size, advance Space c.address i ≠ x) → m'.byteAt x = m.byteAt x

def next (m : Memory) (c : Call) : Option Memory := if c.Valid then some (m.call c).1 else none

def Overlaid (run : List (Call × Memory)) : Prop :=
  ∀ x ∈ history [] (Memory.new false) run, Overlays x.1 x.2.1 x.2.2.1 x.2.2.2

theorem next_spec {m m' : Memory} {c : Call} (hsafe : m.safe = false) (h : next m c = some m') :
    c.Valid ∧ (∃ out, m.call c = (m', .ok out)) ∧ m'.safe = false ∧
      ∀ x < Space, m'.byteAt x = (c.puts x).getD (m.byteAt x) := by
  unfold next at h
  split_ifs at h with hc
  obtain ⟨m'', out, hcall, hspec⟩ := call_spec hsafe hc
  rw [hcall] at h
  obtain rfl := Option.some.inj h
  exact ⟨hc, ⟨out, hcall⟩, hspec⟩

/-- In unsafe mode, from an empty memory, every read returns the bytes last put at its addresses,
and every call keeps to its range. -/
theorem overlaid_run {run : List (Call × Memory)}
    (hrun : IsRun (fun m c m' => next m c = some m') (Memory.new false) run) : Overlaid run := by
  have hstep : ∀ past m c m', (m.safe = false ∧ ∀ x < Space, m.byteAt x = lastByte past x) →
      next m c = some m' → True → True →
        m'.safe = false ∧ ∀ x < Space, m'.byteAt x = lastByte (past ++ [c]) x := by
    rintro past m c m' ⟨hsafe, hbytes⟩ hnext - -
    obtain ⟨-, -, hsafe', hbytes'⟩ := next_spec hsafe hnext
    refine ⟨hsafe', fun x hx => ?_⟩
    rw [hbytes' x hx, lastByte_append, hbytes x hx]
  intro x hx
  obtain ⟨⟨hsafe, hbytes⟩, hnext⟩ := history_invariant
    (R := fun past m => m.safe = false ∧ ∀ x < Space, m.byteAt x = lastByte past x) hstep hrun
    ⟨rfl, fun _ _ => rfl⟩ (fun _ _ => trivial) x hx
  obtain ⟨hc, ⟨out, hcall⟩, -, hbytes'⟩ := next_spec hsafe hnext
  refine ⟨⟨out, hcall⟩, fun address size hread => ?_, fun y hy hrange => ?_⟩
  · rw [hread] at hc hcall ⊢
    have heq : x.2.1.call (.Read address size) = _ := read_eq hsafe hc.1 hc.2.le
    have hout : ∀ i ∈ List.range size, x.2.1.byteAt (advance Space address i) =
        lastByte x.1 (advance Space address i) := fun i _ => hbytes _ (advance_lt hc.1 i)
    rw [heq] at hcall ⊢
    exact Prod.ext (Prod.ext_iff.mp hcall).1 (congrArg Except.ok (List.map_congr_left hout))
  · rw [hbytes' y hy, Call.puts_of_not_range hc hy hrange, Option.getD_none]

/-- A write that wraps around, an initialisation over its end, and a read over both. -/
def someCalls : List Call :=
  [.Write 0xfffffffe [1, 2, 3, 4], .Init 1 [5, 6], .Read 0xffffffff 5]

theorem overlaid_someCalls :
    (trace next (Memory.new false) someCalls).length = 3 ∧
      Overlaid (trace next (Memory.new false) someCalls) :=
  ⟨by decide, overlaid_run (isRun_trace _ _ _)⟩

example : (final (Memory.new false) (trace next (Memory.new false) someCalls)).byteAt 1 = 5 := by
  decide

end MMLMStore.PagedMemory
