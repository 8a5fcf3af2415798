import MMLMStore.HexText

/-!
# Virtual addresses of the LMStore

The text of a virtual address as `Mmu::TranslateVirtualAddress` writes it into `mem_map`, and the
`LMStore` members that read it: `PhyToVirt`, `ServesAddress`, `getOpCode` and `DecodeAddress`.
-/
namespace MMLMStore.LMStoreDecode
open HexText

inductive OpCodeType
  | InvalidCode
  | BlockNoReadAlloc
  | BlockAccess
  | BlockNoWriteDealloc
  | BlockReadAlloc
  | BlockWriteDealloc
  deriving DecidableEq, Repr

/-- The eight hexadecimal digits of a 32-bit virtual address. -/
structure VirtAddr where
  text : Text
  length_text : text.length = 8
  isHex_text : IsHex text

/-- `setfill('0') << setw(8) << hex`: how the translation spells an address. -/
def virtText (virtual_address : ℕ) : Text := padLeft 8 (hexText virtual_address)

/-- The entry the translation of a 32-bit virtual address leaves in `mem_map`. -/
def translated (virtual_address : ℕ) (h : virtual_address < 16 ^ 8) : VirtAddr where
  text := virtText virtual_address
  length_text := by rw [virtText, padLeft_hexText (by norm_num) h, length_fixedHex]
  isHex_text := by
    rw [virtText, padLeft_hexText (by norm_num) h]
    exact isHex_fixedHex _ _

abbrev MemMap := ℕ → Option VirtAddr

def PhyToVirt (mem_map : MemMap) (phyAddr : ℕ) : Option VirtAddr := mem_map phyAddr

def substr (t : Text) (pos len : ℕ) : Text := (t.drop pos).take len

/-- First two characters, compared with the strings "71" up to "76". -/
def addrPrefix (t : Text) : Text := substr t 0 2

theorem second_digit {t : Text} {c d : Char} (h : addrPrefix t = [c, d]) : t[1]? = some d := by
  have hget : (addrPrefix t)[1]? = some d := by
    rw [h]
    rfl
  rw [addrPrefix, substr, List.drop_zero, List.getElem?_take] at hget
  simpa using hget

def opCodeOf : Char → OpCodeType
  | '1' => .BlockNoReadAlloc
  | '2' => .BlockAccess
  | '3' => .BlockNoWriteDealloc
  | '4' => .BlockReadAlloc
  | '5' => .BlockWriteDealloc
  | _ => .InvalidCode

/-- Operation bits enabled by the constructor (`0x1 | 0x2 | 0x4 | 0x8 | 0x10`). -/
def EnabledOps : ℕ := 0x1f

def ServesAddress (mem_map : MemMap) (phyAddress : ℕ) : Bool :=
  match PhyToVirt mem_map phyAddress with
  | none => false
  | some v =>
    let p := addrPrefix v.text
    (p = ['7', '1'] && EnabledOps &&& 0x001 != 0) ||
    (p = ['7', '2'] && EnabledOps &&& 0x002 != 0) ||
    (p = ['7', '3'] && EnabledOps &&& 0x004 != 0) ||
    (p = ['7', '4'] && EnabledOps &&& 0x008 != 0) ||
    (p = ['7', '5'] && EnabledOps &&& 0x010 != 0) ||
    (p = ['7', '6'] && EnabledOps &&& 0x020 != 0)

/-- The sixth operation is not enabled. -/
theorem ServesAddress_iff {mem_map : MemMap} {phyAddress : ℕ} : ServesAddress mem_map phyAddress ↔
    ∃ v, PhyToVirt mem_map phyAddress = some v ∧
      addrPrefix v.text ∈ [['7', '1'], ['7', '2'], ['7', '3'], ['7', '4'], ['7', '5']] := by
  unfold ServesAddress
  cases PhyToVirt mem_map phyAddress with
  | none => simp
  | some v => simp [EnabledOps, or_assoc]

/-- Second digit of the address; the digit six is read as a block access. -/
def getOpCode (v : VirtAddr) : OpCodeType :=
  match v.text[1]? with
  | some '6' => .BlockAccess
  | some c => opCodeOf c
  | none => .InvalidCode

structure Decoded where
  OpCode : OpCodeType
  LMRefIndex : ℕ
  BlockID : ℕ
  BlockSize : ℕ
  offset : ℕ
  deriving DecidableEq, Repr

def DecodeAddress (VirtAddr : Text) : Decoded :=
  match (VirtAddr[1]?).elim OpCodeType.InvalidCode opCodeOf with
  | .BlockReadAlloc =>
    ⟨.BlockReadAlloc, readHex (substr VirtAddr 2 2), readHex (substr VirtAddr 4 2),
      readHex (substr VirtAddr 6 2), 0⟩
  | .BlockNoReadAlloc =>
    ⟨.BlockNoReadAlloc, readHex (substr VirtAddr 2 2), readHex (substr VirtAddr 4 2),
      readHex (substr VirtAddr 6 2), 0⟩
  -- a deallocation reads its block id from one digit only
  | .BlockWriteDealloc =>
    ⟨.BlockWriteDealloc, readHex (substr VirtAddr 2 2), readHex (substr VirtAddr 4 1),
      readHex (substr VirtAddr 6 2), 0⟩
  | .BlockNoWriteDealloc =>
    ⟨.BlockNoWriteDealloc, readHex (substr VirtAddr 2 2), readHex (substr VirtAddr 4 1),
      readHex (substr VirtAddr 6 2), 0⟩
  | .BlockAccess =>
    ⟨.BlockAccess, readHex (substr VirtAddr 2 2), 0, 0, readHex (substr VirtAddr 4 3)⟩
  | .InvalidCode => ⟨.InvalidCode, 0, 0, 0, 0⟩

theorem readHexFrom_lt {t : Text} (acc k : ℕ) (ht : t.length ≤ k) :
    readHexFrom acc t < (acc + 1) * 16 ^ k := by
  induction t generalizing acc k with
  | nil =>
    have : 0 < 16 ^ k := by positivity
    simp only [readHexFrom]
    nlinarith
  | cons c cs ih =>
    obtain ⟨k, rfl⟩ : ∃ j, k = j + 1 := ⟨k - 1, by simp at ht; omega⟩
    cases hc : hexValue c with
    | none =>
      have : 0 < 16 ^ (k + 1) := by positivity
      simp only [readHexFrom, hc]
      nlinarith
    | some d =>
      have hd : d < 16 := by
        unfold hexValue at hc
        split_ifs at hc with h1 h2 h3 <;> simp only [Option.some.injEq] at hc <;> subst hc
        · have := Char.le_def.mp h1.2
          have : c.toNat ≤ 57 := this
          omega
        · have := Char.le_def.mp h2.2
          have : c.toNat ≤ 102 := this
          omega
        · have := Char.le_def.mp h3.2
          have : c.toNat ≤ 70 := this
          omega
      have hi := ih (16 * acc + d) k (by simpa using ht)
      simp only [readHexFrom, hc, pow_succ]
      have : 0 < 16 ^ k := by positivity
      nlinarith

theorem readHex_lt {t : Text} {k : ℕ} (ht : t.length ≤ k) : readHex t < 16 ^ k := by
  simpa [readHex] using readHexFrom_lt 0 k ht

theorem length_substr_le (t : Text) (pos len : ℕ) : (substr t pos len).length ≤ len := by
  simp [substr]

/-- Two digits name the LMRef entry, whatever the operation. -/
theorem DecodeAddress_LMRefIndex_lt (t : Text) : (DecodeAddress t).LMRefIndex < 256 := by
  have h := readHex_lt (length_substr_le t 2 2)
  unfold DecodeAddress
  split <;> first | exact h | norm_num

theorem DecodeAddress_BlockSize_lt (t : Text) : (DecodeAddress t).BlockSize < 256 := by
  have h := readHex_lt (length_substr_le t 6 2)
  unfold DecodeAddress
  split <;> first | exact h | norm_num

end MMLMStore.LMStoreDecode
