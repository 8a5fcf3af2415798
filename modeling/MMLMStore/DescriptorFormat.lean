import MMLMStore.LMStoreDecode

/-!
# Addresses of the block sections

The address texts `blockDescriptorGen` prints for one block, what the linker and the translation
make of them, and the fields `DecodeAddress` reads back.
-/
namespace MMLMStore.DescriptorFormat
open HexText LMStoreDecode

/-- `snprintf` into `char buffer[12]`: at most eleven characters are kept. -/
def snprintf (t : Text) : Text := t.take (12 - 1)

/-- `%#04x` and `%#02x`: the `0x` prefix is printed for a non-zero number only. -/
def altHex (width n : ℕ) : Text :=
  if n = 0 then padLeft width (hexText 0)
  else ['0', 'x'] ++ padLeft (width - 2) (hexText n)

/-- `std::hex` with one leading zero added to a single digit. -/
def twoHex (n : ℕ) : Text := if (hexText n).length < 2 then '0' :: hexText n else hexText n

/-- Start of the access section, `0x72%s%#04x`. -/
def access_starting_addr (lmref_index : ℕ) : Text :=
  snprintf (['0', 'x', '7', '2'] ++ twoHex lmref_index ++ altHex 4 0)

/-- Common form `0x7?%s%s%s` of the sections that carry the block size. -/
def sized_starting_addr (op : Char) (lmref_index blockSID block_size : ℕ) : Text :=
  snprintf (['0', 'x', '7', op] ++ twoHex lmref_index ++ twoHex blockSID ++ twoHex block_size)

def no_read_alloca_starting_addr : ℕ → ℕ → ℕ → Text := sized_starting_addr '1'

def no_write_dealloca_starting_addr : ℕ → ℕ → ℕ → Text := sized_starting_addr '3'

def read_alloca_starting_addr : ℕ → ℕ → ℕ → Text := sized_starting_addr '4'

/-- `0x75%s%s%#02x`: no size, only the literal zero `init`. -/
def write_dealloca_starting_addr (lmref_index blockSID : ℕ) : Text :=
  snprintf (['0', 'x', '7', '5'] ++ twoHex lmref_index ++ twoHex blockSID ++ altHex 2 0)

/-- The number a linker script assigns: the digits after `0x`. -/
def linkValue (t : Text) : ℕ := readHex (t.drop 2)

/-- Decoding of the word placed at the start of a section, through the text of its address. -/
def decodeLinked (t : Text) : Decoded := DecodeAddress (virtText (linkValue t))

theorem twoHex_eq_padLeft (n : ℕ) : twoHex n = padLeft 2 (hexText n) := by
  have hpos := length_hexText_pos n
  unfold twoHex padLeft
  split_ifs with h
  · rw [show 2 - (hexText n).length = 1 by omega]
    rfl
  · rw [show 2 - (hexText n).length = 0 by omega]
    rfl

theorem twoHex_eq_fixedHex {n : ℕ} (hn : n < 256) : twoHex n = fixedHex 2 n := by
  rw [twoHex_eq_padLeft, padLeft_hexText (by norm_num) (by simpa using hn)]

theorem length_twoHex (n : ℕ) : (twoHex n).length = max 2 (hexText n).length := by
  rw [twoHex_eq_padLeft, length_padLeft]

theorem length_twoHex_eq_two_iff (n : ℕ) : (twoHex n).length = 2 ↔ n < 256 := by
  have h : (hexText n).length ≤ 2 ↔ n < 16 ^ 2 := length_hexText_le_iff (by norm_num)
  norm_num at h
  rw [length_twoHex, ← h]
  omega

theorem two_le_length_twoHex (n : ℕ) : 2 ≤ (twoHex n).length := by
  rw [length_twoHex]
  omega

/-- Eight digits survive linking and the translation's spelling unchanged. -/
theorem virtText_fixedHex {n : ℕ} (hn : n < 16 ^ 8) :
    virtText (readHex (fixedHex 8 n)) = fixedHex 8 n := by
  rw [readHex_fixedHex hn, virtText, padLeft_hexText (by norm_num) hn]

def fourFields (a b c d : ℕ) : Text :=
  fixedHex 2 a ++ fixedHex 2 b ++ fixedHex 2 c ++ fixedHex 2 d

theorem fourFields_eq (a : ℕ) {b c d : ℕ} (hb : b < 256) (hc : c < 256) (hd : d < 256) :
    fourFields a b c d = fixedHex 8 (((a * 16 ^ 2 + b) * 16 ^ 2 + c) * 16 ^ 2 + d) := by
  unfold fourFields
  rw [fixedHex_append 2 2 a (by simpa using hb), fixedHex_append (2 + 2) 2 _ (by simpa using hc),
    fixedHex_append (2 + 2 + 2) 2 _ (by simpa using hd)]

theorem virtText_fourFields {a b c d : ℕ} (ha : a < 256) (hb : b < 256) (hc : c < 256)
    (hd : d < 256) : virtText (readHex (fourFields a b c d)) = fourFields a b c d := by
  rw [fourFields_eq a hb hc hd, virtText_fixedHex (by norm_num; omega)]

theorem readHex_fourFields {a b c d : ℕ} (ha : a < 256) (hb : b < 256) (hc : c < 256)
    (hd : d < 256) :
    readHex (fourFields a b c d) = a * 2 ^ 24 + b * 2 ^ 16 + c * 2 ^ 8 + d := by
  rw [fourFields_eq a hb hc hd, readHex_fixedHex (by norm_num; omega)]
  ring

/-- The translation spells a 32-bit address by its four bytes. -/
theorem virtText_eq_fourFields {address : ℕ} (h : address < 2 ^ 32) : virtText address =
    fourFields (address / 2 ^ 24) (address / 2 ^ 16 % 256) (address / 2 ^ 8 % 256)
      (address % 256) := by
  have ha : address / 2 ^ 24 < 256 := by omega
  have hb : address / 2 ^ 16 % 256 < 256 := Nat.mod_lt _ (by norm_num)
  have hc : address / 2 ^ 8 % 256 < 256 := Nat.mod_lt _ (by norm_num)
  have hd : address % 256 < 256 := Nat.mod_lt _ (by norm_num)
  have hvalue : readHex (fourFields (address / 2 ^ 24) (address / 2 ^ 16 % 256)
      (address / 2 ^ 8 % 256) (address % 256)) = address := by
    rw [readHex_fourFields ha hb hc hd]
    omega
  rw [← virtText_fourFields ha hb hc hd, hvalue]

theorem substr_fourFields_two (a b c d : ℕ) : substr (fourFields a b c d) 2 2 = fixedHex 2 b := by
  simp [substr, fourFields, fixedHex]

theorem substr_fourFields_four (a b c d : ℕ) : substr (fourFields a b c d) 4 2 = fixedHex 2 c := by
  simp [substr, fourFields, fixedHex]

theorem substr_fourFields_six (a b c d : ℕ) : substr (fourFields a b c d) 6 2 = fixedHex 2 d := by
  simp [substr, fourFields, fixedHex]

/-- The single digit read as the id of a deallocated block is the high digit of the section id. -/
theorem substr_fourFields_four_one (a b c d : ℕ) :
    substr (fourFields a b c d) 4 1 = fixedHex 1 (c / 16) := by
  simp [substr, fourFields, fixedHex]

theorem sized_starting_addr_eq {op : Char} {d lmref sid size : ℕ}
    (hop : ['7', op] = fixedHex 2 d) (hl : lmref < 256) (hs : sid < 256) (hz : size < 256) :
    sized_starting_addr op lmref sid size = ['0', 'x'] ++ fourFields d lmref sid size := by
  have hlen : (['0', 'x', '7', op] ++ fixedHex 2 lmref ++ fixedHex 2 sid
      ++ fixedHex 2 size).length ≤ 12 - 1 := by simp
  simp only [sized_starting_addr, snprintf, twoHex_eq_fixedHex hl, twoHex_eq_fixedHex hs,
    twoHex_eq_fixedHex hz, List.take_of_length_le hlen, fourFields, ← hop]
  simp

theorem linkValue_sized {op : Char} {d lmref sid size : ℕ} (hop : ['7', op] = fixedHex 2 d)
    (hd : d < 256) (hl : lmref < 256) (hs : sid < 256) (hz : size < 256) :
    linkValue (sized_starting_addr op lmref sid size) =
      d * 2 ^ 24 + lmref * 2 ^ 16 + sid * 2 ^ 8 + size := by
  rw [sized_starting_addr_eq hop hl hs hz, linkValue]
  exact readHex_fourFields hd hl hs hz

theorem write_dealloca_starting_addr_eq {lmref sid : ℕ} (hl : lmref < 256) (hs : sid < 256) :
    write_dealloca_starting_addr lmref sid = ['0', 'x'] ++ fourFields 0x75 lmref sid 0 := by
  have hlen : (['0', 'x', '7', '5'] ++ fixedHex 2 lmref ++ fixedHex 2 sid
      ++ altHex 2 0).length ≤ 12 - 1 := by simp [altHex, padLeft, hexText]
  have hcode : fixedHex 2 0x75 = ['7', '5'] := by decide
  have hzero : altHex 2 0 = fixedHex 2 0 := by decide
  rw [write_dealloca_starting_addr, snprintf, twoHex_eq_fixedHex hl, twoHex_eq_fixedHex hs,
    List.take_of_length_le hlen, fourFields, hcode, hzero]
  simp

/-- Reading of a linked address by its operation code: allocations read a two-digit block id,
deallocations only its high digit. -/
theorem decodeLinked_fourFields {d lmref sid size : ℕ} (hd : d < 256) (hl : lmref < 256)
    (hs : sid < 256) (hz : size < 256) :
    decodeLinked (['0', 'x'] ++ fourFields d lmref sid size) =
      DecodeAddress (fourFields d lmref sid size) := by
  have hdrop : (['0', 'x'] ++ fourFields d lmref sid size).drop 2 = fourFields d lmref sid size :=
    rfl
  rw [decodeLinked, linkValue, hdrop, virtText_fourFields hd hl hs hz]

theorem DecodeAddress_alloca (op : Char) {code : OpCodeType} {d lmref sid size : ℕ}
    (hop : ['7', op] = fixedHex 2 d) (hcode : opCodeOf op = code)
    (halloc : code = .BlockReadAlloc ∨ code = .BlockNoReadAlloc)
    (hl : lmref < 256) (hs : sid < 256) (hz : size < 256) :
    DecodeAddress (fourFields d lmref sid size) = ⟨code, lmref, sid, size, 0⟩ := by
  have hchar : (fourFields d lmref sid size)[1]? = some op := by
    simp [fourFields, ← hop]
  have h2 : readHex (fixedHex 2 lmref) = lmref := readHex_fixedHex (by simpa using hl)
  have h4 : readHex (fixedHex 2 sid) = sid := readHex_fixedHex (by simpa using hs)
  have h6 : readHex (fixedHex 2 size) = size := readHex_fixedHex (by simpa using hz)
  rcases halloc with rfl | rfl <;>
    simp only [DecodeAddress, hchar, Option.elim_some, hcode, substr_fourFields_two,
      substr_fourFields_four, substr_fourFields_six, h2, h4, h6]

theorem DecodeAddress_dealloca (op : Char) {code : OpCodeType} {d lmref sid size : ℕ}
    (hop : ['7', op] = fixedHex 2 d) (hcode : opCodeOf op = code)
    (hdealloc : code = .BlockWriteDealloc ∨ code = .BlockNoWriteDealloc)
    (hl : lmref < 256) (hs : sid < 256) (hz : size < 256) :
    DecodeAddress (fourFields d lmref sid size) = ⟨code, lmref, sid / 16, size, 0⟩ := by
  have hchar : (fourFields d lmref sid size)[1]? = some op := by
    simp [fourFields, ← hop]
  have h2 : readHex (fixedHex 2 lmref) = lmref := readHex_fixedHex (by simpa using hl)
  have h4 : readHex (fixedHex 1 (sid / 16)) = sid / 16 := readHex_fixedHex (by omega)
  have h6 : readHex (fixedHex 2 size) = size := readHex_fixedHex (by simpa using hz)
  rcases hdealloc with rfl | rfl <;>
    simp only [DecodeAddress, hchar, Option.elim_some, hcode, substr_fourFields_two,
      substr_fourFields_four_one, substr_fourFields_six, h2, h4, h6]

theorem decodeLinked_no_read_alloca {lmref sid size : ℕ} (hl : lmref < 256) (hs : sid < 256)
    (hz : size < 256) : decodeLinked (no_read_alloca_starting_addr lmref sid size) =
      ⟨.BlockNoReadAlloc, lmref, sid, size, 0⟩ := by
  rw [no_read_alloca_starting_addr, sized_starting_addr_eq (d := 0x71) (by decide) hl hs hz,
    decodeLinked_fourFields (by norm_num) hl hs hz]
  exact DecodeAddress_alloca '1' (by decide) rfl (Or.inr rfl) hl hs hz

theorem decodeLinked_read_alloca {lmref sid size : ℕ} (hl : lmref < 256) (hs : sid < 256)
    (hz : size < 256) : decodeLinked (read_alloca_starting_addr lmref sid size) =
      ⟨.BlockReadAlloc, lmref, sid, size, 0⟩ := by
  rw [read_alloca_starting_addr, sized_starting_addr_eq (d := 0x74) (by decide) hl hs hz,
    decodeLinked_fourFields (by norm_num) hl hs hz]
  exact DecodeAddress_alloca '4' (by decide) rfl (Or.inl rfl) hl hs hz

theorem decodeLinked_no_write_dealloca {lmref sid size : ℕ} (hl : lmref < 256) (hs : sid < 256)
    (hz : size < 256) : decodeLinked (no_write_dealloca_starting_addr lmref sid size) =
      ⟨.BlockNoWriteDealloc, lmref, sid / 16, size, 0⟩ := by
  rw [no_write_dealloca_starting_addr, sized_starting_addr_eq (d := 0x73) (by decide) hl hs hz,
    decodeLinked_fourFields (by norm_num) hl hs hz]
  exact DecodeAddress_dealloca '3' (by decide) rfl (Or.inr rfl) hl hs hz

theorem decodeLinked_write_dealloca {lmref sid : ℕ} (hl : lmref < 256) (hs : sid < 256) :
    decodeLinked (write_dealloca_starting_addr lmref sid) =
      ⟨.BlockWriteDealloc, lmref, sid / 16, 0, 0⟩ := by
  rw [write_dealloca_starting_addr_eq hl hs,
    decodeLinked_fourFields (by norm_num) hl hs (by norm_num)]
  exact DecodeAddress_dealloca '5' (by decide) rfl (Or.inl rfl) hl hs (by norm_num)

/-! Widths. An address is eight digits long, and below `2 ^ 32`, when its fields are two digits. -/

theorem length_sized_starting_addr (op : Char) {lmref : ℕ} (hl : lmref < 256) (sid size : ℕ) :
    (sized_starting_addr op lmref sid size).length =
      min 11 (6 + (twoHex sid).length + (twoHex size).length) := by
  have h := (length_twoHex_eq_two_iff lmref).mpr hl
  simp only [sized_starting_addr, snprintf, List.length_take, List.length_append,
    List.length_cons, List.length_nil, h]

theorem length_sized_starting_addr_eq_ten_iff (op : Char) {lmref : ℕ} (hl : lmref < 256)
    (sid size : ℕ) :
    (sized_starting_addr op lmref sid size).length = 10 ↔ sid < 256 ∧ size < 256 := by
  have hsid := two_le_length_twoHex sid
  have hsize := two_le_length_twoHex size
  rw [length_sized_starting_addr op hl, ← length_twoHex_eq_two_iff sid,
    ← length_twoHex_eq_two_iff size]
  omega

theorem isHex_twoHex (n : ℕ) : IsHex (twoHex n) := by
  have hzero : IsHex ['0'] := isHex_fixedHex 1 0
  unfold twoHex
  split_ifs
  · exact isHex_append hzero (isHex_hexText n)
  · exact isHex_hexText n

theorem linkValue_lt_iff {op : Char} (hop : (hexValue op).isSome) {lmref : ℕ} (hl : lmref < 256)
    (sid size : ℕ) :
    linkValue (sized_starting_addr op lmref sid size) < 2 ^ 32 ↔ sid < 256 ∧ size < 256 := by
  rw [← length_sized_starting_addr_eq_ten_iff op hl]
  have hlen := length_sized_starting_addr op hl sid size
  have hsid := two_le_length_twoHex sid
  have hsize := two_le_length_twoHex size
  have hhex : IsHex ([op] ++ twoHex lmref ++ twoHex sid ++ twoHex size) :=
    isHex_append (isHex_append (isHex_append (by simpa [IsHex] using hop) (isHex_twoHex _))
      (isHex_twoHex _)) (isHex_twoHex _)
  -- after the prefix comes the digit seven, then all that `snprintf` keeps
  have hdigits : linkValue (sized_starting_addr op lmref sid size) = readHexFrom 7
      (([op] ++ twoHex lmref ++ twoHex sid ++ twoHex size).take 8) := rfl
  have hkeep : (([op] ++ twoHex lmref ++ twoHex sid ++ twoHex size).take 8).length + 3 =
      (sized_starting_addr op lmref sid size).length := by
    have hlmref := (length_twoHex_eq_two_iff lmref).mpr hl
    simp only [hlen, List.length_take, List.length_append, List.length_cons, List.length_nil,
      hlmref]
    omega
  rw [hdigits]
  constructor
  · intro hlt
    have hge := le_readHexFrom 7
      (t := ([op] ++ twoHex lmref ++ twoHex sid ++ twoHex size).take 8)
      (fun c hc => hhex c (List.mem_of_mem_take hc))
    by_contra hne
    have hlong : (([op] ++ twoHex lmref ++ twoHex sid ++ twoHex size).take 8).length = 8 := by
      omega
    rw [hlong] at hge
    norm_num at hge hlt
    omega
  · intro hten
    have hlt := readHexFrom_lt 7 7
      (t := ([op] ++ twoHex lmref ++ twoHex sid ++ twoHex size).take 8) (by omega)
    norm_num at hlt ⊢
    omega

/-- What a block's four descriptor addresses should say when they are decoded: the operation,
the LMRef index and the block id, and the size where the address carries one. -/
structure DecodesBlock (lmref_index blockSID block_size : ℕ) : Prop where
  no_read_alloca : decodeLinked (no_read_alloca_starting_addr lmref_index blockSID block_size) =
    ⟨.BlockNoReadAlloc, lmref_index, blockSID, block_size, 0⟩
  no_write_dealloca :
    decodeLinked (no_write_dealloca_starting_addr lmref_index blockSID block_size) =
      ⟨.BlockNoWriteDealloc, lmref_index, blockSID, block_size, 0⟩
  read_alloca : decodeLinked (read_alloca_starting_addr lmref_index blockSID block_size) =
    ⟨.BlockReadAlloc, lmref_index, blockSID, block_size, 0⟩
  write_dealloca : ∃ size, decodeLinked (write_dealloca_starting_addr lmref_index blockSID) =
    ⟨.BlockWriteDealloc, lmref_index, blockSID, size, 0⟩

/-- Deallocation addresses name the block by the high digit of its section id, so the four
addresses agree on it for section id zero only. -/
theorem decodesBlock_iff {lmref_index blockSID block_size : ℕ} (hl : lmref_index < 256)
    (hs : blockSID < 256) (hz : block_size < 256) :
    DecodesBlock lmref_index blockSID block_size ↔ blockSID = 0 := by
  constructor
  · intro h
    have hid := congrArg Decoded.BlockID h.no_write_dealloca
    rw [decodeLinked_no_write_dealloca hl hs hz] at hid
    change blockSID / 16 = blockSID at hid
    omega
  · rintro rfl
    exact ⟨decodeLinked_no_read_alloca hl hs hz, decodeLinked_no_write_dealloca hl hs hz,
      decodeLinked_read_alloca hl hs hz, 0, decodeLinked_write_dealloca hl hs⟩

theorem decodesBlock_iff_first : DecodesBlock 2 1 12 ↔ (1 : ℕ) = 0 :=
  decodesBlock_iff (by norm_num) (by norm_num) (by norm_num)

/-- The block at section id 1, LMRef entry 2 and size 12: its deallocation names block 0. -/
theorem decodesBlock_fails :
    decodeLinked (no_read_alloca_starting_addr 2 1 12) = ⟨.BlockNoReadAlloc, 2, 1, 12, 0⟩ ∧
      decodeLinked (no_write_dealloca_starting_addr 2 1 12) =
        ⟨.BlockNoWriteDealloc, 2, 0, 12, 0⟩ ∧ ¬ DecodesBlock 2 1 12 := by
  refine ⟨by decide, by decide, fun h => ?_⟩
  have hid := congrArg Decoded.BlockID h.no_write_dealloca
  revert hid
  decide

/-! Accesses to a block. -/

/-- The byte at an offset of the access section, four digits being left for the offset. -/
def accessAddress (lmref_index offset : ℕ) : ℕ := 0x72000000 + lmref_index * 2 ^ 16 + offset

/-- What an access should decode to. -/
structure DecodesAccess (lmref_index offset : ℕ) : Prop where
  OpCode : (DecodeAddress (virtText (accessAddress lmref_index offset))).OpCode = .BlockAccess
  LMRefIndex :
    (DecodeAddress (virtText (accessAddress lmref_index offset))).LMRefIndex = lmref_index
  offset : (DecodeAddress (virtText (accessAddress lmref_index offset))).offset = offset

theorem virtText_accessAddress {lmref o : ℕ} (hl : lmref < 256) (ho : o < 2 ^ 16) :
    virtText (accessAddress lmref o) = fourFields 0x72 lmref (o / 256) (o % 256) := by
  have hvalue : accessAddress lmref o = 0x72000000 + lmref * 2 ^ 16 + o := rfl
  have hcode : accessAddress lmref o / 2 ^ 24 = 0x72 := by omega
  have hentry : accessAddress lmref o / 2 ^ 16 % 256 = lmref := by omega
  have hhigh : accessAddress lmref o / 2 ^ 8 % 256 = o / 256 := by omega
  have hlow : accessAddress lmref o % 256 = o % 256 := by omega
  rw [virtText_eq_fourFields (by omega), hcode, hentry, hhigh, hlow]

/-- Three digits are read from the fifth on, one less than the offset has. -/
theorem DecodeAddress_access {lmref o : ℕ} (hl : lmref < 256) (ho : o < 2 ^ 16) :
    DecodeAddress (virtText (accessAddress lmref o)) = ⟨.BlockAccess, lmref, 0, 0, o / 16⟩ := by
  have hcode : fixedHex 2 0x72 = ['7', '2'] := by decide
  have hchar : (fourFields 0x72 lmref (o / 256) (o % 256))[1]? = some '2' := by
    simp [fourFields, hcode]
  have hthree : substr (fourFields 0x72 lmref (o / 256) (o % 256)) 4 3 =
      fixedHex 2 (o / 256) ++ fixedHex 1 (o % 256 / 16) := by
    simp [substr, fourFields, fixedHex]
  have hdigits : o / 256 * 16 ^ 1 + o % 256 / 16 = o / 16 := by omega
  have hread : readHex (substr (fourFields 0x72 lmref (o / 256) (o % 256)) 4 3) = o / 16 := by
    rw [hthree, fixedHex_append 2 1 _ (by omega), hdigits]
    exact readHex_fixedHex (by omega)
  have hentry : readHex (fixedHex 2 lmref) = lmref := readHex_fixedHex (by simpa using hl)
  rw [virtText_accessAddress hl ho]
  simp only [DecodeAddress, hchar, Option.elim_some, opCodeOf, substr_fourFields_two, hentry,
    hread]

/-- The entry is always read back, the offset at the start of the section only. -/
theorem decodesAccess_iff {lmref_index offset : ℕ} (hl : lmref_index < 256)
    (ho : offset < 2 ^ 16) : DecodesAccess lmref_index offset ↔ offset = 0 := by
  constructor
  · intro h
    have hread := h.offset
    rw [DecodeAddress_access hl ho] at hread
    change offset / 16 = offset at hread
    omega
  · rintro rfl
    have hdecode := DecodeAddress_access hl ho
    exact ⟨by rw [hdecode], by rw [hdecode], by rw [hdecode]⟩

theorem decodesAccess_iff_second_word : DecodesAccess 2 4 ↔ (4 : ℕ) = 0 :=
  decodesAccess_iff (by norm_num) (by norm_num)

/-- The word at offset 16 of entry 2 decodes to offset 1. -/
theorem decodesAccess_fails :
    ¬ ∀ lmref_index offset : ℕ, lmref_index < 256 → offset < 2 ^ 16 →
      DecodesAccess lmref_index offset := by
  intro h
  have hread := (h 2 16 (by norm_num) (by norm_num)).offset
  revert hread
  decide

end MMLMStore.DescriptorFormat
