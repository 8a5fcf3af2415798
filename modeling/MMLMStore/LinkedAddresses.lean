import MMLMStore.LinkScript
import MMLMStore.SectionContents

/-!
# Addresses of the linked program

The linker puts every section of the script at its start, within the 64 KiB that share an LMRef
index. The third and fourth digit of an address in such a section then name the entry of the
section's owner, whatever stands before it in the section.
-/
namespace MMLMStore.LinkedAddresses
open CodeShape DescriptorFormat HexText KeptFunctions LinkScript LMRefMapping LMStoreDecode
  LMStorePass ModuleIR OperandRewriting PassSteps RecordedNames SectionContents

def ownerIndex (out : Output) : Owner → ℕ
  | .M => 0
  | .function name => lmrefIndex out name

def Owns (m : Module) (X : Owner) : Prop := ∃ name, X ∈ ownersFor m name

/-- The global block, if it is relocated, has a size and so gets its lines. -/
def GlobalSized (m : Module) : Prop := GlobalKept m → 0 < (globalBlock m).block_size

instance (m : Module) : Decidable (GlobalSized m) := inferInstanceAs (Decidable (_ → _))

def operation : SectionKind → ℕ
  | .NoReadAlloca => 0x71
  | .MemAccess => 0x72
  | .NoWriteDealloca => 0x73
  | .ReadAlloca => 0x74
  | .WriteDealloca => 0x75

/-- Addresses of globals, each section of the script being placed at the address given there and
ending before the next LMRef index. -/
structure Linked (out : Output) (address : GlobalId → ℕ) : Prop where
  fits : ∀ line ∈ out.linkld, linkValue line.address < 2 ^ 32
  start : ∀ line ∈ out.linkld, ∀ G ∈ out.M.globals, G.section_ = line.section_ →
    linkValue line.address ≤ address G.id
  finish : ∀ line ∈ out.linkld, ∀ G ∈ out.M.globals, G.section_ = line.section_ →
    address G.id + out.M.getTypeAllocSize G.valueType ≤
      (linkValue line.address / 2 ^ 16 + 1) * 2 ^ 16

/-! Sections of the script. -/

theorem linkValue_div {op : Char} {d lmref sid size : ℕ} (hop : ['7', op] = fixedHex 2 d)
    (hd : d < 256) (hdigit : (hexValue op).isSome) (hl : lmref < 256)
    (hfits : linkValue (sized_starting_addr op lmref sid size) < 2 ^ 32) :
    linkValue (sized_starting_addr op lmref sid size) / 2 ^ 16 = d * 256 + lmref := by
  have htwo := (linkValue_lt_iff hdigit hl sid size).mp hfits
  rw [linkValue_sized hop hd hl htwo.1 htwo.2]
  omega

/-- What a line of the script says of the entry of its section's owner. -/
def Indexed (kind : SectionKind) (index : ℕ) (text : Text) : Prop :=
  linkValue text < 2 ^ 32 → linkValue text / 2 ^ 16 = operation kind * 256 + index

theorem indexed_alloc {lmref : ℕ} (hl : lmref < 256) (sid size : ℕ) :
    Indexed .NoReadAlloca lmref (no_read_alloca_starting_addr lmref sid size) :=
  linkValue_div (d := 0x71) (by decide) (by norm_num) (by decide) hl

theorem indexed_dealloc {lmref : ℕ} (hl : lmref < 256) (sid size : ℕ) :
    Indexed .NoWriteDealloca lmref (no_write_dealloca_starting_addr lmref sid size) :=
  linkValue_div (d := 0x73) (by decide) (by norm_num) (by decide) hl

theorem indexed_access {lmref : ℕ} (hl : lmref < 256) :
    Indexed .MemAccess lmref (access_starting_addr lmref) := by
  intro _
  rw [linkValue_access hl, accessAddress, operation]
  omega

def usedKinds : List SectionKind := [.NoReadAlloca, .MemAccess, .NoWriteDealloca]

theorem descriptor_line {lmref : ℕ} (hl : lmref < 256) (sid : ℕ) (block : LMStoreBlock)
    {kind : SectionKind} (hkind : kind ∈ usedKinds) :
    ∃ text, linkLine block.funcName kind text ∈ descriptorLines (descriptorOf lmref sid block) ∧
      Indexed kind lmref text := by
  simp only [usedKinds, List.mem_cons, List.not_mem_nil, or_false] at hkind
  rcases hkind with rfl | rfl | rfl
  · exact ⟨_, List.mem_cons_of_mem _ List.mem_cons_self, indexed_alloc hl sid _⟩
  · exact ⟨_, List.mem_cons_self, indexed_access hl⟩
  · exact ⟨_, by simp [descriptorLines, descriptorOf], indexed_dealloc hl sid (summedSize block)⟩

theorem global_line (size : ℕ) {kind : SectionKind} (hkind : kind ∈ usedKinds) :
    ∃ text, linkLine "M" kind text ∈ globalLines size ∧ Indexed kind 0 text := by
  have hzero : 0 < 256 := by norm_num
  simp only [usedKinds, List.mem_cons, List.not_mem_nil, or_false] at hkind
  rcases hkind with rfl | rfl | rfl
  · exact ⟨_, List.mem_cons_of_mem _ List.mem_cons_self, indexed_alloc hzero globalSID size⟩
  · exact ⟨_, List.mem_cons_self, indexed_access hzero⟩
  · exact ⟨_, List.mem_cons_of_mem _ (List.mem_cons_of_mem _ List.mem_cons_self),
      indexed_dealloc hzero globalSID size⟩

/-! Digits of an address. -/

section Digits

variable {a l : ℕ} {kind : SectionKind} (hl : l < 256)
  (ha : a / 2 ^ 16 = operation kind * 256 + l)

include hl ha

theorem virtText_of_div : virtText a =
    fourFields (operation kind) l (a / 2 ^ 8 % 256) (a % 256) := by
  have hop : operation kind < 128 := by cases kind <;> decide
  have hfirst : a / 2 ^ 24 = operation kind := by omega
  have hsecond : a / 2 ^ 16 % 256 = l := by omega
  rw [virtText_eq_fourFields (by omega), hfirst, hsecond]

theorem addrPrefix_of_div : addrPrefix (virtText a) = fixedHex 2 (operation kind) := by
  rw [virtText_of_div hl ha]
  simp [addrPrefix, substr, fourFields]

theorem LMRefIndex_of_div (hkind : kind ∈ usedKinds) :
    (DecodeAddress (virtText a)).LMRefIndex = l := by
  have hhigh : a / 2 ^ 8 % 256 < 256 := Nat.mod_lt _ (by norm_num)
  have hlow : a % 256 < 256 := Nat.mod_lt _ (by norm_num)
  simp only [usedKinds, List.mem_cons, List.not_mem_nil, or_false] at hkind
  rcases hkind with rfl | rfl | rfl
  · rw [virtText_of_div hl ha, operation,
      DecodeAddress_alloca '1' (by decide) rfl (.inr rfl) hl hhigh hlow]
  · have hvalue : a = accessAddress l (a % 2 ^ 16) := by
      rw [accessAddress, operation] at *
      omega
    rw [hvalue, DecodeAddress_access hl (Nat.mod_lt _ (by norm_num))]
  · rw [virtText_of_div hl ha, operation,
      DecodeAddress_dealloca '3' (by decide) rfl (.inr rfl) hl hhigh hlow]

end Digits

section Run

variable {m : SourceModule} {out : Output} (h : runOnModule m.toModule = some out)

include h

theorem ownerIndex_lt (X : Owner) : ownerIndex out X < 64 := by
  cases X with
  | M => exact Nat.zero_lt_succ _
  | function name =>
    obtain ⟨BIG, hbuild, hBIG⟩ := exists_graph h
    rw [ownerIndex, lmrefIndex, hBIG]
    exact lmrefOf_lt hbuild name

theorem exists_line (hglobal : GlobalSized m.toModule) {X : Owner} (hX : Owns m.toModule X)
    {kind : SectionKind} (hkind : kind ∈ usedKinds) :
    ∃ text, linkLine X.name kind text ∈ out.linkld ∧ Indexed kind (ownerIndex out X) text := by
  obtain ⟨name, hX⟩ := hX
  unfold ownersFor at hX
  cases hfind : (keptFunctions m.toModule).find? (·.name = name) with
  | none => simp [hfind] at hX
  | some F =>
    simp only [hfind, codeOwners, List.mem_append] at hX
    rw [linkld_eq h]
    rcases hX with hX | hX
    · split_ifs at hX with hmain
      · obtain rfl := List.mem_singleton.mp hX
        obtain ⟨text, htext, hindex⟩ := global_line (globalBlock m.toModule).block_size hkind
        have hwritten : GlobalWritten m.toModule := ⟨hmain.2, hglobal hmain.2⟩
        exact ⟨text, List.mem_append_right _ (by rwa [if_pos hwritten]), hindex⟩
      · cases hX
    · split_ifs at hX with hsize
      · obtain rfl := List.mem_singleton.mp hX
        obtain ⟨i, hi⟩ := List.getElem?_of_mem (List.mem_of_find?_eq_some hfind)
        have hd := (mem_written_iff h).mpr ⟨i, F, hi, Nat.pos_of_ne_zero hsize, rfl⟩
        have hl := lmrefIndex_lt_two_digits h F.name
        obtain ⟨text, htext, hindex⟩ := descriptor_line hl (i + 1)
          ((DefUse m.toModule F).settle F) hkind
        exact ⟨text, List.mem_append_left _ (List.mem_flatMap.mpr ⟨_, hd, htext⟩), hindex⟩
      · cases hX

/-- Bytes of a section's globals have the operation and the entry of the section's owner in their
first four digits. -/
theorem address_div (hglobal : GlobalSized m.toModule) {address : GlobalId → ℕ}
    (hlinked : Linked out address) {X : Owner} (hX : Owns m.toModule X) {kind : SectionKind}
    (hkind : kind ∈ usedKinds) {G : GlobalVariable} (hG : G ∈ out.M.globals)
    (hsection : G.section_ = sectionName X.name kind) {o : ℕ}
    (ho : o < out.M.getTypeAllocSize G.valueType) :
    (address G.id + o) / 2 ^ 16 = operation kind * 256 + ownerIndex out X := by
  obtain ⟨text, hline, hindex⟩ := exists_line h hglobal hX hkind
  have hdiv := hindex (hlinked.fits _ hline)
  have hstart : linkValue text ≤ address G.id := hlinked.start _ hline G hG hsection
  have hfinish : address G.id + out.M.getTypeAllocSize G.valueType ≤
      (linkValue text / 2 ^ 16 + 1) * 2 ^ 16 := hlinked.finish _ hline G hG hsection
  omega

end Run

/-! Words that the inserted loads read. -/

theorem codeOwners_inj {m : Module} {F : Function} {X Y : Owner} (hX : X ∈ codeOwners m F)
    (hY : Y ∈ codeOwners m F) (hname : X.name = Y.name) : X = Y := by
  by_cases hF : X.name = F.name
  · rw [eq_of_mem_codeOwners hX hF, eq_of_mem_codeOwners hY (hname ▸ hF)]
  · have hglobal : ∀ Z ∈ codeOwners m F, Z.name ≠ F.name → Z = .M := by
      intro Z hZ hne
      rw [codeOwners, List.mem_append] at hZ
      rcases hZ with hZ | hZ
      · split_ifs at hZ
        · exact List.mem_singleton.mp hZ
        · cases hZ
      · split_ifs at hZ
        · exact absurd (congrArg Owner.name (List.mem_singleton.mp hZ)) hne
        · cases hZ
    rw [hglobal X hX hF, hglobal Y hY (hname ▸ hF)]

/-- A word that the inserted loads of an owner read, in the owner's section of its kind. -/
def IsWord (M : Module) (X : Owner) (kind : SectionKind) (id : GlobalId) : Prop :=
  ∃ G ∈ M.globals, G.id = id ∧ G.section_ = sectionName X.name kind ∧ G.valueType = .integer 32

theorem isWord_of_words {P : GlobalVariable → Prop} {start t : Module} {M : Module} {X : Owner}
    {kind : SectionKind} {ids : List GlobalId} {id : GlobalId}
    (hwords : Words (sectionName X.name kind) start t ids) (hlater : Extends P t M)
    (hid : id ∈ ids) : IsWord M X kind id := by
  obtain ⟨created, hglobals, rfl, htypes⟩ := hwords
  obtain ⟨G, hG, rfl⟩ := List.mem_map.mp hid
  have hmem : G ∈ sectionGlobals t (sectionName X.name kind) := by simp [hglobals, hG]
  rw [sectionGlobals, List.mem_filter, decide_eq_true_eq] at hmem
  exact ⟨G, hlater.globals.subset hmem.1, rfl, hmem.2, (htypes G hG).1⟩

theorem mem_readIds {kind : InstId → Bool} {code : List Instruction} {id : InstId}
    {name globalName : String} {global : GlobalId} (hkind : kind id = true)
    (hmem : insertedLoad id name global globalName ∈ code) : global ∈ readIds kind code := by
  rw [readIds, List.mem_flatMap]
  exact ⟨_, List.mem_filter.mpr ⟨hmem, hkind⟩, by simp [insertedLoad]⟩

/-- The words that a function's inserted loads read are there. -/
theorem isWord_of_insertedLoad {m : SourceModule} {out : Output}
    (h : runOnModule m.toModule = some out) {F' : Function} (hF' : F' ∈ out.M.functions)
    {X : Owner} (hX : X ∈ ownersFor m.toModule F'.name) {id : InstId} {name globalName : String}
    {global : GlobalId} (hmem : insertedLoad id name global globalName ∈ F'.instructions) :
    (isAI X id = true → IsWord out.M X .NoReadAlloca global) ∧
      (isDI X id = true → IsWord out.M X .NoWriteDealloca global) := by
  obtain ⟨i, hi⟩ := List.getElem?_of_mem hF'
  obtain ⟨pre, F, post, hfunctions, rfl⟩ := exists_function h hi
  have hwf := m.functions_wellFormed F (by simp [hfunctions])
  have hsource : ∀ BB ∈ F.blocks, ∀ I ∈ BB, I.id.isSource := fun BB hBB I hI =>
    hwf.ids_source I (List.mem_flatten.mpr ⟨BB, hBB, hI⟩)
  by_cases hkept : IsKept m.toModule pre F
  · obtain ⟨s, start, ctx, final, -, -, howners, hcode, hposition, hpost⟩ :=
      exists_codeGen h hfunctions hkept
    rw [hi, Option.some.injEq] at hposition
    subst hposition
    rw [ownersFor_of_kept hfunctions hkept, ← howners] at hX
    have howner : ∀ Y ∈ ctx.owners, Y.name = X.name → Y = X := fun Y hY hname =>
      codeOwners_inj (howners ▸ hY) (howners ▸ hX) hname
    have hgenerated := generated_genBlocks howner hsource ⟨start, false, 0⟩
    rw [hcode] at hgenerated
    simp only [IsWord, globals_eq h]
    exact ⟨fun hid => isWord_of_words hgenerated.alloc hpost (mem_readIds hid hmem),
      fun hid => isWord_of_words hgenerated.dealloc hpost (mem_readIds hid hmem)⟩
  · have hposition := function_of_not_kept h hfunctions hkept
    obtain rfl : F' = F := Option.some.inj (hi.symm.trans hposition)
    rw [ownersFor_of_not_kept hfunctions hkept] at hX
    cases hX

end MMLMStore.LinkedAddresses
