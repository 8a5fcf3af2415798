import MMLMStore.MarkerAddresses

/-!
# Extent of a block's variables

The globals made for the variables of a function are placed in its access section in the order of
the variables' names. They stay within the block's size exactly when their sizes and the gaps that
alignment leaves add up to no more.
-/
namespace MMLMStore.AccessExtents
open AlignedPlacement CodeShape CreatedGlobals DescriptorFormat KeptFunctions LinkScript
  LMRefMapping LMStorePass MarkerAddresses ModuleIR PassSteps RecordedNames SectionContents

def LiesInBlock (out : Output) (d : BlockDescriptor) : Prop :=
  ∀ G v address, G.id = .relocated (.function d.funcName) v →
    (globalLayout out.M).IsPlaced (linkValue d.access_starting_addr)
      (sectionGlobals out.M (sectionName d.funcName .MemAccess)) G address →
    ∀ b, address ≤ b → b < address + out.M.getTypeAllocSize G.valueType →
      linkValue d.access_starting_addr ≤ b ∧ b < linkValue d.access_starting_addr + d.block_size

def createdLayout (m : Module) : Layout (String × Variable) where
  size x := (createdType x.2).elim 0 fun shape => m.getTypeAllocSize shape.1
  alignment x := (createdType x.2).elim 1 Prod.snd

/-- Variables of a function with globals, up to the last whose global takes any space. -/
def placedVariables (m : Module) (F : Function) : List (String × Variable) :=
  (createdLayout m).occupying (creating (DefUse m F).variables_.entries)

/-- Bytes that the globals made earlier for other owners take in a section, gaps included. -/
def occupiedBytes (m : Module) (s : String) (start : ℕ) : ℕ :=
  (globalLayout m).gaps start (sectionGlobals m s) +
    ((sectionGlobals m s).map (globalLayout m).size).sum

/-- The rebuilt variables, with what stands before them and the gaps between them, are no larger
than the sizes recorded for the variables. -/
def ExtentFits (m : Module) (s : PassState) (F : Function) (start : ℕ) : Prop :=
  placedVariables m F ≠ [] →
    occupiedBytes s.M (sectionName F.name .MemAccess) start +
      ((createdLayout m).gaps (start + occupiedBytes s.M (sectionName F.name .MemAccess) start)
          (placedVariables m F) +
        ((placedVariables m F).map (createdLayout m).size).sum) ≤ blockSize m F

theorem createdLayout_congr {m m' : Module} (h : m'.getTypeAllocSize = m.getTypeAllocSize) :
    createdLayout m' = createdLayout m := by
  rw [createdLayout, createdLayout, h]

theorem layout_of_made {m : Module} {owner : Owner} {entries : List (String × Variable)}
    {created : List GlobalVariable}
    (h : List.Forall₂ (fun x => Made m owner x.1 x.2) entries created) :
    List.Forall₂ (fun x G => (createdLayout m).size x = (globalLayout m).size G ∧
      (createdLayout m).alignment x = (globalLayout m).alignment G) entries created :=
  h.imp fun x G hG => by
    have hshape := hG.shape
    simp [createdLayout, globalLayout, hshape]

/-- Access section of a function after a run: what stood there, the globals made for the variables,
and later globals. -/
theorem accessSection_eq {m : SourceModule} {out : Output} (h : runOnModule m.toModule = some out)
    {pre post : List Function} {F : Function} (hfunctions : m.functions = pre ++ F :: post)
    (hkept : IsKept m.toModule pre F) {s : PassState}
    (hs : stateBefore m.toModule pre = some s) : ∃ created later,
      sectionGlobals out.M (sectionName F.name .MemAccess) =
        sectionGlobals s.M (sectionName F.name .MemAccess) ++ created ++ later ∧
      List.Forall₂ (fun x => Made s.M (.function F.name) x.1 x.2)
        (creating (DefUse m.toModule F).variables_.entries) created ∧
      ∀ G ∈ sectionGlobals s.M (sectionName F.name .MemAccess) ++ later, ∀ v,
        G.id ≠ .relocated (.function F.name) v := by
  obtain ⟨s', start, globVar, t, owners, hs', hrel, -, -⟩ :=
    exists_relocation_function h hfunctions hkept
  obtain rfl : s = s' := Option.some.inj (hs.symm.trans hs')
  obtain ⟨created, after, hglobals, hmade, hafter⟩ := hrel.globals_eq
  have hcreated : created.filter (·.section_ = sectionName F.name .MemAccess) = created := by
    rw [List.filter_eq_self]
    intro G hG
    obtain ⟨x, -, hx⟩ := exists_of_forall₂ hmade.flip hG
    exact decide_eq_true (Made.section_ hx)
  refine ⟨created, after.filter (·.section_ = sectionName F.name .MemAccess), ?_, hmade, ?_⟩
  · rw [sectionGlobals, globals_eq h, hglobals, List.filter_append, List.filter_append, hcreated,
      sectionGlobals]
  · rw [List.forall_mem_append]
    exact ⟨fun G hG => hrel.before G (List.mem_filter.mp hG).1,
      fun G hG => hafter G (List.mem_filter.mp hG).1⟩

theorem below_created_iff (M : Module) {owner : Owner}
    {occupied created later : List GlobalVariable}
    (hcreated : ∀ G ∈ created, ∃ v, G.id = .relocated owner v)
    (hothers : ∀ G ∈ occupied ++ later, ∀ v, G.id ≠ .relocated owner v) (start bound : ℕ) :
    (∀ G v address, G.id = .relocated owner v →
      (globalLayout M).IsPlaced start (occupied ++ created ++ later) G address →
      ∀ b, address ≤ b → b < address + M.getTypeAllocSize G.valueType → start ≤ b ∧ b < bound) ↔
    (globalLayout M).Below ((globalLayout M).finish start occupied) created bound := by
  have hmiddle : ∀ G v address, G.id = .relocated owner v →
      ((globalLayout M).IsPlaced start (occupied ++ created ++ later) G address ↔
        (globalLayout M).IsPlaced ((globalLayout M).finish start occupied) created G address) := by
    intro G v address hid
    exact Layout.isPlaced_middle_iff _
      (fun hmem => hothers G (List.mem_append_left _ hmem) v hid)
      (fun hmem => hothers G (List.mem_append_right _ hmem) v hid) address
  constructor
  · intro h G address hG b hle hlt
    obtain ⟨v, hid⟩ := hcreated G hG.mem
    exact (h G v address hid ((hmiddle G v address hid).mpr hG) b hle hlt).2
  · intro h G v address hid hG b hle hlt
    have hplaced := (hmiddle G v address hid).mp hG
    refine ⟨?_, h G address hplaced b hle hlt⟩
    obtain ⟨before, after, -, rfl⟩ := hplaced
    exact ((Layout.le_finish _ _ _).trans (Layout.le_finish _ _ _)).trans
      ((le_alignUp _ _).trans hle)

/-- The variables lie in the block exactly when the rebuilt ones, placed after what stood in the
section, are no larger than the sum of the recorded sizes. -/
theorem liesInBlock_iff {m : SourceModule} {out : Output} (h : runOnModule m.toModule = some out)
    {pre post : List Function} {F : Function} (hfunctions : m.functions = pre ++ F :: post)
    {s : PassState} (hs : stateBefore m.toModule pre = some s) {d : BlockDescriptor}
    (hd : d ∈ written out) (hname : d.funcName = F.name) :
    LiesInBlock out d ↔
      ExtentFits m.toModule s F (linkValue (access_starting_addr (lmrefOf s.BIG F.name))) := by
  obtain ⟨hkept, hpos, rfl⟩ := eq_descriptorAt hfunctions h hd hname
  obtain ⟨created, later, hsection, hmade, hothers⟩ := accessSection_eq h hfunctions hkept hs
  have hcreated : ∀ G ∈ created, ∃ v, G.id = .relocated (.function F.name) v := by
    intro G hG
    obtain ⟨x, -, hx⟩ := exists_of_forall₂ hmade.flip hG
    exact ⟨x.1, Made.id hx⟩
  have hs_layout := (reached_stateBefore hs).getTypeAllocSize
  have hlayout := (runOnModule_layout h).trans hs_layout.symm
  have hsummed : summedSize ((DefUse m.toModule F).settle F) = blockSize m.toModule F :=
    summedSize_DefUse m.toModule F
  have hlies := below_created_iff out.M hcreated hothers
    (linkValue (access_starting_addr (lmrefOf out.state.BIG F.name)))
    (linkValue (access_starting_addr (lmrefOf out.state.BIG F.name)) +
      summedSize ((DefUse m.toModule F).settle F))
  have hextent : (globalLayout out.M).Below ((globalLayout out.M).finish
      (linkValue (access_starting_addr (lmrefOf out.state.BIG F.name)))
      (sectionGlobals s.M (sectionName F.name .MemAccess))) created
      (linkValue (access_starting_addr (lmrefOf out.state.BIG F.name)) +
        summedSize ((DefUse m.toModule F).settle F)) ↔
      ExtentFits m.toModule s F (linkValue (access_starting_addr (lmrefOf s.BIG F.name))) := by
    rw [BIG_eq h hfunctions hs, globalLayout_congr hlayout,
      ← Layout.below_congr _ (layout_of_made hmade), createdLayout_congr hs_layout,
      Layout.below_iff, Layout.finish_eq, Layout.finish_eq, Nat.add_assoc,
      Nat.add_le_add_iff_left, hsummed]
    rfl
  rw [← hextent, ← hlies, ← hsection]
  rfl

/-- `main` with a double and, after it in the order of names, a float. -/
def orderedLocals : Function := ⟨"main", [], [[⟨.source 0, "a", .alloca .double, []⟩,
  ⟨.source 1, "b", .alloca .float, []⟩, ⟨.source 2, "", .ret, []⟩]]⟩

def orderedModule : SourceModule where
  globals := []
  functions := [orderedLocals]
  aliases := []
  getTypeAllocSize := packedSize
  LastUnique := 0
  symbols_nodup := by decide
  globals_source := globals_source_nil
  functions_wellFormed := by decide

def orderedOutput : Output := (runOnModule orderedModule.toModule).get (by decide +kernel)

theorem orderedModule_run : runOnModule orderedModule.toModule = some orderedOutput :=
  (Option.some_get _).symm

theorem orderedModule_prepares : (stateBefore orderedModule.toModule []).isSome := by
  decide +kernel

def orderedBlock : BlockDescriptor :=
  descriptorOf 0 1 ((DefUse orderedModule.toModule orderedLocals).settle orderedLocals)

theorem orderedLocals_fit : ExtentFits orderedModule.toModule
    ((stateBefore orderedModule.toModule []).get orderedModule_prepares) orderedLocals
    (linkValue (access_starting_addr (lmrefOf
      ((stateBefore orderedModule.toModule []).get orderedModule_prepares).BIG "main"))) := by
  intro _
  decide +kernel

theorem liesInBlock_ordered : LiesInBlock orderedOutput orderedBlock := by
  have hfunctions : orderedModule.functions = [] ++ orderedLocals :: [] := rfl
  have hwritten : orderedBlock ∈ written orderedOutput := by decide +kernel
  exact (liesInBlock_iff orderedModule_run hfunctions
    (Option.some_get orderedModule_prepares).symm hwritten rfl).mpr orderedLocals_fit

/-- `main` with a float and, after it in the order of names, a double. -/
def mixedLocals : Function := ⟨"main", [], [[⟨.source 0, "a", .alloca .float, []⟩,
  ⟨.source 1, "b", .alloca .double, []⟩, ⟨.source 2, "", .ret, []⟩]]⟩

def mixedModule : SourceModule where
  globals := []
  functions := [mixedLocals]
  aliases := []
  getTypeAllocSize := packedSize
  LastUnique := 0
  symbols_nodup := by decide
  globals_source := globals_source_nil
  functions_wellFormed := by decide

def mixedOutput : Output := (runOnModule mixedModule.toModule).get (by decide +kernel)

theorem mixedModule_run : runOnModule mixedModule.toModule = some mixedOutput :=
  (Option.some_get _).symm

def mixedBlock : BlockDescriptor :=
  descriptorOf 0 1 ((DefUse mixedModule.toModule mixedLocals).settle mixedLocals)

theorem mixedBlock_written : mixedBlock ∈ written mixedOutput := by decide +kernel

/-- The double starts eight bytes after the start and ends after sixteen; the block has twelve. -/
theorem liesInBlock_fails :
    ¬ ∀ (m : SourceModule) (out : Output), runOnModule m.toModule = some out →
      ∀ d ∈ written out, LiesInBlock out d := by
  intro h
  have hlies := h mixedModule mixedOutput mixedModule_run mixedBlock mixedBlock_written
  have hsection : sectionGlobals mixedOutput.M (sectionName "main" .MemAccess) =
      [⟨.relocated (.function "main") "a", "main.a", .float, some (.constantFP 0), false,
        ".mainMemAccessSection", 4⟩] ++
      [⟨.relocated (.function "main") "b", "main.b", .double, some (.constantFP 0), false,
        ".mainMemAccessSection", 8⟩] := by decide +kernel
  have hlast := (hlies _ "b" 0x72000008 rfl ⟨_, _, hsection, by decide +kernel⟩ 0x7200000c
    (by decide) (by decide +kernel)).2
  revert hlast
  decide +kernel

end MMLMStore.AccessExtents
