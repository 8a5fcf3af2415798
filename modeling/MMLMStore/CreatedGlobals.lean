import MMLMStore.LocalRelocation
import MMLMStore.StorageBudget

/-!
# Globals created for variables

The globals that one call of `GlbVarGen` adds, in the order of the variables' names, and where they
stand among the globals of the finished module. What is created for a variable depends on its type.
-/
namespace MMLMStore.CreatedGlobals
open KeptFunctions KeyedTable LMStorePass LocalRelocation ModuleIR PassSteps RecordedNames
  StorageBudget

/-! Types. -/

/-- Type that a variable has after the pass, if a global is made for it. -/
def rebuiltType : Ty → Option Ty
  | .integer _ => some (.integer 32)
  | .float => some .float
  | .double => some .double
  | .array numElements (.integer _) => some (.array (numElements % 2 ^ 32) (.integer 32))
  | .array numElements .float => some (.array (numElements % 2 ^ 32) .float)
  | .array numElements .double => some (.array (numElements % 2 ^ 32) .double)
  | _ => none

/-- Alignment of the global made for a variable. -/
def rebuiltAlignment (m : Module) : Ty → ℕ
  | .array _ .double => 8
  | .array _ _ => 4
  | ty => m.getTypeAllocSize ty % 2 ^ 32

theorem createdType_variableOf (m : Module) (ty : Ty) :
    createdType (variableOf m ty) = (rebuiltType ty).map fun ty' => (ty', rebuiltAlignment m ty) := by
  cases ty with
  | array numElements elementType => cases elementType <;> rfl
  | _ => rfl

/-! Recorded variables. -/

theorem localType_eq_some {I : Instruction} {ty : Ty} : localType I = some ty ↔
    I.name ≠ "" ∧ I.opcode = .alloca ty ∧ typeCheck ty ≠ .isInvalid := by
  unfold localType
  cases I.opcode with
  | alloca ty' =>
    simp only [Opcode.alloca.injEq]
    constructor
    · intro h
      split_ifs at h with hcond
      cases h
      exact ⟨hcond.1, rfl, hcond.2⟩
    · rintro ⟨hname, rfl, htype⟩
      exact if_pos ⟨hname, htype⟩
  | _ => simp

theorem find?_foldl_recordAlloca (m : Module) (v : String) (var : Variable)
    (l : List Instruction) (block : LMStoreBlock)
    (h : (l.foldl (recordAlloca m) block).variables_.find? v = some var) :
    block.variables_.find? v = some var ∨
      ∃ A ∈ l, A.name = v ∧ ∃ ty, localType A = some ty ∧ var = variableOf m ty := by
  induction l generalizing block with
  | nil => exact Or.inl h
  | cons I l ih =>
    rcases ih _ h with hfirst | ⟨A, hA, hname, hty⟩
    · rw [recordAlloca_of_localType] at hfirst
      split at hfirst
      case h_1 ty hty =>
        split_ifs at hfirst with hnew
        · rw [LMStoreBlock.record, Table.find?_insert] at hfirst
          by_cases hv : v = I.name
          · subst hv
            simp only [hnew, if_true, Option.some.injEq] at hfirst
            exact Or.inr ⟨I, List.mem_cons_self, rfl, ty, hty, hfirst.symm⟩
          · exact Or.inl (by simpa [hv] using hfirst)
        · exact Or.inl hfirst
      case h_2 => exact Or.inl hfirst
    · exact Or.inr ⟨A, List.mem_cons_of_mem I hA, hname, hty⟩

theorem find?_DefUse_iff {m : Module} {F : Function} (hwf : F.WellFormed m) {v : String}
    {var : Variable} : (DefUse m F).variables_.find? v = some var ↔
      ∃ A ∈ F.instructions, A.name = v ∧ ∃ ty, localType A = some ty ∧ var = variableOf m ty := by
  have hforward : ∀ var, (DefUse m F).variables_.find? v = some var →
      ∃ A ∈ F.instructions, A.name = v ∧ ∃ ty, localType A = some ty ∧ var = variableOf m ty := by
    intro var h
    rcases find?_foldl_recordAlloca m v var _ _ h with hempty | hA
    · cases hempty
    · exact hA
  constructor
  · exact hforward var
  · rintro ⟨A, hA, rfl, ty, hty, rfl⟩
    obtain ⟨hname, hop, hvalid⟩ := localType_eq_some.mp hty
    have hmem : A.name ∈ localNames m F :=
      mem_localNames_iff.mpr ⟨hname, A, hA, rfl, ty, hop, hvalid⟩
    obtain ⟨var, hvar⟩ := Table.mem_keys_iff.mp hmem
    obtain ⟨B, hB, hBname, ty', hty', rfl⟩ := hforward var hvar
    obtain rfl : B = A := hwf.eq_of_name hB hA hBname (hBname ▸ hname)
    rw [hty] at hty'
    cases hty'
    exact hvar

theorem globalType_eq_some {m : Module} {GV : GlobalVariable} {ty : Ty} :
    globalType m GV = some ty ↔
      GV.name ≠ "" ∧ GV.valueType = ty ∧ excluded m GV.valueType = false := by
  unfold globalType
  constructor
  · intro h
    split_ifs at h with hcond
    cases h
    exact ⟨hcond.1, rfl, hcond.2⟩
  · rintro ⟨hname, rfl, hexcluded⟩
    exact if_pos ⟨hname, hexcluded⟩

theorem eq_of_global_name {m : SourceModule} {GV GV' : GlobalVariable}
    (hGV : GV ∈ (withSeraj m.toModule).globals) (hGV' : GV' ∈ (withSeraj m.toModule).globals)
    (hname : GV.name = GV'.name) (hne : GV.name ≠ "") : GV = GV' := by
  have hfresh : ∀ G ∈ m.globals, G.name ≠ m.symbolName "ryan_seraj" := by
    intro G hG heq
    exact symbolName_not_mem m.toModule "ryan_seraj" (heq ▸ name_mem_symbols hG)
  rcases mem_globals_newGlobal.mp hGV with hG | rfl
  · rcases mem_globals_newGlobal.mp hGV' with hG' | rfl
    · exact m.eq_of_global_name hG hG' hname hne
    · exact absurd hname (hfresh GV hG)
  · rcases mem_globals_newGlobal.mp hGV' with hG' | rfl
    · exact absurd hname.symm (hfresh GV' hG')
    · rfl

theorem find?_globalBlock_iff {m : SourceModule} {v : String} {var : Variable} :
    (globalBlock m.toModule).variables_.find? v = some var ↔
      ∃ GV ∈ (withSeraj m.toModule).globals, GV.name = v ∧
        ∃ ty, globalType m.toModule GV = some ty ∧ var = variableOf m.toModule ty := by
  have hgeneral : ∀ (l : List GlobalVariable) (block : LMStoreBlock) (v : String) (var : Variable),
      l ⊆ (withSeraj m.toModule).globals →
      ((l.foldl (recordGlobal (withSeraj m.toModule)) block).variables_.find? v = some var ↔
        block.variables_.find? v = some var ∨ (block.variables_.find? v = none ∧
          ∃ GV ∈ l, GV.name = v ∧
            ∃ ty, globalType m.toModule GV = some ty ∧ var = variableOf m.toModule ty)) := by
    intro l
    induction l with
    | nil => simp
    | cons GV l ih =>
      intro block v var hsub
      have hexcluded : excluded (withSeraj m.toModule) GV.valueType =
          excluded m.toModule GV.valueType := rfl
      rw [List.foldl_cons, ih _ v var (List.subset_of_cons_subset hsub), recordGlobal, hexcluded]
      by_cases htaken : GV.name ≠ "" ∧ excluded m.toModule GV.valueType = false
      · have hty : globalType m.toModule GV = some GV.valueType := if_pos htaken
        have hvariable : variableOf (withSeraj m.toModule) GV.valueType =
            variableOf m.toModule GV.valueType := rfl
        rw [if_pos htaken, LMStoreBlock.record, Table.find?_insert, hvariable]
        simp only [List.exists_mem_cons_iff, hty, Option.some.injEq, exists_eq_left']
        by_cases hv : v = GV.name
        · subst hv
          cases hold : block.variables_.find? GV.name with
          | some old => simp
          | none =>
            simp only [if_true, Option.some.injEq, reduceCtorEq, false_or, false_and, or_false,
              true_and]
            constructor
            · rintro rfl
              exact Or.inl rfl
            · rintro (heq | ⟨GV', hGV', hname, ty, hty', heq⟩)
              · exact heq.symm
              · obtain rfl := eq_of_global_name (hsub (List.mem_cons_of_mem _ hGV')) (hsub
                  List.mem_cons_self) hname (hname ▸ htaken.1)
                rw [hty] at hty'
                cases hty'
                exact heq.symm
        · have hne : ¬ GV.name = v := fun heq => hv heq.symm
          simp [hv, hne]
      · have hty : globalType m.toModule GV = none := if_neg htaken
        rw [if_neg htaken]
        simp [hty]
  have h := hgeneral (withSeraj m.toModule).globals ⟨"", 0, false, Table.empty⟩ v var
    (List.Subset.refl _)
  simpa [globalBlock, collectGlobals] using h

/-! Globals of one call. -/

/-- The global of a variable, but for its symbol. The initial value is read in a module between
the two given. -/
structure Made (m : Module) (owner : Owner) (v : String) (var : Variable) (G : GlobalVariable) :
    Prop where
  id : G.id = .relocated owner v
  shape : createdType var = some (G.valueType, G.alignment)
  section_ : G.section_ = sectionName owner.name .MemAccess
  initializer : ∃ m', Extends (IsRelocated owner) m m' ∧
    ∃ data, initialValue m' owner v G.valueType = some data ∧ G.initializer = some data

theorem Made.mono {m₀ m : Module} {owner : Owner} {v : String} {var : Variable}
    {G : GlobalVariable} (hm : Extends (IsRelocated owner) m₀ m) (h : Made m owner v var G) :
    Made m₀ owner v var G := by
  obtain ⟨m', hm', hdata⟩ := h.initializer
  exact ⟨h.id, h.shape, h.section_, m', hm.trans hm', hdata⟩

def creating (entries : List (String × Variable)) : List (String × Variable) :=
  entries.filter fun x => (createdType x.2).isSome

theorem globals_GlbVarGen {owner : Owner} {entries : List (String × Variable)} {m m' : Module}
    {globVar globVar' : Table String String}
    (h : GlbVarGen owner entries m globVar = some (m', globVar')) :
    ∃ created, m'.globals = m.globals ++ created ∧
      List.Forall₂ (fun x => Made m owner x.1 x.2) (creating entries) created := by
  induction entries generalizing m globVar with
  | nil =>
    cases h
    exact ⟨[], (List.append_nil _).symm, .nil⟩
  | cons x rest ih =>
    obtain ⟨v, var⟩ := x
    rw [GlbVarGen, Option.bind_eq_bind, Option.bind_eq_some_iff] at h
    obtain ⟨⟨m₁, globVar₁⟩, hfirst, hrest⟩ := h
    obtain ⟨created, hglobals, hmade⟩ := ih hrest
    have hextends := extends_relocateVariable hfirst
    have hmade₀ := hmade.imp fun _ _ h => h.mono hextends
    rw [hglobals]
    unfold relocateVariable at hfirst
    cases hty : createdType var with
    | none =>
      simp only [hty, Option.some.injEq, Prod.mk.injEq] at hfirst
      refine ⟨created, by rw [hfirst.1], ?_⟩
      rwa [creating, List.filter_cons_of_neg (by simp [hty])]
    | some shape =>
      obtain ⟨ty, alignment⟩ := shape
      simp only [hty, Option.bind_eq_bind, Option.bind_eq_some_iff, Option.some.injEq,
        Prod.mk.injEq] at hfirst
      obtain ⟨data, hdata, rfl, -⟩ := hfirst
      refine ⟨⟨.relocated owner v, m.symbolName (targetName owner v), ty, some data, false,
        sectionName owner.name .MemAccess, alignment⟩ :: created, ?_, ?_⟩
      · rw [Module.newGlobal, List.append_assoc, List.singleton_append]
      · rw [creating, List.filter_cons_of_pos (by simp [hty])]
        exact .cons ⟨rfl, hty, rfl, m, Extends.refl m, data, hdata, rfl⟩ hmade₀

theorem exists_of_forall₂ {α β : Type*} {R : α → β → Prop} {l : List α} {l' : List β}
    (h : List.Forall₂ R l l') {a : α} (ha : a ∈ l) : ∃ b ∈ l', R a b := by
  induction h with
  | nil => cases ha
  | @cons a₁ b l l' hab _ ih =>
    rcases List.mem_cons.mp ha with rfl | ha
    · exact ⟨b, List.mem_cons_self, hab⟩
    · obtain ⟨b', hb', hR⟩ := ih ha
      exact ⟨b', List.mem_cons_of_mem b hb', hR⟩

/-! Globals of a run. -/

/-- One call of `GlbVarGen` in a run, for the owner of its variables. -/
structure Relocation (out : Output) (owner : Owner) (entries : List (String × Variable))
    (m : Module) (globVar : Table String String) (start : Module)
    (globVar' : Table String String) : Prop where
  generated : GlbVarGen owner entries m globVar = some (start, globVar')
  keys_nodup : (entries.map Prod.fst).Nodup
  before : ∀ G ∈ m.globals, ∀ v, G.id ≠ .relocated owner v
  after : Extends (fun G => ∀ v, G.id ≠ .relocated owner v) start out.state.M

section Run

variable {m : SourceModule} {out : Output} (h : runOnModule m.toModule = some out)

include h

theorem exists_relocation_M (hkept : GlobalKept m.toModule) : ∃ s,
    stateBefore m.toModule [] = some s ∧
      Relocation out .M (globalBlock m.toModule).variables_.entries (withSeraj m.toModule)
        Table.empty s.M s.globVar := by
  obtain ⟨s, functions, hs, hrun⟩ := runOnModule_prepare h
  have hgen := (prepared hs).relocation
  rw [if_pos hkept] at hgen
  refine ⟨s, stateBefore_eq_some.mpr ⟨s, [], hs, rfl⟩, hgen, Table.keys_nodup,
    fun G hG v => not_relocated_start hG .M v,
    (extends_processFunctions hrun).mono fun G hG v hid => ?_⟩
  rcases hG with ⟨f, ⟨w, hw⟩, -⟩ | ⟨owners, hmarker⟩
  · rw [hw] at hid
    cases hid
  · exact not_relocated_marker hmarker _ v hid

theorem exists_relocation_function {pre post : List Function} {F : Function}
    (hfunctions : m.functions = pre ++ F :: post) (hkept : IsKept m.toModule pre F) :
    ∃ s start globVar' t owners, stateBefore m.toModule pre = some s ∧
      Relocation out (.function F.name) (DefUse m.toModule F).variables_.entries s.M s.globVar
        start globVar' ∧
      stateBefore m.toModule (pre ++ [F]) = some t ∧ Extends (IsMarker owners) start t.M := by
  obtain ⟨s₀, functions, hs₀, hrun⟩ := runOnModule_prepare h
  rw [hfunctions] at hrun
  obtain ⟨s, pre', rest, hpre, hrest, -, -⟩ := processFunctions_append hrun
  obtain ⟨t, F', post', hF, hpost, -⟩ := processFunctions_cons hrest
  have hbefore := stateBefore_eq_some.mpr ⟨s₀, pre', hs₀, hpre⟩
  have hs := reached_stateBefore hbefore
  obtain ⟨start, hgen, hM, -⟩ := (hs.kept hF hkept).code
  rw [DefUse_congr hs.getTypeAllocSize F] at hgen
  have hmarkers : Extends (IsMarker (contextOf s F t.globVar).owners) start t.M := by
    rw [hM]
    exact extends_genBlocks _ _ ⟨start, false, 0⟩
  have hafter : stateBefore m.toModule (pre ++ [F]) = some t :=
    stateBefore_eq_some.mpr ⟨s₀, _, hs₀, processFunctions_concat hpre hF⟩
  refine ⟨s, start, t.globVar, t, _, hbefore, ⟨hgen, Table.keys_nodup,
    fun G hG v => not_relocated_before hfunctions hs v hG,
    (hmarkers.mono fun G hG v => not_relocated_marker hG _ v).trans
      ((madeBy_processFunctions hpost).mono fun G hG v hid => ?_)⟩, hafter, hmarkers⟩
  exact (m.function_names hfunctions).2 (hG.madeFor.2 F.name v hid)

end Run

namespace Relocation

variable {out : Output} {owner : Owner} {entries : List (String × Variable)} {m start : Module}
  {globVar globVar' : Table String String}
  (h : Relocation out owner entries m globVar start globVar')

include h

theorem globals_eq : ∃ created after, out.state.M.globals = m.globals ++ created ++ after ∧
    List.Forall₂ (fun x => Made m owner x.1 x.2) (creating entries) created ∧
    ∀ G ∈ after, ∀ v, G.id ≠ .relocated owner v := by
  obtain ⟨created, hglobals, hmade⟩ := globals_GlbVarGen h.generated
  obtain ⟨after, hafter, hothers⟩ := h.after.appended
  exact ⟨created, after, by rw [hafter, hglobals], hmade, hothers⟩

theorem exists_made {v : String} {var : Variable} (hvar : (v, var) ∈ entries)
    (hsome : (createdType var).isSome) : ∃ G ∈ out.state.M.globals, Made m owner v var G := by
  obtain ⟨created, after, hglobals, hmade, -⟩ := h.globals_eq
  obtain ⟨G, hG, hGmade⟩ := exists_of_forall₂ hmade (List.mem_filter.mpr ⟨hvar, hsome⟩)
  refine ⟨G, ?_, hGmade⟩
  rw [hglobals]
  simp [hG]

theorem made_of_id {v : String} {G : GlobalVariable} (hG : G ∈ out.state.M.globals)
    (hid : G.id = .relocated owner v) : ∃ var, (v, var) ∈ entries ∧ Made m owner v var G := by
  obtain ⟨created, after, hglobals, hmade, hafter⟩ := h.globals_eq
  rw [hglobals, List.mem_append, List.mem_append] at hG
  rcases hG with (hG | hG) | hG
  · exact absurd hid (h.before G hG v)
  · obtain ⟨⟨w, var⟩, hx, hGmade⟩ := exists_of_forall₂ hmade.flip hG
    have hw : Made m owner w var G := hGmade
    have hsame := hw.id.symm.trans hid
    simp only [GlobalId.relocated.injEq, true_and] at hsame
    subst hsame
    exact ⟨var, (List.mem_filter.mp hx).1, hw⟩
  · exact absurd hid (hafter G hG v)

theorem lookup_iff {v : String} {var : Variable} {before after : List (String × Variable)}
    (hentries : entries = before ++ (v, var) :: after) {x : Module × Table String String}
    (hx : GlbVarGen owner before m globVar = some x) {m' : Module}
    (hm' : Extends (fun G => ∀ v, G.id ≠ .relocated owner v) start m') :
    (∃ G, m'.getGlobalVariable (targetName owner v) = some G ∧ G.id = .relocated owner v) ↔
      (createdType var).isSome ∧ targetName owner v ∉ x.1.symbols := by
  have hgen := h.generated
  have hnodup := h.keys_nodup
  rw [hentries] at hgen hnodup
  rw [getGlobalVariable_relocated_iff hgen hx hnodup (fun G hG => h.before G hG v) hm'
    (fun G hG => hG v), symbolName_eq_self_iff]

end Relocation

end MMLMStore.CreatedGlobals
