import MMLMStore.KeptFunctions

/-!
# Names recorded for renaming

`globVar` keeps the first target recorded for a name. After any number of functions its entries
are those of the first recorder of each name, among the global block and the functions kept.
-/
namespace MMLMStore.RecordedNames
open KeyedTable KeptFunctions LMStorePass ModuleIR PassSteps

def localNames (m : Module) (F : Function) : List String := (DefUse m F).variables_.keys

def globalNames (m : Module) : List String := (globalBlock m).variables_.keys

/-- Who records names, and which, in the order of the pass over a list of functions. -/
def recorders (m : Module) (functions : List Function) : List (Owner × List String) :=
  (if GlobalKept m then [(.M, globalNames m)] else []) ++
    (keep m (storageLeft m) functions).map fun F => (.function F.name, localNames m F)

def firstRecorder (recorders : List (Owner × List String)) (name : String) : Option Owner :=
  (recorders.find? fun r => name ∈ r.2).map Prod.fst

/-- The table of new names that a list of recorders makes. -/
def Follows (recorders : List (Owner × List String)) (globVar : Table String String) : Prop :=
  ∀ name, globVar.find? name = (firstRecorder recorders name).map fun o => targetName o name

theorem firstRecorder_append (rs : List (Owner × List String)) (owner : Owner)
    (names : List String) (name : String) :
    firstRecorder (rs ++ [(owner, names)]) name =
      (firstRecorder rs name).or (if name ∈ names then some owner else none) := by
  unfold firstRecorder
  rw [List.find?_append]
  cases rs.find? fun r => name ∈ r.2 with
  | some r => simp
  | none => by_cases h : name ∈ names <;> simp [h]

theorem find?_GlbVarGen {owner : Owner} {entries : List (String × Variable)} {m m' : Module}
    {globVar globVar' : Table String String}
    (h : GlbVarGen owner entries m globVar = some (m', globVar')) (name : String) :
    globVar'.find? name = (globVar.find? name).or
      (if name ∈ entries.map Prod.fst then some (targetName owner name) else none) := by
  induction entries generalizing m globVar with
  | nil =>
    cases h
    simp
  | cons x rest ih =>
    rw [GlbVarGen, Option.bind_eq_bind, Option.bind_eq_some_iff] at h
    obtain ⟨⟨m₁, globVar₁⟩, hfirst, hrest⟩ := h
    rw [ih hrest, (relocateVariable_cases hfirst).1, Table.find?_insert, List.map_cons]
    by_cases hname : name = x.1
    · subst hname
      cases globVar.find? x.1 <;> simp
    · have hmem : name ∈ x.1 :: rest.map Prod.fst ↔ name ∈ rest.map Prod.fst := by simp [hname]
      rw [if_neg hname, if_congr hmem rfl rfl]

theorem Follows.relocate {rs : List (Owner × List String)} {owner : Owner}
    {entries : List (String × Variable)} {m m' : Module} {globVar globVar' : Table String String}
    (hfollows : Follows rs globVar)
    (h : GlbVarGen owner entries m globVar = some (m', globVar')) :
    Follows (rs ++ [(owner, entries.map Prod.fst)]) globVar' := by
  intro name
  rw [find?_GlbVarGen h, hfollows name, firstRecorder_append]
  cases firstRecorder rs name with
  | some o => rfl
  | none => by_cases hname : name ∈ entries.map Prod.fst <;> simp [hname]

/-! States between functions. -/

def leftAfter (m : Module) : ℕ → List Function → ℕ
  | left, [] => left
  | left, F :: rest =>
    leftAfter m (if blockSize m F ≤ left then left - blockSize m F else left) rest

theorem keep_append (m : Module) (left : ℕ) (pre post : List Function) :
    keep m left (pre ++ post) = keep m left pre ++ keep m (leftAfter m left pre) post := by
  induction pre generalizing left with
  | nil => rfl
  | cons F pre ih =>
    simp only [List.cons_append, keep, leftAfter]
    split_ifs <;> simp [ih]

theorem leftAfter_concat (m : Module) (left : ℕ) (pre : List Function) (F : Function) :
    leftAfter m left (pre ++ [F]) =
      if blockSize m F ≤ leftAfter m left pre then leftAfter m left pre - blockSize m F
      else leftAfter m left pre := by
  induction pre generalizing left with
  | nil => rfl
  | cons G pre ih => exact ih _

/-- A function that the pass gives a section id, at its place after other functions. -/
def IsKept (m : Module) (pre : List Function) (F : Function) : Prop :=
  blockSize m F ≤ leftAfter m (storageLeft m) pre

instance (m : Module) (pre : List Function) (F : Function) : Decidable (IsKept m pre F) :=
  inferInstanceAs (Decidable (_ ≤ _))

theorem recorders_of_kept {m : Module} {pre : List Function} {F : Function}
    (h : IsKept m pre F) : recorders m (pre ++ [F]) =
      recorders m pre ++ [(.function F.name, localNames m F)] := by
  have hkeep : keep m (leftAfter m (storageLeft m) pre) [F] = [F] := by
    exact if_pos h
  rw [recorders, recorders, keep_append, hkeep, List.map_append, List.append_assoc]
  rfl

theorem recorders_of_skipped {m : Module} {pre : List Function} {F : Function}
    (h : ¬ IsKept m pre F) : recorders m (pre ++ [F]) = recorders m pre := by
  have hkeep : keep m (leftAfter m (storageLeft m) pre) [F] = [] := by
    exact if_neg h
  rw [recorders, recorders, keep_append, hkeep, List.append_nil]

def MadeFor (functions : List Function) (G : GlobalVariable) : Prop :=
  ((∃ owner, IsRelocated owner G) ∨ ∃ owners, IsMarker owners G) ∧
    ∀ f v, G.id = .relocated (.function f) v → f ∈ functions.map Function.name

structure Reached (m : Module) (pre : List Function) (s : PassState) : Prop where
  lmstorage_size : s.lmstorage_size = leftAfter m (storageLeft m) pre
  GBlock : s.GBlock = { globalBlock m with bypass := !decide (GlobalKept m) }
  follows : Follows (recorders m pre) s.globVar
  extends_ : Extends (MadeFor pre) (withSeraj m) s.M

theorem Reached.getTypeAllocSize {m : Module} {pre : List Function} {s : PassState}
    (h : Reached m pre s) : s.M.getTypeAllocSize = m.getTypeAllocSize := h.extends_.getTypeAllocSize

theorem reached_prepared {m : Module} {s : PassState} (h : Prepared m s) : Reached m [] s := by
  have hnone : Follows [] Table.empty := fun _ => rfl
  have hrel := h.relocation
  split_ifs at hrel with hkept
  · refine ⟨h.lmstorage_size, h.GBlock, ?_, (extends_GlbVarGen hrel).mono fun G hG =>
      ⟨Or.inl ⟨_, hG⟩, fun f v hid => ?_⟩⟩
    · rw [recorders, if_pos hkept]
      exact hnone.relocate hrel
    · obtain ⟨⟨w, hw⟩, -⟩ := hG
      rw [hw] at hid
      cases hid
  · refine ⟨h.lmstorage_size, h.GBlock, ?_, ?_⟩
    · rw [recorders, if_neg hkept, hrel.2]
      exact hnone
    · rw [hrel.1]
      exact Extends.refl _

theorem MadeFor.mono {functions functions' : List Function} {G : GlobalVariable}
    (h : MadeFor functions G) (hsub : functions ⊆ functions') : MadeFor functions' G :=
  ⟨h.1, fun f v hid => List.map_subset _ hsub (h.2 f v hid)⟩

/-- Globals made for one of the functions of a list, each with its owner. -/
def MadeBy (functions : List Function) (G : GlobalVariable) : Prop :=
  ∃ F ∈ functions, IsRelocated (.function F.name) G ∨ IsMarker [.M, .function F.name] G

theorem MadeBy.mono {functions functions' : List Function} {G : GlobalVariable}
    (h : MadeBy functions G) (hsub : functions ⊆ functions') : MadeBy functions' G := by
  obtain ⟨F, hF, hG⟩ := h
  exact ⟨F, hsub hF, hG⟩

theorem MadeBy.madeFor {functions : List Function} {G : GlobalVariable}
    (h : MadeBy functions G) : MadeFor functions G := by
  obtain ⟨F, hF, ⟨⟨w, hw⟩, hsection⟩ | hmarker⟩ := h
  · refine ⟨Or.inl ⟨_, ⟨w, hw⟩, hsection⟩, fun f v hid => ?_⟩
    rw [hw] at hid
    cases hid
    exact List.mem_map.mpr ⟨F, hF, rfl⟩
  · refine ⟨Or.inr ⟨_, hmarker⟩, fun f v hid => ?_⟩
    obtain ⟨owner, -, ⟨hw, -⟩ | ⟨count, hw, -⟩⟩ := hmarker
    · rw [hw] at hid
      cases hid
    · rw [hw] at hid
      cases hid

theorem madeBy_processFunction {s t : PassState} {F F' : Function}
    (h : processFunction s F = some (t, F')) : Extends (MadeBy [F]) s.M t.M := by
  rcases processFunction_cases h with hskip | hkept
  · rw [hskip.M]
    exact Extends.refl _
  · obtain ⟨m₁, hgen, hM, -⟩ := hkept.code
    have hrelocated : Extends (MadeBy [F]) s.M m₁ :=
      (extends_GlbVarGen hgen).mono fun G hG => ⟨F, List.mem_cons_self, Or.inl hG⟩
    have howners : ∀ owner ∈ (contextOf s F t.globVar).owners, owner ∈ [.M, .function F.name] := by
      intro owner howner
      simp only [contextOf, ownersOf, List.mem_append] at howner
      rcases howner with howner | howner
      · split_ifs at howner
        · exact List.mem_cons.mpr (Or.inl (List.mem_singleton.mp howner))
        · cases howner
      · split_ifs at howner
        · exact List.mem_cons_of_mem _ howner
        · cases howner
    have hmarkers : Extends (MadeBy [F]) m₁ t.M := by
      rw [hM]
      refine (extends_genBlocks _ _ ⟨m₁, false, 0⟩).mono fun G hG => ?_
      obtain ⟨owner, howner, hmarker⟩ := hG
      exact ⟨F, List.mem_cons_self, Or.inr ⟨owner, howners owner howner, hmarker⟩⟩
    exact hrelocated.trans hmarkers

theorem madeBy_processFunctions {functions done : List Function} {s t : PassState}
    (h : processFunctions functions s = some (t, done)) : Extends (MadeBy functions) s.M t.M := by
  induction functions generalizing s done with
  | nil =>
    cases h
    exact Extends.refl _
  | cons F rest ih =>
    obtain ⟨s₁, F', done', hfirst, hrest, -⟩ := processFunctions_cons h
    exact ((madeBy_processFunction hfirst).mono fun _ hG => hG.mono (by simp)).trans
      ((ih hrest).mono fun _ hG => hG.mono (List.subset_cons_self _ _))

theorem Reached.fits_iff {m : Module} {pre : List Function} {s : PassState} (h : Reached m pre s)
    (F : Function) : (DefUse s.M F).block_size ≤ s.lmstorage_size ↔ IsKept m pre F := by
  rw [DefUse_congr h.getTypeAllocSize F, h.lmstorage_size]
  rfl

theorem Reached.kept {m : Module} {pre : List Function} {s t : PassState} {F F' : Function}
    (h : Reached m pre s) (hstep : processFunction s F = some (t, F')) (hkept : IsKept m pre F) :
    Kept s F t F' :=
  (processFunction_cases hstep).resolve_left fun hskip =>
    absurd ((h.fits_iff F).mpr hkept) (not_le.mpr hskip.exceeds)

theorem Reached.skipped {m : Module} {pre : List Function} {s t : PassState} {F F' : Function}
    (h : Reached m pre s) (hstep : processFunction s F = some (t, F')) (hkept : ¬ IsKept m pre F) :
    Skipped s F t F' :=
  (processFunction_cases hstep).resolve_right fun hcode =>
    hkept ((h.fits_iff F).mp hcode.fits)

theorem Reached.step {m : Module} {pre : List Function} {s t : PassState} {F F' : Function}
    (h : Reached m pre s) (hstep : processFunction s F = some (t, F')) :
    Reached m (pre ++ [F]) t := by
  have hDefUse := DefUse_congr h.getTypeAllocSize F
  have hextends : Extends (MadeFor (pre ++ [F])) (withSeraj m) t.M :=
    (h.extends_.mono fun _ hG => hG.mono (List.subset_append_left _ _)).trans
      ((madeBy_processFunction hstep).mono fun _ hG =>
        hG.madeFor.mono (List.subset_append_right _ _))
  by_cases hpos : IsKept m pre F
  case neg =>
    have hskip := h.skipped hstep hpos
    refine ⟨?_, hskip.GBlock.trans h.GBlock, ?_, hextends⟩
    · rw [hskip.lmstorage_size, h.lmstorage_size, leftAfter_concat]
      exact (if_neg hpos).symm
    · rw [recorders_of_skipped hpos, hskip.globVar]
      exact h.follows
  case pos =>
    have hkept := h.kept hstep hpos
    obtain ⟨m₁, hgen, -, -⟩ := hkept.code
    refine ⟨?_, hkept.GBlock.trans h.GBlock, ?_, hextends⟩
    · rw [hkept.lmstorage_size, h.lmstorage_size, leftAfter_concat, hDefUse]
      exact (if_pos hpos).symm
    · rw [recorders_of_kept hpos]
      have hnames : (DefUse s.M F).variables_.entries.map Prod.fst = localNames m F := by
        rw [hDefUse]
        rfl
      rw [← hnames]
      exact h.follows.relocate hgen

theorem processFunctions_append {pre post done : List Function} {s t : PassState}
    (h : processFunctions (pre ++ post) s = some (t, done)) : ∃ s₁ pre' post',
      processFunctions pre s = some (s₁, pre') ∧ processFunctions post s₁ = some (t, post') ∧
      done = pre' ++ post' ∧ pre'.length = pre.length := by
  induction pre generalizing s done with
  | nil => exact ⟨s, [], done, rfl, h, rfl, rfl⟩
  | cons F pre ih =>
    obtain ⟨s₁, F', done', hfirst, hrest, rfl⟩ := processFunctions_cons h
    obtain ⟨s₂, pre', post', hpre, hpost, rfl, hlen⟩ := ih hrest
    refine ⟨s₂, F' :: pre', post', ?_, hpost, rfl, by simp [hlen]⟩
    simp [processFunctions, hfirst, hpre]

theorem processFunctions_concat {pre pre' : List Function} {s₀ s t : PassState} {F F' : Function}
    (hpre : processFunctions pre s₀ = some (s, pre')) (hF : processFunction s F = some (t, F')) :
    processFunctions (pre ++ [F]) s₀ = some (t, pre' ++ [F']) := by
  induction pre generalizing s₀ pre' with
  | nil =>
    cases hpre
    simp [processFunctions, hF]
  | cons G pre ih =>
    obtain ⟨s₁, G', done, hG, hrest, rfl⟩ := processFunctions_cons hpre
    simp [processFunctions, hG, ih hrest]

theorem reached_processFunctions {m : Module} {before pre done : List Function} {s t : PassState}
    (h : Reached m before s) (hrun : processFunctions pre s = some (t, done)) :
    Reached m (before ++ pre) t := by
  induction pre generalizing before s done with
  | nil =>
    cases hrun
    simpa using h
  | cons F pre ih =>
    obtain ⟨s₁, F', done', hfirst, hrest, -⟩ := processFunctions_cons hrun
    simpa using ih (h.step hfirst) hrest

def stateBefore (m : Module) (pre : List Function) : Option PassState := do
  let s ← prepare m
  let (s, _) ← processFunctions pre s
  some s

theorem stateBefore_eq_some {m : Module} {pre : List Function} {s : PassState} :
    stateBefore m pre = some s ↔
      ∃ s₀ pre', prepare m = some s₀ ∧ processFunctions pre s₀ = some (s, pre') := by
  simp only [stateBefore, Option.bind_eq_bind, Option.bind_eq_some_iff, Prod.exists,
    Option.some.injEq]
  constructor
  · rintro ⟨s₀, hs₀, t, pre', hpre, rfl⟩
    exact ⟨s₀, pre', hs₀, hpre⟩
  · rintro ⟨s₀, pre', hs₀, hpre⟩
    exact ⟨s₀, hs₀, s, pre', hpre, rfl⟩

theorem reached_stateBefore {m : Module} {pre : List Function} {s : PassState}
    (h : stateBefore m pre = some s) : Reached m pre s := by
  obtain ⟨s₀, pre', hs₀, hpre⟩ := stateBefore_eq_some.mp h
  simpa using reached_processFunctions (reached_prepared (prepared hs₀)) hpre

theorem runOnModule_prepare {m : Module} {out : Output} (h : runOnModule m = some out) :
    ∃ s functions, prepare m = some s ∧
      processFunctions m.functions s = some (out.state, functions) := by
  simp only [runOnModule, Option.bind_eq_bind, Option.bind_eq_some_iff, Prod.exists,
    Option.some.injEq] at h
  obtain ⟨s, hs, t, functions, hrun, rfl⟩ := h
  exact ⟨s, functions, hs, hrun⟩

theorem runOnModule_function {m : Module} {out : Output} (h : runOnModule m = some out)
    {pre post : List Function} {F : Function} (hfunctions : m.functions = pre ++ F :: post) :
    ∃ s t F' post', stateBefore m pre = some s ∧ processFunction s F = some (t, F') ∧
      out.M.functions[pre.length]? = some F' ∧
      processFunctions post t = some (out.state, post') := by
  simp only [runOnModule, Option.bind_eq_bind, Option.bind_eq_some_iff, Prod.exists,
    Option.some.injEq] at h
  obtain ⟨s₀, hs₀, last, functions, hrun, rfl⟩ := h
  rw [hfunctions] at hrun
  obtain ⟨s, pre', rest, hpre, hrest, rfl, hlen⟩ := processFunctions_append hrun
  obtain ⟨t, F', post', hfirst, hpost, rfl⟩ := processFunctions_cons hrest
  refine ⟨s, t, F', post', stateBefore_eq_some.mpr ⟨s₀, pre', hs₀, hpre⟩, hfirst, ?_, hpost⟩
  rw [← hlen]
  simp

theorem processFunctions_length {functions done : List Function} {s t : PassState}
    (h : processFunctions functions s = some (t, done)) : done.length = functions.length := by
  induction functions generalizing s done with
  | nil =>
    cases h
    rfl
  | cons F rest ih =>
    obtain ⟨s₁, F', done', -, hrest, rfl⟩ := processFunctions_cons h
    simp [ih hrest]

/-- Each function after the pass stands where one stood before. -/
theorem exists_function {m : Module} {out : Output} (h : runOnModule m = some out) {i : ℕ}
    {F' : Function} (hF' : out.M.functions[i]? = some F') :
    ∃ pre F post, m.functions = pre ++ F :: post ∧ pre.length = i := by
  obtain ⟨s₀, functions, -, hrun, hM, -⟩ := runOnModule_cases h
  have hlen : out.M.functions.length = m.functions.length := by
    rw [hM]
    exact processFunctions_length hrun
  have hi : i < m.functions.length := hlen ▸ (List.getElem?_eq_some_iff.mp hF').1
  refine ⟨m.functions.take i, m.functions[i], m.functions.drop (i + 1), ?_, ?_⟩
  · rw [List.getElem_cons_drop, List.take_append_drop]
  · rw [List.length_take]
    omega

theorem runOnModule_reached {m : Module} {out : Output} (h : runOnModule m = some out) :
    Reached m m.functions out.state := by
  obtain ⟨s₀, functions, hs₀, hrun, -, -⟩ := runOnModule_cases h
  simpa using reached_processFunctions (reached_prepared hs₀) hrun

/-! Globals made for variables, and their names. -/

theorem GlbVarGen_append {owner : Owner} {before after : List (String × Variable)} {m m' : Module}
    {globVar globVar' : Table String String}
    (h : GlbVarGen owner (before ++ after) m globVar = some (m', globVar')) :
    ∃ x, GlbVarGen owner before m globVar = some x ∧
      GlbVarGen owner after x.1 x.2 = some (m', globVar') := by
  induction before generalizing m globVar with
  | nil => exact ⟨_, rfl, h⟩
  | cons x before ih =>
    rw [List.cons_append, GlbVarGen, Option.bind_eq_bind, Option.bind_eq_some_iff] at h
    obtain ⟨y, hfirst, hrest⟩ := h
    obtain ⟨z, hbefore, hafter⟩ := ih hrest
    refine ⟨z, ?_, hafter⟩
    rw [GlbVarGen, hfirst]
    exact hbefore

theorem mem_globals_GlbVarGen {owner : Owner} {entries : List (String × Variable)} {m m' : Module}
    {globVar globVar' : Table String String}
    (h : GlbVarGen owner entries m globVar = some (m', globVar')) {G : GlobalVariable}
    (hG : G ∈ m'.globals) :
    G ∈ m.globals ∨ ∃ v ∈ entries.map Prod.fst, G.id = .relocated owner v := by
  induction entries generalizing m globVar with
  | nil =>
    cases h
    exact Or.inl hG
  | cons x rest ih =>
    rw [GlbVarGen, Option.bind_eq_bind, Option.bind_eq_some_iff] at h
    obtain ⟨⟨m₁, globVar₁⟩, hfirst, hrest⟩ := h
    rcases ih hrest with hG | ⟨v, hv, hid⟩
    · rcases (relocateVariable_cases hfirst).2 with ⟨-, rfl⟩ | ⟨ty, alignment, data, -, rfl⟩
      · exact Or.inl hG
      · rcases mem_globals_newGlobal.mp hG with hG | rfl
        · exact Or.inl hG
        · exact Or.inr ⟨x.1, by simp, rfl⟩
    · exact Or.inr ⟨v, by simp [hv], hid⟩

theorem source_or_seraj {m : SourceModule} {G : GlobalVariable}
    (hG : G ∈ (withSeraj m.toModule).globals) :
    (∃ position, G.id = .source position) ∨ G.id = .ryan_seraj := by
  rcases mem_globals_newGlobal.mp hG with hG | rfl
  · have hid : G.id ∈ m.globals.map GlobalVariable.id := List.mem_map.mpr ⟨G, hG, rfl⟩
    rw [m.globals_source] at hid
    obtain ⟨position, -, hposition⟩ := List.mem_map.mp hid
    exact Or.inl ⟨position, hposition.symm⟩
  · exact Or.inr rfl

theorem not_relocated_start {m : SourceModule} {G : GlobalVariable}
    (hG : G ∈ (withSeraj m.toModule).globals) (owner : Owner) (v : String) :
    G.id ≠ .relocated owner v := by
  intro hid
  rcases source_or_seraj hG with ⟨position, hposition⟩ | hseraj
  · rw [hposition] at hid
    cases hid
  · rw [hseraj] at hid
    cases hid

theorem globals_eq {m : Module} {out : Output} (h : runOnModule m = some out) :
    out.M.globals = out.state.M.globals := by
  obtain ⟨s₀, functions, -, -, hM, -⟩ := runOnModule_cases h
  rw [hM]

/-- A lookup finds the global made for a variable exactly when one was made and the symbol table
gave it the name looked up. -/
theorem getGlobalVariable_relocated_iff {owner : Owner} {v : String} {var : Variable}
    {before after : List (String × Variable)} {m start m' : Module} {globVar : Table String String}
    {x : Module × Table String String} {globVar' : Table String String}
    {P : GlobalVariable → Prop}
    (hgen : GlbVarGen owner (before ++ (v, var) :: after) m globVar = some (start, globVar'))
    (hx : GlbVarGen owner before m globVar = some x)
    (hnodup : ((before ++ (v, var) :: after).map Prod.fst).Nodup)
    (hm : ∀ G ∈ m.globals, G.id ≠ .relocated owner v) (hext : Extends P start m')
    (hP : ∀ G, P G → G.id ≠ .relocated owner v) (target : String) :
    (∃ G, m'.getGlobalVariable target = some G ∧ G.id = .relocated owner v) ↔
      (createdType var).isSome ∧ x.1.symbolName (targetName owner v) = target := by
  obtain ⟨y, hy, hrest⟩ := GlbVarGen_append hgen
  obtain rfl : x = y := Option.some.inj (hx.symm.trans hy)
  rw [GlbVarGen, Option.bind_eq_bind, Option.bind_eq_some_iff] at hrest
  obtain ⟨⟨m₂, globVar₂⟩, hfirst, hafter⟩ := hrest
  rw [List.map_append, List.map_cons, List.nodup_append, List.nodup_cons] at hnodup
  obtain ⟨-, ⟨hout, -⟩, hdisjoint⟩ := hnodup
  have hbefore : ∀ G ∈ x.1.globals, G.id ≠ .relocated owner v := by
    intro G hG hid
    rcases mem_globals_GlbVarGen hx hG with hG | ⟨w, hw, hid'⟩
    · exact hm G hG hid
    · obtain rfl : v = w := by simpa [hid] using hid'
      exact hdisjoint v hw v (by simp) rfl
  -- only the step for `v` makes a global with this id
  have hmade : ∀ G ∈ m'.globals, G.id = .relocated owner v → G ∈ m₂.globals := by
    intro G hG hid
    rcases hext.added G hG with hG | hG
    · rcases mem_globals_GlbVarGen hafter hG with hG | ⟨w, hw, hid'⟩
      · exact hG
      · obtain rfl : v = w := by simpa [hid] using hid'
        exact absurd hw hout
    · exact absurd hid (hP G hG)
  rcases (relocateVariable_cases hfirst).2 with ⟨hnone, rfl⟩ | ⟨ty, alignment, data, hsome, rfl⟩
  · rw [hnone]
    simp only [Option.isSome_none, Bool.false_eq_true, false_and, iff_false]
    rintro ⟨G, hG, hid⟩
    have hmem := (getNamedGlobal_eq_some (getGlobalVariable_eq_some.mp hG).1).1
    exact hbefore G (hmade G hmem hid) hid
  · rw [hsome]
    simp only [Option.isSome_some, true_and]
    constructor
    · rintro ⟨G, hG, hid⟩
      obtain ⟨hmem, hname⟩ := getNamedGlobal_eq_some (getGlobalVariable_eq_some.mp hG).1
      rcases mem_globals_newGlobal.mp (hmade G hmem hid) with hG | rfl
      · exact absurd hid (hbefore G hG)
      · exact hname
    · rintro rfl
      have hsymbol : x.1.symbolName (targetName owner v) ∈ (x.1.newGlobal (.relocated owner v) ty
          data (sectionName owner.name .MemAccess) alignment (targetName owner v)).symbols :=
        mem_symbols_newGlobal.mpr (Or.inr rfl)
      have hstart := extends_GlbVarGen hafter
      have hfound : m'.getNamedGlobal (x.1.symbolName (targetName owner v)) =
          some ⟨.relocated owner v, x.1.symbolName (targetName owner v), ty, some data, false,
            sectionName owner.name .MemAccess, alignment⟩ := by
        rw [hext.named _ (hstart.symbols _ hsymbol), hstart.named _ hsymbol,
          getNamedGlobal_newGlobal_self]
      exact ⟨_, getGlobalVariable_eq_some.mpr ⟨hfound, rfl⟩, rfl⟩

end MMLMStore.RecordedNames
