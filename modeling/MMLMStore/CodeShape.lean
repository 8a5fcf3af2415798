import MMLMStore.OperandRewriting

/-!
# Where the inserted loads stand

In the transformed module every function reads like this: its entry block starts with one
allocation load for each of its owners, every return follows one deallocation load for each of
them, and everything else is code of the source.
-/
namespace MMLMStore.CodeShape
open KeyedTable KeptFunctions LMStorePass ModuleIR OperandRewriting PassSteps RecordedNames

/-- Blocks that a kept function allocates and gives back: its own if it has variables, and in
`main` the global block. -/
def codeOwners (m : Module) (F : Function) : List Owner :=
  (if F.name = "main" ∧ GlobalKept m then [.M] else []) ++
    (if blockSize m F ≠ 0 then [.function F.name] else [])

/-- Blocks that the function of a name allocates and gives back. -/
def ownersFor (m : Module) (name : String) : List Owner :=
  match (keptFunctions m).find? (·.name = name) with
  | some F => codeOwners m F
  | none => []

inductive Body (owners : List Owner) : List Instruction → Prop
  | nil : Body owners []
  | cons {I : Instruction} {rest : List Instruction} (hid : I.id.isSource) (hret : I.opcode ≠ .ret)
      (hentry : 0 ∉ I.opcode.targets) (hrest : Body owners rest) : Body owners (I :: rest)
  | ret {I : Instruction} {loads rest : List Instruction} (count : ℕ) (hret : I.opcode = .ret)
      (hloads : Inserted (.DI · count) (.deallocaIns · count) owners loads)
      (hrest : Body owners rest) : Body owners (loads ++ I :: rest)

inductive Shaped (owners : List Owner) : List BasicBlock → Prop
  | declaration : Shaped owners []
  | definition {body loads : List Instruction} {rest : List BasicBlock}
      (hloads : Inserted .AI .allocaIns owners loads) (hbody : Body owners body)
      (hrest : ∀ BB ∈ rest, Body owners BB) : Shaped owners ((loads ++ body) :: rest)

theorem Rewritten.opcode_eq {ctx : CodeContext} {m final : Module} {I I' : Instruction}
    (h : Rewritten ctx m final I I') : I'.opcode = I.opcode := by
  obtain ⟨m', -, -, rfl⟩ := h
  split_ifs <;> rfl

theorem body_of_laid {ctx : CodeContext} {m final : Module} {BB BB' : List Instruction}
    (hsource : ∀ I ∈ BB, I.id.isSource) (hentry : ∀ I ∈ BB, 0 ∉ I.opcode.targets)
    (h : Laid ctx m final BB BB') : Body ctx.owners BB' := by
  induction h with
  | nil => exact .nil
  | @cons I I' rest rest' hne hI _ ih =>
    have hopcode := Rewritten.opcode_eq hI
    refine .cons ?_ (hopcode ▸ hne) ?_ (ih (fun J hJ => hsource J (by simp [hJ]))
      fun J hJ => hentry J (by simp [hJ]))
    · rw [hI.id_eq]
      exact hsource I (by simp)
    · rw [hopcode]
      exact hentry I (by simp)
  | @ret I loads rest rest' count hret hloads _ ih =>
    exact .ret count hret hloads (ih (fun J hJ => hsource J (by simp [hJ]))
      fun J hJ => hentry J (by simp [hJ]))

theorem shaped_of_coded {ctx : CodeContext} {m final : Module} {blocks blocks' : List BasicBlock}
    (hsource : ∀ BB ∈ blocks, ∀ I ∈ BB, I.id.isSource)
    (hentry : ∀ BB ∈ blocks, ∀ I ∈ BB, 0 ∉ I.opcode.targets)
    (h : Coded ctx m final blocks blocks') : Shaped ctx.owners blocks' := by
  cases h with
  | declaration => exact .declaration
  | @definition entry body loads rest rest' hloads hbody hrest =>
    refine .definition hloads (body_of_laid (hsource entry (by simp)) (hentry entry (by simp))
      hbody) fun BB' hBB' => ?_
    obtain ⟨i, hi, rfl⟩ := List.getElem_of_mem hBB'
    obtain ⟨hlen, hget⟩ := List.forall₂_iff_get.mp hrest
    exact body_of_laid (hsource _ (by simp)) (hentry _ (by simp)) (hget i (hlen ▸ hi) hi)

/-- Code of the source has the shape for a function without owners. -/
theorem body_of_source {BB : List Instruction} (hsource : ∀ I ∈ BB, I.id.isSource)
    (hentry : ∀ I ∈ BB, 0 ∉ I.opcode.targets) : Body [] BB := by
  induction BB with
  | nil => exact .nil
  | cons I rest ih =>
    have hrest := ih (fun J hJ => hsource J (by simp [hJ])) fun J hJ => hentry J (by simp [hJ])
    by_cases hret : I.opcode = .ret
    · have hbody : Body [] ([] ++ I :: rest) := .ret 0 hret .nil hrest
      exact hbody
    · exact .cons (hsource I (by simp)) hret (hentry I (by simp)) hrest

theorem shaped_of_source {blocks : List BasicBlock}
    (hsource : ∀ BB ∈ blocks, ∀ I ∈ BB, I.id.isSource)
    (hentry : ∀ BB ∈ blocks, ∀ I ∈ BB, 0 ∉ I.opcode.targets) : Shaped [] blocks := by
  cases blocks with
  | nil => exact .declaration
  | cons entry rest =>
    have hbody := body_of_source (hsource entry (by simp)) (hentry entry (by simp))
    have hshaped : Shaped [] (([] ++ entry) :: rest) := .definition .nil hbody fun BB hBB =>
      body_of_source (hsource BB (by simp [hBB])) (hentry BB (by simp [hBB]))
    exact hshaped

/-! Owners. -/

theorem keep_sublist (m : Module) (left : ℕ) (functions : List Function) :
    (keep m left functions).Sublist functions := by
  induction functions generalizing left with
  | nil => exact List.Sublist.slnil
  | cons F rest ih =>
    rw [keep]
    split_ifs
    · exact (ih _).cons_cons F
    · exact (ih _).cons F

section Owners

variable {m : SourceModule} {pre post : List Function} {F : Function}
  (hfunctions : m.functions = pre ++ F :: post)

include hfunctions

theorem keptFunctions_of_kept (hkept : IsKept m.toModule pre F) : keptFunctions m.toModule =
    keep m.toModule (storageLeft m.toModule) pre ++ F :: keep m.toModule
      (leftAfter m.toModule (storageLeft m.toModule) pre - blockSize m.toModule F) post := by
  rw [keptFunctions, hfunctions, keep_append, keep]
  exact congrArg _ (if_pos hkept)

/-- A kept function has its name alone among them, after the kept ones before it. -/
theorem position_of_name (hkept : IsKept m.toModule pre F) {i : ℕ} {G : Function}
    (hG : (keptFunctions m.toModule)[i]? = some G) (hname : G.name = F.name) :
    i = (keep m.toModule (storageLeft m.toModule) pre).length ∧ G = F := by
  have hnames := m.function_names hfunctions
  have hbefore : G ∉ keep m.toModule (storageLeft m.toModule) pre := fun hmem =>
    hnames.1 (hname ▸ List.mem_map_of_mem ((keep_sublist _ _ _).subset hmem))
  have hafter : G ∉ keep m.toModule (leftAfter m.toModule (storageLeft m.toModule) pre -
      blockSize m.toModule F) post := fun hmem =>
    hnames.2 (hname ▸ List.mem_map_of_mem ((keep_sublist _ _ _).subset hmem))
  rw [keptFunctions_of_kept hfunctions hkept, List.getElem?_append] at hG
  split_ifs at hG with hi
  · exact absurd (List.mem_of_getElem? hG) hbefore
  · cases hk : i - (keep m.toModule (storageLeft m.toModule) pre).length with
    | zero =>
      rw [hk, List.getElem?_cons_zero, Option.some.injEq] at hG
      exact ⟨by omega, hG.symm⟩
    | succ k =>
      rw [hk, List.getElem?_cons_succ] at hG
      exact absurd (List.mem_of_getElem? hG) hafter

theorem ownersFor_of_kept (hkept : IsKept m.toModule pre F) :
    ownersFor m.toModule F.name = codeOwners m.toModule F := by
  have hfind : (keptFunctions m.toModule).find? (·.name = F.name) = some F := by
    rw [keptFunctions_of_kept hfunctions hkept, List.find?_append,
      List.find?_cons_of_pos (by simp), Option.or_eq_some_iff]
    refine Or.inr ⟨List.find?_eq_none.mpr fun G hG => ?_, rfl⟩
    have hmem := (keep_sublist _ _ _).subset hG
    simpa using fun hname => (m.function_names hfunctions).1
      (List.mem_map.mpr ⟨G, hmem, hname⟩)
  rw [ownersFor, hfind]

theorem name_notMem_keptFunctions (hkept : ¬ IsKept m.toModule pre F) :
    F.name ∉ (keptFunctions m.toModule).map Function.name := by
  have hkeep : keptFunctions m.toModule = keep m.toModule (storageLeft m.toModule) pre ++
      keep m.toModule (leftAfter m.toModule (storageLeft m.toModule) pre) post := by
    rw [keptFunctions, hfunctions, keep_append, keep]
    exact congrArg _ (if_neg hkept)
  rw [hkeep, List.map_append, List.mem_append, not_or]
  exact ⟨fun hmem => (m.function_names hfunctions).1
      (List.map_subset _ (keep_sublist _ _ _).subset hmem),
    fun hmem => (m.function_names hfunctions).2
      (List.map_subset _ (keep_sublist _ _ _).subset hmem)⟩

theorem ownersFor_of_not_kept (hkept : ¬ IsKept m.toModule pre F) :
    ownersFor m.toModule F.name = [] := by
  have hfind : (keptFunctions m.toModule).find? (·.name = F.name) = none := by
    rw [List.find?_eq_none]
    intro G hG
    have hnot := name_notMem_keptFunctions hfunctions hkept
    simpa using fun hname => hnot (List.mem_map.mpr ⟨G, hG, hname⟩)
  rw [ownersFor, hfind]

theorem eq_descriptorAt {out : Output} (h : runOnModule m.toModule = some out)
    {d : BlockDescriptor} (hd : d ∈ written out) (hname : d.funcName = F.name) :
    IsKept m.toModule pre F ∧ 0 < blockSize m.toModule F ∧ d = descriptorAt m.toModule
      out.state.BIG (keep m.toModule (storageLeft m.toModule) pre).length F := by
  obtain ⟨i, G, hG, hsize, rfl⟩ := (mem_written_iff h).mp hd
  have hGname : G.name = F.name := hname
  have hkept : IsKept m.toModule pre F := by
    by_contra hnot
    refine name_notMem_keptFunctions hfunctions hnot ?_
    exact hGname ▸ List.mem_map_of_mem (List.mem_of_getElem? hG)
  obtain ⟨rfl, rfl⟩ := position_of_name hfunctions hkept hG hGname
  exact ⟨hkept, hsize, rfl⟩

end Owners

theorem mem_ownersFor {m : Module} {name : String} {X : Owner} (h : X ∈ ownersFor m name) :
    (X = .M ∧ name = "main") ∨ X = .function name := by
  unfold ownersFor at h
  cases hfind : (keptFunctions m).find? (·.name = name) with
  | none => simp [hfind] at h
  | some F =>
    obtain rfl : F.name = name := by simpa using List.find?_some hfind
    simp only [hfind, codeOwners, List.mem_append] at h
    rcases h with h | h
    · split_ifs at h with hmain
      · exact Or.inl ⟨List.mem_singleton.mp h, hmain.1⟩
      · cases h
    · split_ifs at h
      · exact Or.inr (List.mem_singleton.mp h)
      · cases h

theorem ownersFor_nodup (m : Module) (name : String) : (ownersFor m name).Nodup := by
  unfold ownersFor
  cases (keptFunctions m).find? (·.name = name) with
  | none => exact List.nodup_nil
  | some F =>
    simp only [codeOwners]
    split_ifs <;> simp

theorem ownersFor_name {m : Module} {name name' : String} {X : Owner} (h : X ∈ ownersFor m name)
    (h' : X ∈ ownersFor m name') : name = name' := by
  rcases mem_ownersFor h with ⟨rfl, rfl⟩ | rfl
  · rcases mem_ownersFor h' with ⟨-, rfl⟩ | hX
    · rfl
    · cases hX
  · rcases mem_ownersFor h' with ⟨hX, -⟩ | hX
    · cases hX
    · cases hX
      rfl

theorem ownersOf_eq {m : Module} {pre : List Function} {s : PassState} (h : Reached m pre s)
    (F : Function) : ownersOf F s.GBlock (blockSize m F) = codeOwners m F := by
  rw [ownersOf, codeOwners, h.GBlock]
  simp

/-! Functions of the transformed module. -/

theorem shaped_function {m : SourceModule} {out : Output} (h : runOnModule m.toModule = some out)
    {F' : Function} (hF' : F' ∈ out.M.functions) :
    Shaped (ownersFor m.toModule F'.name) F'.blocks := by
  obtain ⟨i, hi⟩ := List.getElem?_of_mem hF'
  obtain ⟨pre, F, post, hfunctions, rfl⟩ := exists_function h hi
  have hwf := m.functions_wellFormed F (by simp [hfunctions])
  have hsource : ∀ BB ∈ F.blocks, ∀ I ∈ BB, I.id.isSource := fun BB hBB I hI =>
    hwf.ids_source I (List.mem_flatten.mpr ⟨BB, hBB, hI⟩)
  have hentry : ∀ BB ∈ F.blocks, ∀ I ∈ BB, 0 ∉ I.opcode.targets :=
    fun BB hBB I hI => hwf.entry_not_target I (List.mem_flatten.mpr ⟨BB, hBB, hI⟩)
  by_cases hkept : IsKept m.toModule pre F
  · obtain ⟨s, start, globVar, F₁, code, hposition⟩ :=
      exists_functionCode h hfunctions hkept hwf.blocks_nonempty
    obtain rfl : F' = F₁ := Option.some.inj (hi.symm.trans hposition)
    have hshaped := shaped_of_coded hsource hentry code.coded
    rw [code.name, ownersFor_of_kept hfunctions hkept,
      ← ownersOf_eq (reached_stateBefore code.before)]
    exact hshaped
  · have hposition := function_of_not_kept h hfunctions hkept
    obtain rfl : F' = F := Option.some.inj (hi.symm.trans hposition)
    rw [ownersFor_of_not_kept hfunctions hkept]
    exact shaped_of_source hsource hentry

end MMLMStore.CodeShape
