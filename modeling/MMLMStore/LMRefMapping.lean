import MMLMStore.FirstFit
import MMLMStore.KeyedTable
import MMLMStore.ModuleIR

/-!
# LMRef indices of the call graph

The call graph of a module as the symmetric graph `BIG`, and `LMRefMappingEntry`, which gives the
blocks LMRef indices in the order of their names. Two blocks of the graph share an index exactly
when they have the same colour in the first-fit sense.
-/
namespace MMLMStore.LMRefMapping
open FirstFit KeyedTable ModuleIR

structure Block where
  lmref_index : ℕ
  numberOfEdges : ℕ
  edges : Finset String
  deriving DecidableEq

instance : Inhabited Block := ⟨⟨0, 0, ∅⟩⟩

abbrev BlockGraph := Table String Block

/-- Reading `BIG[id]`: an absent block is a default one. -/
def BlockGraph.get (BIG : BlockGraph) (id : String) : Block := (BIG.find? id).getD default

def num_lmref_entries : ℕ := 64

/-- Record the callee of a call, once. `getCalledFunction` is null for an indirect call, and the
name is then read through the null pointer. -/
def addCallee (edges : List String) (I : Instruction) : Option (List String) :=
  match I.opcode with
  | .call none => none
  | .call (some func_name) => some (if func_name ∈ edges then edges else edges ++ [func_name])
  | _ => some edges

/-- Functions called, in order of first call. -/
def iniCallGraph (F : Function) : Option (List String) := F.instructions.foldlM addCallee []

def graphGen (BIG : BlockGraph) (block_id edge : String) : BlockGraph :=
  let block := BIG.get block_id
  BIG.set block_id
    { block with edges := insert edge block.edges, numberOfEdges := block.numberOfEdges + 1 }

/-- Both directions of every call edge. Function names are distinct, so the edges of a function
are those of one `iniCallGraph`. -/
def buildGraph (functions : List Function) (BIG : BlockGraph) : Option BlockGraph :=
  functions.foldlM (fun BIG F => do
    let edges ← iniCallGraph F
    some (edges.foldl (fun BIG v => graphGen (graphGen BIG F.name v) v F.name) BIG)) BIG

def isSafe (BIG : BlockGraph) (edges : Finset String) (lmref_index : ℕ) : Bool :=
  decide (∀ e ∈ edges, (BIG.get e).lmref_index ≠ lmref_index)

/-- Indices from 1 on; a block that finds none free keeps the index it has. -/
def LMRefMappingEntry (BIG : BlockGraph) : BlockGraph :=
  BIG.keys.foldl (fun BIG block_id =>
    match firstFree num_lmref_entries (isSafe BIG (BIG.get block_id).edges) with
    | some lmref_index => BIG.set block_id { BIG.get block_id with lmref_index := lmref_index }
    | none => BIG) BIG

/-- LMRef index of a block, zero for one outside the graph. -/
def lmrefOf (BIG : BlockGraph) (id : String) : ℕ := (BIG.get id).lmref_index

/-! Calls of a module. -/

def calledFunction (I : Instruction) : Option String :=
  match I.opcode with
  | .call f => f
  | _ => none

def Calls (functions : List Function) (u v : String) : Prop :=
  ∃ F ∈ functions, F.name = u ∧ ∃ I ∈ F.instructions, calledFunction I = some v

instance (functions : List Function) (u v : String) : Decidable (Calls functions u v) :=
  inferInstanceAs (Decidable (∃ F ∈ functions, F.name = u ∧
    ∃ I ∈ F.instructions, calledFunction I = some v))

def callNames (functions : List Function) : List String :=
  functions.flatMap fun F => (F.instructions.filterMap calledFunction).flatMap fun v => [F.name, v]

def graphBlocks (functions : List Function) : Finset String :=
  insert "M" (callNames functions).toFinset

def neighbours (functions : List Function) (u : String) : Finset String :=
  (callNames functions).toFinset.filter fun v => Calls functions u v ∨ Calls functions v u

theorem mem_callNames {functions : List Function} {u : String} :
    u ∈ callNames functions ↔ ∃ v, Calls functions u v ∨ Calls functions v u := by
  simp only [callNames, List.mem_flatMap, List.mem_filterMap, List.mem_cons, List.not_mem_nil,
    or_false, Calls]
  constructor
  · rintro ⟨F, hF, v, ⟨I, hI, hv⟩, rfl | rfl⟩
    · exact ⟨v, Or.inl ⟨F, hF, rfl, I, hI, hv⟩⟩
    · exact ⟨F.name, Or.inr ⟨F, hF, rfl, I, hI, hv⟩⟩
  · rintro ⟨v, ⟨F, hF, rfl, I, hI, hv⟩ | ⟨F, hF, rfl, I, hI, hv⟩⟩
    · exact ⟨F, hF, v, ⟨I, hI, hv⟩, Or.inl rfl⟩
    · exact ⟨F, hF, u, ⟨I, hI, hv⟩, Or.inr rfl⟩

theorem mem_graphBlocks {functions : List Function} {u : String} :
    u ∈ graphBlocks functions ↔ u = "M" ∨ ∃ v, Calls functions u v ∨ Calls functions v u := by
  rw [graphBlocks, Finset.mem_insert, List.mem_toFinset, mem_callNames]

theorem mem_neighbours {functions : List Function} {u v : String} :
    v ∈ neighbours functions u ↔ Calls functions u v ∨ Calls functions v u := by
  rw [neighbours, Finset.mem_filter, List.mem_toFinset, mem_callNames]
  constructor
  · exact fun h => h.2
  · exact fun h => ⟨⟨u, h.symm⟩, h⟩

/-! The graph as built. -/

theorem get_set (BIG : BlockGraph) (id : String) (b : Block) (k : String) :
    BlockGraph.get (BIG.set id b) k = if k = id then b else BIG.get k := by
  unfold BlockGraph.get
  rw [Table.find?_set]
  split_ifs <;> rfl

theorem addCallee_eq_some {edges next : List String} {I : Instruction}
    (h : addCallee edges I = some next) (v : String) :
    v ∈ next ↔ v ∈ edges ∨ calledFunction I = some v := by
  unfold addCallee at h
  unfold calledFunction
  cases hop : I.opcode with
  | call f =>
    cases f with
    | none => simp [hop] at h
    | some f =>
      simp only [hop, Option.some.injEq] at h
      subst h
      split_ifs with hf
      · simp only [Option.some.injEq]
        constructor
        · exact Or.inl
        · rintro (hv | rfl)
          · exact hv
          · exact hf
      · simp [eq_comm]
  | _ => simp_all

theorem mem_iniCallGraph {F : Function} {edges : List String} (h : iniCallGraph F = some edges)
    (v : String) : v ∈ edges ↔ ∃ I ∈ F.instructions, calledFunction I = some v := by
  have hgeneral : ∀ (l : List Instruction) (start edges : List String),
      l.foldlM addCallee start = some edges →
      (v ∈ edges ↔ v ∈ start ∨ ∃ I ∈ l, calledFunction I = some v) := by
    intro l
    induction l with
    | nil =>
      intro start edges h
      cases h
      simp
    | cons I l ih =>
      intro start edges h
      rw [List.foldlM_cons, Option.bind_eq_bind, Option.bind_eq_some_iff] at h
      obtain ⟨next, hnext, hrest⟩ := h
      rw [ih next edges hrest, addCallee_eq_some hnext, List.exists_mem_cons_iff, or_assoc]
  simpa using hgeneral _ _ _ h

/-- A graph whose indices are still zero and whose edges are those of a relation. -/
structure Represents (BIG : BlockGraph) (R : String → String → Prop) : Prop where
  mem_edges : ∀ u v, v ∈ (BIG.get u).edges ↔ R u v
  mem_keys : ∀ u, u ∈ BIG.keys ↔ u = "M" ∨ ∃ v, R u v
  lmref_index : ∀ u, (BIG.get u).lmref_index = 0

variable {BIG : BlockGraph} {R R' : String → String → Prop}

theorem Represents.congr (h : Represents BIG R) (heq : ∀ u v, R u v ↔ R' u v) :
    Represents BIG R' := by
  have hrel : R = R' := by
    funext u v
    exact propext (heq u v)
  exact hrel ▸ h

theorem represents_graphGen (h : Represents BIG R) (a b : String) :
    Represents (graphGen BIG a b) fun u v => R u v ∨ (u = a ∧ v = b) where
  mem_edges u v := by
    rw [graphGen, get_set]
    split_ifs with hu
    · subst hu
      simp only [Finset.mem_insert, h.mem_edges, true_and]
      exact or_comm
    · simp [h.mem_edges, hu]
  mem_keys u := by
    rw [graphGen, Table.mem_keys_set, h.mem_keys]
    constructor
    · rintro (rfl | rfl | ⟨v, hv⟩)
      · exact Or.inr ⟨b, Or.inr ⟨rfl, rfl⟩⟩
      · exact Or.inl rfl
      · exact Or.inr ⟨v, Or.inl hv⟩
    · rintro (rfl | ⟨v, hv | ⟨rfl, -⟩⟩)
      · exact Or.inr (Or.inl rfl)
      · exact Or.inr (Or.inr ⟨v, hv⟩)
      · exact Or.inl rfl
  lmref_index u := by
    rw [graphGen, get_set]
    split_ifs
    · exact h.lmref_index a
    · exact h.lmref_index u

theorem represents_edges (h : Represents BIG R) (f : String) (edges : List String) :
    Represents (edges.foldl (fun BIG v => graphGen (graphGen BIG f v) v f) BIG)
      fun u v => R u v ∨ (u = f ∧ v ∈ edges) ∨ (v = f ∧ u ∈ edges) := by
  induction edges generalizing BIG R with
  | nil => exact h.congr (by simp)
  | cons e edges ih =>
    refine (ih (represents_graphGen (represents_graphGen h f e) e f)).congr fun u v => ?_
    simp only [List.mem_cons]
    tauto

theorem represents_buildGraph {functions : List Function} {BIG' : BlockGraph}
    (h : Represents BIG R) (hbuild : buildGraph functions BIG = some BIG') :
    Represents BIG' fun u v => R u v ∨ Calls functions u v ∨ Calls functions v u := by
  induction functions generalizing BIG R with
  | nil =>
    cases hbuild
    exact h.congr (by simp [Calls])
  | cons F functions ih =>
    rw [buildGraph, List.foldlM_cons, Option.bind_eq_bind, Option.bind_eq_some_iff] at hbuild
    obtain ⟨next, hnext, hrest⟩ := hbuild
    rw [Option.bind_eq_bind, Option.bind_eq_some_iff] at hnext
    obtain ⟨edges, hedges, hnext⟩ := hnext
    cases hnext
    refine (ih (represents_edges h F.name edges) hrest).congr fun u v => ?_
    have hcalls : ∀ u v, Calls (F :: functions) u v ↔
        (u = F.name ∧ v ∈ edges) ∨ Calls functions u v := by
      intro u v
      rw [mem_iniCallGraph hedges]
      simp only [Calls, List.exists_mem_cons_iff, eq_comm (a := u)]
    rw [hcalls u v, hcalls v u]
    tauto

/-! The indices. -/

theorem lmrefOf_mappingStep (BIG : BlockGraph) (id : String) :
    let next := match firstFree num_lmref_entries (isSafe BIG (BIG.get id).edges) with
      | some lmref_index => BIG.set id { BIG.get id with lmref_index := lmref_index }
      | none => BIG
    (∀ u, (next.get u).edges = (BIG.get u).edges) ∧
      lmrefOf next = recolour num_lmref_entries (fun u => (BIG.get u).edges) (lmrefOf BIG) id := by
  unfold recolour
  have htest : isSafe BIG (BIG.get id).edges =
      fun i => decide (∀ u ∈ (BIG.get id).edges, lmrefOf BIG u ≠ i) := rfl
  rw [htest]
  cases firstFree num_lmref_entries
      (fun i => decide (∀ u ∈ (BIG.get id).edges, lmrefOf BIG u ≠ i)) with
  | none => exact ⟨fun _ => rfl, rfl⟩
  | some i =>
    refine ⟨fun u => ?_, ?_⟩
    · change (BlockGraph.get (BIG.set id _) u).edges = _
      rw [get_set]
      split_ifs with hu
      · rw [hu]
      · rfl
    · funext u
      change (BlockGraph.get (BIG.set id _) u).lmref_index = Function.update (lmrefOf BIG) id i u
      rw [get_set, Function.update_apply]
      split_ifs <;> rfl

/-- The mapping is the first-fit sweep over the names. -/
theorem lmrefOf_LMRefMappingEntry (BIG : BlockGraph) :
    lmrefOf (LMRefMappingEntry BIG) =
      sweep num_lmref_entries (fun u => (BIG.get u).edges) BIG.keys (lmrefOf BIG) := by
  unfold LMRefMappingEntry sweep
  generalize BIG.keys = names
  induction names generalizing BIG with
  | nil => rfl
  | cons id names ih =>
    obtain ⟨hedges, hindex⟩ := lmrefOf_mappingStep BIG id
    rw [List.foldl_cons, List.foldl_cons, ih, hindex]
    simp only [hedges]

section Mapping

variable {functions : List Function}
  (hbuild : buildGraph functions (Table.empty.set "M" default) = some BIG)

include hbuild

theorem represents_calls :
    Represents BIG fun u v => Calls functions u v ∨ Calls functions v u := by
  have hstart : Represents (Table.empty.set "M" default) fun _ _ => False :=
    ⟨fun u v => by rw [get_set]; split_ifs <;> simp [BlockGraph.get, default],
      fun u => by rw [Table.mem_keys_set]; simp [Table.keys, Table.empty],
      fun u => by rw [get_set]; split_ifs <;> simp [BlockGraph.get, default]⟩
  exact (represents_buildGraph hstart hbuild).congr (by simp)

theorem lmrefOf_eq_sweep : lmrefOf (LMRefMappingEntry BIG) =
    sweep num_lmref_entries (neighbours functions) BIG.keys fun _ => 0 := by
  have h := represents_calls hbuild
  have hedges : (fun u => (BIG.get u).edges) = neighbours functions := by
    funext u
    ext v
    rw [h.mem_edges, mem_neighbours]
  have hzero : lmrefOf BIG = fun _ => 0 := by
    funext u
    exact h.lmref_index u
  rw [lmrefOf_LMRefMappingEntry, hzero, hedges]

theorem isFirstFit_lmrefOf :
    IsFirstFit num_lmref_entries (graphBlocks functions) (neighbours functions)
      (lmrefOf (LMRefMappingEntry BIG)) := by
  have hkeys : BIG.keys.toFinset = graphBlocks functions := by
    ext u
    rw [List.mem_toFinset, (represents_calls hbuild).mem_keys, mem_graphBlocks]
  rw [lmrefOf_eq_sweep hbuild, ← hkeys]
  exact isFirstFit_sweep Table.keys_sorted

theorem lmrefOf_of_not_mem {u : String} (hu : u ∉ graphBlocks functions) :
    lmrefOf (LMRefMappingEntry BIG) u = 0 := by
  rw [lmrefOf_eq_sweep hbuild, sweep_of_not_mem]
  rwa [(represents_calls hbuild).mem_keys, ← mem_graphBlocks]

theorem lmrefOf_lt (u : String) : lmrefOf (LMRefMappingEntry BIG) u < num_lmref_entries := by
  by_cases hu : u ∈ graphBlocks functions
  · by_cases hzero : lmrefOf (LMRefMappingEntry BIG) u = 0
    · rw [hzero]
      norm_num [num_lmref_entries]
    · exact (isFirstFit_lmrefOf hbuild).lt u hu hzero
  · rw [lmrefOf_of_not_mem hbuild hu]
    norm_num [num_lmref_entries]

/-- Index zero is left to blocks outside the graph and to saturated ones. -/
theorem lmrefOf_eq_zero_iff {u : String} : lmrefOf (LMRefMappingEntry BIG) u = 0 ↔
    u ∈ graphBlocks functions →
      Saturated num_lmref_entries (graphBlocks functions) (neighbours functions) u := by
  by_cases hu : u ∈ graphBlocks functions
  · rw [(isFirstFit_lmrefOf hbuild).saturated_iff hu]
    simp [hu]
  · simp [lmrefOf_of_not_mem hbuild hu, hu]

end Mapping

end MMLMStore.LMRefMapping
