import MMLMStore.LMRefMapping

/-!
# LMRef indices of any call graph

`LMRefMappingEntry` on every graph that `graphGen` builds from a fresh `BIG` by inserting edges in
both directions: a proper colouring of the coloured blocks, with index 0 left to those blocks only
whose neighbours have all the others.
-/
namespace MMLMStore.LMRefColouring
open FirstFit KeyedTable LMRefMapping ModuleIR

/-- No edges yet, and every index at zero. -/
structure Fresh (BIG : BlockGraph) : Prop where
  lmref_index : ∀ u, (BIG.get u).lmref_index = 0
  edges : ∀ u, (BIG.get u).edges = ∅

def insertEdge (BIG : BlockGraph) (edge : String × String) : BlockGraph :=
  graphGen (graphGen BIG edge.1 edge.2) edge.2 edge.1

def insertEdges (edges : List (String × String)) (BIG : BlockGraph) : BlockGraph :=
  edges.foldl insertEdge BIG

/-- A graph before the mapping: edges go both ways between blocks of the graph. -/
structure Undirected (BIG : BlockGraph) : Prop where
  symm : ∀ u v, v ∈ (BIG.get u).edges → u ∈ (BIG.get v).edges
  mem_keys : ∀ u v, v ∈ (BIG.get u).edges → u ∈ BIG.keys
  lmref_index : ∀ u, (BIG.get u).lmref_index = 0

/-- What the mapping is for: the blocks coloured so that neighbours differ, none left out without
need. -/
structure Mapped (BIG : BlockGraph) (c : String → ℕ) : Prop where
  differ : ∀ u v, u ≠ v → v ∈ (BIG.get u).edges → c u ≠ 0 → c v ≠ 0 → c u ≠ c v
  lt : ∀ u, c u < num_lmref_entries
  taken : ∀ u ∈ BIG.keys, c u = 0 → ∀ j, 1 ≤ j → j < num_lmref_entries →
    ∃ v ∈ (BIG.get u).edges, v < u ∧ c v = j
  coloured : ∀ u ∈ BIG.keys, ((BIG.get u).edges.erase u).card ≤ 62 →
    1 ≤ c u ∧ c u < num_lmref_entries

variable {BIG : BlockGraph}

theorem Fresh.undirected (h : Fresh BIG) : Undirected BIG :=
  ⟨fun u v hv => by simp [h.edges u] at hv, fun u v hv => by simp [h.edges u] at hv, h.lmref_index⟩

theorem mem_edges_graphGen (BIG : BlockGraph) (a b u v : String) :
    v ∈ ((graphGen BIG a b).get u).edges ↔ v ∈ (BIG.get u).edges ∨ (u = a ∧ v = b) := by
  rw [graphGen, get_set]
  split_ifs with hu
  · subst hu
    simp only [Finset.mem_insert, true_and]
    exact or_comm
  · simp [hu]

theorem lmref_index_graphGen (BIG : BlockGraph) (a b u : String) :
    ((graphGen BIG a b).get u).lmref_index = (BIG.get u).lmref_index := by
  rw [graphGen, get_set]
  split_ifs with hu
  · rw [hu]
  · rfl

theorem mem_edges_insertEdge (BIG : BlockGraph) (edge : String × String) (u v : String) :
    v ∈ ((insertEdge BIG edge).get u).edges ↔
      v ∈ (BIG.get u).edges ∨ (u, v) = edge ∨ (v, u) = edge := by
  obtain ⟨a, b⟩ := edge
  rw [insertEdge, mem_edges_graphGen, mem_edges_graphGen, or_assoc, Prod.mk.injEq, Prod.mk.injEq,
    and_comm (a := u = b)]

theorem mem_keys_insertEdge (BIG : BlockGraph) (edge : String × String) (u : String) :
    u ∈ (insertEdge BIG edge).keys ↔ u = edge.2 ∨ u = edge.1 ∨ u ∈ BIG.keys := by
  rw [insertEdge, graphGen, Table.mem_keys_set, graphGen, Table.mem_keys_set]

theorem Undirected.insertEdge (h : Undirected BIG) (edge : String × String) :
    Undirected (insertEdge BIG edge) where
  symm u v := by
    rw [mem_edges_insertEdge, mem_edges_insertEdge]
    rintro (hv | heq | heq)
    · exact Or.inl (h.symm u v hv)
    · exact Or.inr (Or.inr heq)
    · exact Or.inr (Or.inl heq)
  mem_keys u v := by
    rw [mem_edges_insertEdge, mem_keys_insertEdge]
    rintro (hv | rfl | rfl)
    · exact Or.inr (Or.inr (h.mem_keys u v hv))
    · exact Or.inr (Or.inl rfl)
    · exact Or.inl rfl
  lmref_index u := by
    rw [LMRefColouring.insertEdge, lmref_index_graphGen, lmref_index_graphGen]
    exact h.lmref_index u

theorem Undirected.insertEdges (h : Undirected BIG) (edges : List (String × String)) :
    Undirected (insertEdges edges BIG) := by
  induction edges generalizing BIG with
  | nil => exact h
  | cons edge edges ih => exact ih (h.insertEdge edge)

theorem Undirected.isFirstFit (h : Undirected BIG) :
    IsFirstFit num_lmref_entries BIG.keys.toFinset (fun u => (BIG.get u).edges)
      (lmrefOf (LMRefMappingEntry BIG)) := by
  have hzero : lmrefOf BIG = fun _ => 0 := by
    funext u
    exact h.lmref_index u
  rw [lmrefOf_LMRefMappingEntry, hzero]
  exact isFirstFit_sweep Table.keys_sorted

theorem Undirected.lmrefOf_of_not_mem (h : Undirected BIG) {u : String} (hu : u ∉ BIG.keys) :
    lmrefOf (LMRefMappingEntry BIG) u = 0 := by
  rw [lmrefOf_LMRefMappingEntry, sweep_of_not_mem hu]
  exact h.lmref_index u

theorem Undirected.mapped (h : Undirected BIG) :
    Mapped BIG (lmrefOf (LMRefMappingEntry BIG)) := by
  have hfit := h.isFirstFit
  have hlt : ∀ u, lmrefOf (LMRefMappingEntry BIG) u < num_lmref_entries := by
    intro u
    by_cases hzero : lmrefOf (LMRefMappingEntry BIG) u = 0
    · rw [hzero]
      norm_num [num_lmref_entries]
    · have hu : u ∈ BIG.keys := by
        by_contra hout
        exact hzero (h.lmrefOf_of_not_mem hout)
      exact hfit.lt u (List.mem_toFinset.mpr hu) hzero
  constructor
  case differ =>
    intro u v hne hadj hcu hcv
    have hback := h.symm u v hadj
    exact hfit.ne_of_adj (List.mem_toFinset.mpr (h.mem_keys u v hadj))
      (List.mem_toFinset.mpr (h.mem_keys v u hback)) hne hadj hback hcu hcv
  case lt => exact hlt
  case taken =>
    intro u hu hzero j hj hjk
    obtain ⟨v, hadj, -, hbelow, heq⟩ :=
      hfit.taken u (List.mem_toFinset.mpr hu) j hj hjk (Or.inl hzero)
    exact ⟨v, hadj, hbelow, heq⟩
  case coloured =>
    intro u hu hcard
    refine ⟨Nat.one_le_iff_ne_zero.mpr fun hzero => ?_, hlt u⟩
    have hall := hfit.le_card_of_eq_zero (List.mem_toFinset.mpr hu) hzero
    rw [show num_lmref_entries - 1 = 63 from rfl] at hall
    omega

/-! The graph of a module. -/

/-- `BIG` when the calls are read: `GlobVarGen` has named the global block. -/
theorem fresh_start : Fresh (Table.empty.set "M" default) :=
  ⟨fun u => by rw [get_set]; split_ifs <;> rfl, fun u => by rw [get_set]; split_ifs <;> rfl⟩

theorem insertEdges_append (first second : List (String × String)) (BIG : BlockGraph) :
    insertEdges (first ++ second) BIG = insertEdges second (insertEdges first BIG) :=
  List.foldl_append

theorem buildGraph_eq_insertEdges {functions : List Function} {BIG' : BlockGraph}
    (hbuild : buildGraph functions BIG = some BIG') : ∃ edges, BIG' = insertEdges edges BIG := by
  induction functions generalizing BIG with
  | nil =>
    cases hbuild
    exact ⟨[], rfl⟩
  | cons F functions ih =>
    rw [buildGraph, List.foldlM_cons, Option.bind_eq_bind, Option.bind_eq_some_iff] at hbuild
    obtain ⟨next, hnext, hrest⟩ := hbuild
    rw [Option.bind_eq_bind, Option.bind_eq_some_iff] at hnext
    obtain ⟨callees, -, hnext⟩ := hnext
    cases hnext
    obtain ⟨edges, heq⟩ := ih hrest
    refine ⟨callees.map (fun v => (F.name, v)) ++ edges, ?_⟩
    rw [heq, insertEdges_append]
    congr 1
    rw [insertEdges, List.foldl_map]
    rfl

theorem mapped_buildGraph {functions : List Function}
    (hbuild : buildGraph functions (Table.empty.set "M" default) = some BIG) :
    Mapped BIG (lmrefOf (LMRefMappingEntry BIG)) := by
  obtain ⟨edges, rfl⟩ := buildGraph_eq_insertEdges hbuild
  exact (fresh_start.undirected.insertEdges edges).mapped

/-- Any finite call graph, self edges included. -/
theorem mapped_insertEdges (h : Fresh BIG) (edges : List (String × String)) :
    Mapped (insertEdges edges BIG) (lmrefOf (LMRefMappingEntry (insertEdges edges BIG))) :=
  (h.undirected.insertEdges edges).mapped

theorem mapped_insertEdges_start :
    Mapped (insertEdges [("main", "f"), ("f", "f")] (Table.empty.set "M" default))
      (lmrefOf (LMRefMappingEntry
        (insertEdges [("main", "f"), ("f", "f")] (Table.empty.set "M" default)))) :=
  mapped_insertEdges fresh_start [("main", "f"), ("f", "f")]

end MMLMStore.LMRefColouring
