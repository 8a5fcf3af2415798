import MMLMStore.KeyedTable

/-!
# Ordered maps and multimaps

Removal from a sorted table and the neighbours of a key in it, and tables in which a key may occur
more than once.
-/
namespace MMLMStore.OrderedMaps

open KeyedTable

/-- In an order, what is found first is the least. -/
theorem find?_least {α : Type*} {r : α → α → Prop} {l : List α} (hl : l.Pairwise r)
    {p : α → Bool} {x : α} (h : l.find? p = some x) :
    x ∈ l ∧ p x = true ∧ ∀ y ∈ l, p y = true → y = x ∨ r x y := by
  obtain ⟨hx, before, after, rfl, hbefore⟩ := List.find?_eq_some_iff_append.mp h
  refine ⟨by simp, hx, fun y hy hpy => ?_⟩
  rcases List.mem_append.mp hy with hy | hy
  · have hno := hbefore y hy
    rw [hpy] at hno
    cases hno
  · rcases List.mem_cons.mp hy with hy | hy
    · exact Or.inl hy
    · have htail := (List.pairwise_append.mp hl).2.1
      exact Or.inr ((List.pairwise_cons.mp htail).1 y hy)

variable {K V : Type*} [LinearOrder K]

/-- `t.erase(k)`. -/
def erase (t : Table K V) (k : K) : Table K V :=
  ⟨t.entries.filter (·.1 ≠ k), t.sorted.sublist (List.filter_sublist.map Prod.fst)⟩

def next? (t : Table K V) (k : K) : Option (K × V) := t.entries.find? (k < ·.1)

def prev? (t : Table K V) (k : K) : Option (K × V) := t.entries.reverse.find? (·.1 < k)

def lower? (t : Table K V) (k : K) : Option (K × V) := t.entries.find? (k ≤ ·.1)

variable {t : Table K V} {k : K}

theorem find?_erase (k' : K) : (erase t k).find? k' = if k' = k then none else t.find? k' := by
  refine Option.ext fun v => ?_
  rw [← Table.mem_entries_iff, erase, List.mem_filter, Table.mem_entries_iff]
  by_cases h : k' = k <;> simp [h]

theorem next?_eq_some {x : K × V} (h : next? t k = some x) :
    t.find? x.1 = some x.2 ∧ k < x.1 ∧ ∀ k' v, t.find? k' = some v → k < k' → x.1 ≤ k' := by
  obtain ⟨hmem, hlt, hleast⟩ := find?_least (List.pairwise_map.mp t.sorted) h
  refine ⟨Table.mem_entries_iff.mp hmem, by simpa using hlt, fun k' v hk' hlt' => ?_⟩
  rcases hleast (k', v) (Table.mem_entries_iff.mpr hk') (by simpa using hlt') with heq | hless
  · rw [← heq]
  · exact le_of_lt hless

theorem next?_eq_none (h : next? t k = none) {k' : K} {v : V} (hk' : t.find? k' = some v) :
    k' ≤ k := by
  have hno := List.find?_eq_none.mp h (k', v) (Table.mem_entries_iff.mpr hk')
  simpa using hno

theorem prev?_eq_some {x : K × V} (h : prev? t k = some x) :
    t.find? x.1 = some x.2 ∧ x.1 < k ∧ ∀ k' v, t.find? k' = some v → k' < k → k' ≤ x.1 := by
  have hsorted := List.pairwise_reverse.mpr (List.pairwise_map.mp t.sorted)
  obtain ⟨hmem, hlt, hleast⟩ := find?_least hsorted h
  refine ⟨Table.mem_entries_iff.mp (List.mem_reverse.mp hmem), by simpa using hlt,
    fun k' v hk' hlt' => ?_⟩
  rcases hleast (k', v) (List.mem_reverse.mpr (Table.mem_entries_iff.mpr hk'))
    (by simpa using hlt') with heq | hless
  · rw [← heq]
  · exact le_of_lt hless

theorem prev?_eq_none (h : prev? t k = none) {k' : K} {v : V} (hk' : t.find? k' = some v) :
    k ≤ k' := by
  have hno := List.find?_eq_none.mp h (k', v)
    (List.mem_reverse.mpr (Table.mem_entries_iff.mpr hk'))
  simpa using hno

theorem lower?_eq_some {x : K × V} (h : lower? t k = some x) :
    t.find? x.1 = some x.2 ∧ k ≤ x.1 ∧ ∀ k' v, t.find? k' = some v → k ≤ k' → x.1 ≤ k' := by
  obtain ⟨hmem, hle, hleast⟩ := find?_least (List.pairwise_map.mp t.sorted) h
  refine ⟨Table.mem_entries_iff.mp hmem, by simpa using hle, fun k' v hk' hle' => ?_⟩
  rcases hleast (k', v) (Table.mem_entries_iff.mpr hk') (by simpa using hle') with heq | hless
  · rw [← heq]
  · exact le_of_lt hless

theorem lower?_eq_none (h : lower? t k = none) {k' : K} {v : V} (hk' : t.find? k' = some v) :
    k' < k := by
  have hno := List.find?_eq_none.mp h (k', v) (Table.mem_entries_iff.mpr hk')
  simpa using hno

/-- Entries in the order of their keys, which may be equal. -/
structure MultiTable (K V : Type*) [LinearOrder K] where
  entries : List (K × V)
  sorted : (entries.map Prod.fst).Pairwise (· ≤ ·)

/-- A new entry comes after those with the same key. -/
def place (k : K) (v : V) : List (K × V) → List (K × V)
  | [] => [(k, v)]
  | x :: rest => if x.1 ≤ k then x :: place k v rest else (k, v) :: x :: rest

theorem perm_place (k : K) (v : V) (l : List (K × V)) : (place k v l).Perm ((k, v) :: l) := by
  induction l with
  | nil => exact List.Perm.refl _
  | cons x rest ih =>
    simp only [place]
    split_ifs with h
    · exact (ih.cons x).trans (List.Perm.swap _ _ _)
    · exact List.Perm.refl _

theorem sorted_place {k : K} {v : V} {l : List (K × V)}
    (h : (l.map Prod.fst).Pairwise (· ≤ ·)) :
    ((place k v l).map Prod.fst).Pairwise (· ≤ ·) := by
  induction l with
  | nil => simp [place]
  | cons x rest ih =>
    obtain ⟨hfirst, hrest⟩ := List.pairwise_cons.mp h
    simp only [place]
    split_ifs with hle
    · refine List.pairwise_cons.mpr ⟨fun k' hk' => ?_, ih hrest⟩
      rcases List.mem_cons.mp (((perm_place k v rest).map Prod.fst).mem_iff.mp hk') with
        heq | hk'
      · rw [heq]
        exact hle
      · exact hfirst k' hk'
    · refine List.pairwise_cons.mpr ⟨fun k' hk' => ?_, h⟩
      have hlt := le_of_lt (not_le.mp hle)
      rcases List.mem_cons.mp hk' with rfl | hk'
      · exact hlt
      · exact hlt.trans (hfirst k' hk')

namespace MultiTable

def empty : MultiTable K V := ⟨[], List.Pairwise.nil⟩

def insert (t : MultiTable K V) (k : K) (v : V) : MultiTable K V :=
  ⟨place k v t.entries, sorted_place t.sorted⟩

/-- Removal of one entry. -/
def erase [DecidableEq V] (t : MultiTable K V) (x : K × V) : MultiTable K V :=
  ⟨t.entries.erase x, t.sorted.sublist (List.erase_sublist.map Prod.fst)⟩

/-- The entries from `t.lower_bound(k)` on. -/
def lowerBound (t : MultiTable K V) (k : K) : List (K × V) := t.entries.dropWhile (·.1 < k)

theorem perm_insert (t : MultiTable K V) (k : K) (v : V) :
    (t.insert k v).entries.Perm ((k, v) :: t.entries) := perm_place k v t.entries

end MultiTable

end MMLMStore.OrderedMaps
