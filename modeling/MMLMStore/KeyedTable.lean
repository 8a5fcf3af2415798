import Mathlib

/-!
# Tables sorted by key

Ordered associative containers: a list of key-value pairs in strictly ascending key order, with
lookup, overwriting assignment, and the insertion that keeps an entry already there.
-/
namespace MMLMStore.KeyedTable

variable {K V : Type*} [LinearOrder K]

def assign (k : K) (v : V) : List (K × V) → List (K × V)
  | [] => [(k, v)]
  | (k', v') :: rest =>
    if k < k' then (k, v) :: (k', v') :: rest
    else if k = k' then (k, v) :: rest
    else (k', v') :: assign k v rest

theorem mem_keys_assign {k : K} {v : V} {entries : List (K × V)} {k' : K} :
    k' ∈ (assign k v entries).map Prod.fst ↔ k' = k ∨ k' ∈ entries.map Prod.fst := by
  induction entries with
  | nil => simp [assign]
  | cons x rest ih =>
    obtain ⟨k₁, v₁⟩ := x
    simp only [assign]
    split_ifs with hlt heq
    · simp
    · subst heq
      simp
    · simp only [List.map_cons, List.mem_cons, ih]
      tauto

theorem sorted_assign {k : K} {v : V} {entries : List (K × V)}
    (h : (entries.map Prod.fst).Pairwise (· < ·)) :
    ((assign k v entries).map Prod.fst).Pairwise (· < ·) := by
  induction entries with
  | nil => simp [assign]
  | cons x rest ih =>
    obtain ⟨k₁, v₁⟩ := x
    obtain ⟨hfirst, hrest⟩ := List.pairwise_cons.mp h
    simp only [assign]
    split_ifs with hlt heq
    · refine List.pairwise_cons.mpr ⟨fun k' hk' => ?_, h⟩
      rcases List.mem_cons.mp hk' with rfl | hk'
      · exact hlt
      · exact hlt.trans (hfirst k' hk')
    · subst heq
      exact h
    · refine List.pairwise_cons.mpr ⟨fun k' hk' => ?_, ih hrest⟩
      rcases mem_keys_assign.mp hk' with rfl | hk'
      · exact lt_of_le_of_ne (not_lt.mp hlt) (Ne.symm heq)
      · exact hfirst k' hk'

theorem perm_assign {k : K} {v : V} {entries : List (K × V)} (h : k ∉ entries.map Prod.fst) :
    (assign k v entries).Perm ((k, v) :: entries) := by
  induction entries with
  | nil => exact List.Perm.refl _
  | cons x rest ih =>
    obtain ⟨k₁, v₁⟩ := x
    rw [List.map_cons, List.mem_cons, not_or] at h
    simp only [assign, if_neg h.1]
    split_ifs with hlt
    · exact List.Perm.refl _
    · exact ((ih h.2).cons _).trans (List.Perm.swap _ _ _)

structure Table (K V : Type*) [LinearOrder K] where
  entries : List (K × V)
  sorted : (entries.map Prod.fst).Pairwise (· < ·)

namespace Table

variable {K V : Type*} [LinearOrder K]

def empty : Table K V := ⟨[], List.Pairwise.nil⟩

def keys (t : Table K V) : List K := t.entries.map Prod.fst

def find? (t : Table K V) (k : K) : Option V := (t.entries.find? (·.1 = k)).map Prod.snd

def set (t : Table K V) (k : K) (v : V) : Table K V :=
  ⟨assign k v t.entries, sorted_assign t.sorted⟩

/-- `t.insert({k, v})`: an entry already at the key stays. -/
def insert (t : Table K V) (k : K) (v : V) : Table K V :=
  match t.find? k with
  | some _ => t
  | none => t.set k v

variable {t : Table K V} {k : K} {v : V}

@[simp] theorem find?_empty : (empty : Table K V).find? k = none := rfl

theorem mem_entries_iff : (k, v) ∈ t.entries ↔ t.find? k = some v := by
  obtain ⟨entries, sorted⟩ := t
  simp only [find?]
  induction entries with
  | nil => simp
  | cons x rest ih =>
    obtain ⟨k₁, v₁⟩ := x
    obtain ⟨hfirst, hrest⟩ := List.pairwise_cons.mp sorted
    by_cases hk : k₁ = k
    · subst hk
      have hout : (k₁, v) ∉ rest := fun hmem =>
        lt_irrefl k₁ (hfirst k₁ (List.mem_map.mpr ⟨_, hmem, rfl⟩))
      simp [hout, eq_comm]
    · simp [hk, Ne.symm hk, ih hrest]

/-- The entries before a key, its own entry, and the rest. -/
theorem entries_eq_takeWhile (h : t.find? k = some v) :
    ∃ after, t.entries = t.entries.takeWhile (fun x => x.1 ≠ k) ++ (k, v) :: after := by
  unfold find? at h
  obtain ⟨x, hx, rfl⟩ := Option.map_eq_some_iff.mp h
  obtain ⟨hkey, before, after, hentries, hbefore⟩ := List.find?_eq_some_iff_append.mp hx
  obtain rfl : x.1 = k := by simpa using hkey
  refine ⟨after, ?_⟩
  have htake : t.entries.takeWhile (fun y => y.1 ≠ x.1) = before := by
    rw [hentries, List.takeWhile_append_of_pos (by simpa using hbefore),
      List.takeWhile_cons_of_neg (by simp), List.append_nil]
  rw [htake]
  exact hentries

theorem mem_keys_iff : k ∈ t.keys ↔ ∃ v, t.find? k = some v := by
  simp only [keys, List.mem_map, Prod.exists, exists_and_right, exists_eq_right, mem_entries_iff]

theorem keys_sorted : t.keys.Pairwise (· < ·) := t.sorted

theorem keys_nodup : t.keys.Nodup := t.keys_sorted.imp ne_of_lt

theorem find?_set (k' : K) : (t.set k v).find? k' = if k' = k then some v else t.find? k' := by
  obtain ⟨entries, sorted⟩ := t
  simp only [find?, set]
  induction entries with
  | nil =>
    by_cases h : k' = k
    · simp [assign, h]
    · simp [assign, h, Ne.symm h]
  | cons x rest ih =>
    obtain ⟨k₁, v₁⟩ := x
    obtain ⟨-, hrest⟩ := List.pairwise_cons.mp sorted
    have hi := ih hrest
    simp only [assign]
    by_cases hlt : k < k₁
    · by_cases h : k' = k
      · simp [hlt, h]
      · simp [hlt, h, Ne.symm h]
    · by_cases heq : k = k₁
      · subst heq
        by_cases h : k' = k
        · simp [h]
        · simp [h, Ne.symm h]
      · by_cases h₁ : k₁ = k'
        · subst h₁
          simp [hlt, heq, Ne.symm heq]
        · simp only [hlt, heq, if_false, List.find?_cons, h₁, decide_false]
          exact hi

theorem find?_insert (k' : K) :
    (t.insert k v).find? k' = if k' = k then some ((t.find? k).getD v) else t.find? k' := by
  unfold insert
  cases h : t.find? k with
  | none => rw [find?_set]; rfl
  | some w =>
    by_cases hk : k' = k
    · simp [hk, h]
    · simp [hk]

theorem not_mem_keys_iff : k ∉ t.keys ↔ t.find? k = none := by
  rw [mem_keys_iff, ← Option.isSome_iff_exists, Option.not_isSome_iff_eq_none]

theorem mem_keys_insert (k' : K) : k' ∈ (t.insert k v).keys ↔ k' = k ∨ k' ∈ t.keys := by
  simp only [mem_keys_iff, find?_insert]
  by_cases h : k' = k <;> simp [h]

theorem perm_insert (h : t.find? k = none) : (t.insert k v).entries.Perm ((k, v) :: t.entries) := by
  have hset : t.insert k v = t.set k v := by
    unfold insert
    rw [h]
  rw [hset]
  exact perm_assign (not_mem_keys_iff.mpr h)

theorem mem_keys_set (k' : K) : k' ∈ (t.set k v).keys ↔ k' = k ∨ k' ∈ t.keys := mem_keys_assign

end Table

end MMLMStore.KeyedTable
