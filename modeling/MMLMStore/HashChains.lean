import Mathlib

/-!
# Hash tables with chains

A table of lists, in which a value stands in the list that the hash of its key selects. New values
go to the head of their list; values are looked up and modified at their first occurrence.
-/
namespace MMLMStore.HashChains

variable {K V : Type*} [DecidableEq K] (key : V → K) (hash : K → ℕ)

def modifyFirst (k : K) (f : V → V) : List V → List V
  | [] => []
  | v :: rest => if key v = k then f v :: rest else v :: modifyFirst k f rest

def find (table : ℕ → List V) (k : K) : Option V := (table (hash k)).find? fun v => key v = k

def insert (table : ℕ → List V) (v : V) : ℕ → List V :=
  fun i => if i = hash (key v) then v :: table i else table i

def modify (table : ℕ → List V) (k : K) (f : V → V) : ℕ → List V :=
  fun i => if i = hash k then modifyFirst key k f (table i) else table i

/-- Values stand in their lists, each key once. -/
structure Proper (size : ℕ) (table : ℕ → List V) : Prop where
  placed : ∀ i < size, ∀ v ∈ table i, hash (key v) = i
  nodup : ∀ i < size, ((table i).map key).Nodup

def keys (size : ℕ) (table : ℕ → List V) : Finset K :=
  (Finset.range size).biUnion fun i => ((table i).map key).toFinset

variable {key hash} {size : ℕ} {table : ℕ → List V} {k : K} {v : V} {f : V → V}

theorem map_modifyFirst (hf : ∀ v, key (f v) = key v) (l : List V) :
    (modifyFirst key k f l).map key = l.map key := by
  induction l with
  | nil => rfl
  | cons v rest ih =>
    unfold modifyFirst
    split_ifs with hk
    · rw [List.map_cons, List.map_cons, hf]
    · rw [List.map_cons, List.map_cons, ih]

theorem find?_modifyFirst (hf : ∀ v, key (f v) = key v) (l : List V) (k' : K) :
    (modifyFirst key k f l).find? (fun v => key v = k') =
      if k' = k then (l.find? fun v => key v = k').map f else l.find? fun v => key v = k' := by
  induction l with
  | nil => simp [modifyFirst]
  | cons v rest ih =>
    unfold modifyFirst
    by_cases hv : key v = k
    · rw [if_pos hv]
      by_cases hk : k' = k
      · simp [hk, hv, hf]
      · have hne : key v ≠ k' := fun h => hk (h.symm.trans hv)
        simp [hk, hf, hne]
    · rw [if_neg hv]
      by_cases hk : key v = k'
      · have hne : k' ≠ k := fun h => hv (hk.trans h)
        simp [hk, hne]
      · simp only [List.find?_cons, hk, decide_false, ih]

theorem find_modify (hf : ∀ v, key (f v) = key v) (k' : K) :
    find key hash (modify key hash table k f) k' =
      if k' = k then (find key hash table k').map f else find key hash table k' := by
  unfold find modify
  by_cases hk : k' = k
  · rw [if_pos (by rw [hk]), find?_modifyFirst hf]
  · rw [if_neg hk]
    split_ifs
    · rw [find?_modifyFirst hf, if_neg hk]
    · rfl

theorem find_insert (k' : K) :
    find key hash (insert key hash table v) k' =
      if k' = key v then some v else find key hash table k' := by
  unfold find insert
  by_cases hk : k' = key v
  · rw [if_pos (by rw [hk]), if_pos hk, List.find?_cons_of_pos (by simp [hk])]
  · rw [if_neg hk]
    split_ifs
    · rw [List.find?_cons_of_neg (by simpa using Ne.symm hk)]
    · rfl

theorem find_isSome_iff : (find key hash table k).isSome = true ↔
    k ∈ (table (hash k)).map key := by
  simp [find, List.find?_isSome]

theorem mem_keys (h : Proper key hash size table) (hk : hash k < size) :
    k ∈ keys key size table ↔ (find key hash table k).isSome = true := by
  rw [find_isSome_iff, keys, Finset.mem_biUnion]
  constructor
  · rintro ⟨i, hi, hmem⟩
    obtain ⟨v, hv, rfl⟩ := List.mem_map.mp (List.mem_toFinset.mp hmem)
    have hplaced := h.placed i (Finset.mem_range.mp hi) v hv
    rw [hplaced]
    exact List.mem_map_of_mem hv
  · intro hmem
    exact ⟨hash k, Finset.mem_range.mpr hk, List.mem_toFinset.mpr hmem⟩

theorem keys_insert (hv : hash (key v) < size) :
    keys key size (insert key hash table v) = Insert.insert (key v) (keys key size table) := by
  ext k
  simp only [keys, insert, Finset.mem_biUnion, Finset.mem_range, List.mem_toFinset,
    Finset.mem_insert]
  constructor
  · rintro ⟨i, hi, hmem⟩
    split_ifs at hmem with hhash
    · rcases List.mem_cons.mp hmem with hk | hmem
      · exact Or.inl hk
      · exact Or.inr ⟨i, hi, hmem⟩
    · exact Or.inr ⟨i, hi, hmem⟩
  · rintro (rfl | ⟨i, hi, hmem⟩)
    · exact ⟨hash (key v), hv, by simp⟩
    · refine ⟨i, hi, ?_⟩
      split_ifs
      · exact List.mem_cons_of_mem _ hmem
      · exact hmem

theorem map_modify (hf : ∀ v, key (f v) = key v) (i : ℕ) :
    (modify key hash table k f i).map key = (table i).map key := by
  unfold modify
  split_ifs
  · exact map_modifyFirst hf _
  · rfl

theorem keys_modify (hf : ∀ v, key (f v) = key v) :
    keys key size (modify key hash table k f) = keys key size table := by
  simp only [keys, map_modify hf]

theorem Proper.insert (h : Proper key hash size table) (hnew : find key hash table (key v) = none) :
    Proper key hash size (insert key hash table v) where
  placed i hi w hw := by
    unfold HashChains.insert at hw
    split_ifs at hw with hhash
    · rcases List.mem_cons.mp hw with rfl | hw
      · exact hhash.symm
      · exact h.placed i hi w hw
    · exact h.placed i hi w hw
  nodup i hi := by
    unfold HashChains.insert
    split_ifs with hhash
    · refine List.nodup_cons.mpr ⟨fun hmem => ?_, h.nodup i hi⟩
      rw [hhash] at hmem
      rw [← find_isSome_iff, hnew] at hmem
      exact absurd hmem Bool.false_ne_true
    · exact h.nodup i hi

theorem Proper.modify (h : Proper key hash size table) (hf : ∀ v, key (f v) = key v) :
    Proper key hash size (modify key hash table k f) where
  placed i hi w hw := by
    have hmem : key w ∈ (table i).map key := by
      rw [← map_modify hf i]
      exact List.mem_map_of_mem hw
    obtain ⟨v, hv, hkey⟩ := List.mem_map.mp hmem
    rw [← hkey]
    exact h.placed i hi v hv
  nodup i hi := by
    rw [map_modify hf]
    exact h.nodup i hi

end MMLMStore.HashChains
