import MMLMStore.StepRuns

/-!
# Entries of a directory

The directory of a module for all its sets and ways: one entry for each sub-block, and one bitmap
for the sharers of all entries. An operation returns `none` where an assertion fails.
-/
namespace MMLMStore.DirectoryEntries

open StepRuns

structure Bitmap (B : Type*) where
  new : ℕ → B
  size : B → ℕ
  get : B → ℕ → Bool
  Set : B → ℕ → Bool → B

/-- A new bitmap is clear, and a bit that is written is the only one to change. -/
structure Bitmap.Lawful {B : Type*} (ops : Bitmap B) : Prop where
  size_new : ∀ n, ops.size (ops.new n) = n
  get_new : ∀ n i, i < n → ops.get (ops.new n) i = false
  size_Set : ∀ b i v, i < ops.size b → ops.size (ops.Set b i v) = ops.size b
  get_Set : ∀ b i j v, i < ops.size b → j < ops.size b →
    ops.get (ops.Set b i v) j = if j = i then v else ops.get b j

/-- The number of bits fits an `int`, so that no index computed below overflows. -/
structure Dimensions where
  num_sets : ℕ
  num_ways : ℕ
  num_sub_blocks : ℕ
  num_nodes : ℕ
  fits : num_sets * num_ways * num_sub_blocks * num_nodes < 2 ^ 31

structure Place where
  set_id : ℕ
  way_id : ℕ
  sub_block_id : ℕ
  deriving DecidableEq, Repr

namespace Dimensions

variable (g : Dimensions)

def InRange (p : Place) : Prop :=
  p.set_id < g.num_sets ∧ p.way_id < g.num_ways ∧ p.sub_block_id < g.num_sub_blocks

instance (p : Place) : Decidable (g.InRange p) := inferInstanceAs (Decidable (_ ∧ _ ∧ _))

def entry_id (p : Place) : ℕ :=
  p.set_id * g.num_ways * g.num_sub_blocks + p.way_id * g.num_sub_blocks + p.sub_block_id

def bit_id (p : Place) (node_id : ℕ) : ℕ :=
  p.set_id * g.num_ways * g.num_sub_blocks * g.num_nodes +
    p.way_id * g.num_sub_blocks * g.num_nodes + p.sub_block_id * g.num_nodes + node_id

end Dimensions

/-! Row-major indices. -/

theorem flat_lt {m n i j : ℕ} (hi : i < m) (hj : j < n) : i * n + j < m * n := by
  calc i * n + j < i * n + n := Nat.add_lt_add_left hj _
    _ = (i + 1) * n := (Nat.succ_mul i n).symm
    _ ≤ m * n := Nat.mul_le_mul_right n hi

theorem flat_inj {n i j i' j' : ℕ} (hj : j < n) (hj' : j' < n) (h : i * n + j = i' * n + j') :
    i = i' ∧ j = j' := by
  have hpos : 0 < n := Nat.zero_lt_of_lt hj
  have hdiv := congrArg (· / n) h
  have hmod := congrArg (· % n) h
  simp only [Nat.mul_comm _ n, Nat.mul_add_div hpos, Nat.div_eq_of_lt hj, Nat.div_eq_of_lt hj',
    Nat.mul_add_mod, Nat.mod_eq_of_lt hj, Nat.mod_eq_of_lt hj', Nat.add_zero] at hdiv hmod
  exact ⟨hdiv, hmod⟩

namespace Dimensions

variable {g : Dimensions} {p q : Place}

theorem entry_id_eq (g : Dimensions) (p : Place) :
    g.entry_id p =
      (p.set_id * g.num_ways + p.way_id) * g.num_sub_blocks + p.sub_block_id := by
  unfold entry_id
  ring

theorem bit_id_eq (g : Dimensions) (p : Place) (n : ℕ) :
    g.bit_id p n = g.entry_id p * g.num_nodes + n := by
  unfold bit_id entry_id
  ring

theorem entry_id_lt (hp : g.InRange p) :
    g.entry_id p < g.num_sets * g.num_ways * g.num_sub_blocks := by
  obtain ⟨hset, hway, hsub⟩ := hp
  rw [entry_id_eq]
  exact flat_lt (flat_lt hset hway) hsub

theorem entry_id_inj (hp : g.InRange p) (hq : g.InRange q) (h : g.entry_id p = g.entry_id q) :
    p = q := by
  obtain ⟨-, hway, hsub⟩ := hp
  obtain ⟨-, hway', hsub'⟩ := hq
  rw [entry_id_eq, entry_id_eq] at h
  obtain ⟨houter, hsubs⟩ := flat_inj hsub hsub' h
  obtain ⟨hsets, hways⟩ := flat_inj hway hway' houter
  cases p
  cases q
  simp_all

theorem bit_id_lt (hp : g.InRange p) {n : ℕ} (hn : n < g.num_nodes) :
    g.bit_id p n < g.num_sets * g.num_ways * g.num_sub_blocks * g.num_nodes := by
  rw [bit_id_eq]
  exact flat_lt (entry_id_lt hp) hn

theorem bit_id_inj (hp : g.InRange p) (hq : g.InRange q) {n n' : ℕ} (hn : n < g.num_nodes)
    (hn' : n' < g.num_nodes) (h : g.bit_id p n = g.bit_id q n') : p = q ∧ n = n' := by
  rw [bit_id_eq, bit_id_eq] at h
  obtain ⟨hentry, hnode⟩ := flat_inj hn hn' h
  exact ⟨entry_id_inj hp hq hentry, hnode⟩

end Dimensions

def NoOwner : ℤ := -1

structure Entry where
  owner : ℤ
  num_sharers : ℕ
  deriving DecidableEq, Repr

structure Directory (B : Type*) where
  sharers : B
  entries : List Entry
  deriving DecidableEq, Repr

namespace Directory

variable {B : Type*} (g : Dimensions) (ops : Bitmap B) (d : Directory B)

def new : Directory B where
  sharers := ops.new (g.num_sets * g.num_ways * g.num_sub_blocks * g.num_nodes)
  entries := List.replicate (g.num_sets * g.num_ways * g.num_sub_blocks) ⟨NoOwner, 0⟩

def getEntry (p : Place) : Option Entry :=
  if g.InRange p then d.entries[g.entry_id p]? else none

def putEntry (p : Place) (e : Entry) : Directory B :=
  { d with entries := d.entries.set (g.entry_id p) e }

def setOwner (p : Place) (owner : ℤ) : Option (Directory B) :=
  if owner = NoOwner ∨ (0 ≤ owner ∧ owner ≤ (g.num_nodes : ℤ) - 1) then
    (d.getEntry g p).map fun entry => d.putEntry g p { entry with owner := owner }
  else none

def setSharer (p : Place) (node_id : ℕ) : Option (Directory B) :=
  if g.InRange p ∧ node_id < g.num_nodes then
    if ops.get d.sharers (g.bit_id p node_id) then some d
    else (d.getEntry g p).bind fun entry =>
      if entry.num_sharers < g.num_nodes then
        let d := d.putEntry g p { entry with num_sharers := entry.num_sharers + 1 }
        some { d with sharers := ops.Set d.sharers (g.bit_id p node_id) true }
      else none
  else none

def clearSharer (p : Place) (node_id : ℕ) : Option (Directory B) :=
  if g.InRange p ∧ node_id < g.num_nodes then
    if ops.get d.sharers (g.bit_id p node_id) = false then some d
    else (d.getEntry g p).bind fun entry =>
      if 0 < entry.num_sharers then
        let d := d.putEntry g p { entry with num_sharers := entry.num_sharers - 1 }
        some { d with sharers := ops.Set d.sharers (g.bit_id p node_id) false }
      else none
  else none

def clearAllSharers (p : Place) : Option (Directory B) :=
  (d.getEntry g p).map fun entry =>
    if entry.num_sharers = 0 then d
    else
      let d := d.putEntry g p { entry with num_sharers := 0 }
      { d with
        sharers := (List.range g.num_nodes).foldl
          (fun sharers i => ops.Set sharers (g.bit_id p 0 + i) false) d.sharers }

def isBlockSharedOrOwned (set_id way_id : ℕ) : Bool :=
  (List.range g.num_sub_blocks).any fun sub_block_id =>
    match d.getEntry g ⟨set_id, way_id, sub_block_id⟩ with
    | some entry => decide (0 < entry.num_sharers) || decide (entry.owner ≠ NoOwner)
    | none => false

end Directory

inductive Call
  | setSharer (p : Place) (node_id : ℕ)
  | clearSharer (p : Place) (node_id : ℕ)
  | clearAllSharers (p : Place)
  | setOwner (p : Place) (owner : ℤ)
  deriving DecidableEq, Repr

def Call.place : Call → Place
  | .setSharer p _ => p
  | .clearSharer p _ => p
  | .clearAllSharers p => p
  | .setOwner p _ => p

def Call.Valid (g : Dimensions) : Call → Prop
  | .setSharer p node_id => g.InRange p ∧ node_id < g.num_nodes
  | .clearSharer p node_id => g.InRange p ∧ node_id < g.num_nodes
  | .clearAllSharers p => g.InRange p
  | .setOwner p owner => g.InRange p ∧
      (owner = NoOwner ∨ (0 ≤ owner ∧ owner ≤ (g.num_nodes : ℤ) - 1))

instance (g : Dimensions) : (c : Call) → Decidable (c.Valid g)
  | .setSharer _ _ => inferInstanceAs (Decidable (_ ∧ _))
  | .clearSharer _ _ => inferInstanceAs (Decidable (_ ∧ _))
  | .clearAllSharers p => inferInstanceAs (Decidable (g.InRange p))
  | .setOwner _ _ => inferInstanceAs (Decidable (_ ∧ _))

def call {B : Type*} (g : Dimensions) (ops : Bitmap B) (d : Directory B) :
    Call → Option (Directory B)
  | .setSharer p node_id => d.setSharer g ops p node_id
  | .clearSharer p node_id => d.clearSharer g ops p node_id
  | .clearAllSharers p => d.clearAllSharers g ops p
  | .setOwner p owner => d.setOwner g p owner

section Counting

variable {B : Type*} {g : Dimensions} {ops : Bitmap B} {d d' : Directory B} {p q : Place}

/-- The nodes whose bit is set for an entry. -/
def sharersOf (g : Dimensions) (ops : Bitmap B) (d : Directory B) (p : Place) : Finset ℕ :=
  (Finset.range g.num_nodes).filter fun n => ops.get d.sharers (g.bit_id p n) = true

/-- Every entry counts its sharers. -/
structure Counted (g : Dimensions) (ops : Bitmap B) (d : Directory B) : Prop where
  bits : ops.size d.sharers = g.num_sets * g.num_ways * g.num_sub_blocks * g.num_nodes
  entries : d.entries.length = g.num_sets * g.num_ways * g.num_sub_blocks
  count : ∀ p, g.InRange p →
    ∃ e, d.getEntry g p = some e ∧ e.num_sharers = (sharersOf g ops d p).card

structure Updated (g : Dimensions) (ops : Bitmap B) (d d' : Directory B) (p : Place) (e : Entry)
    (f : ℕ → Bool) : Prop where
  size : ops.size d'.sharers = ops.size d.sharers
  length : d'.entries.length = d.entries.length
  entry : ∀ q, g.InRange q → d'.getEntry g q = if q = p then some e else d.getEntry g q
  bit : ∀ q, g.InRange q → ∀ n < g.num_nodes, ops.get d'.sharers (g.bit_id q n) =
    if q = p then f n else ops.get d.sharers (g.bit_id q n)

theorem Counted.of_updated (h : Counted g ops d) {e : Entry} {f : ℕ → Bool}
    (hu : Updated g ops d d' p e f)
    (hcount : e.num_sharers = ((Finset.range g.num_nodes).filter fun n => f n = true).card) :
    Counted g ops d' := by
  refine ⟨hu.size.trans h.bits, hu.length.trans h.entries, ?_⟩
  intro q hq
  have hbits : sharersOf g ops d' q = if q = p then
      (Finset.range g.num_nodes).filter (fun n => f n = true) else sharersOf g ops d q := by
    by_cases hqp : q = p
    · rw [if_pos hqp]
      refine Finset.filter_congr fun n hn => ?_
      rw [hu.bit q hq n (Finset.mem_range.mp hn), if_pos hqp]
    · rw [if_neg hqp]
      refine Finset.filter_congr fun n hn => ?_
      rw [hu.bit q hq n (Finset.mem_range.mp hn), if_neg hqp]
  rw [hu.entry q hq, hbits]
  by_cases hqp : q = p
  · rw [if_pos hqp, if_pos hqp]
    exact ⟨e, rfl, hcount⟩
  · rw [if_neg hqp, if_neg hqp]
    exact h.count q hq

theorem updated_refl (h : Counted g ops d) (hp : g.InRange p) :
    ∃ e, d.getEntry g p = some e ∧
      Updated g ops d d p e (fun n => ops.get d.sharers (g.bit_id p n)) := by
  obtain ⟨e, he, -⟩ := h.count p hp
  refine ⟨e, he, rfl, rfl, ?_, ?_⟩
  · intro q _
    split_ifs with hqp
    · rw [hqp, he]
    · rfl
  · intro q _ n _
    split_ifs with hqp
    · rw [hqp]
    · rfl

theorem getEntry_putEntry (h : Counted g ops d) (hp : g.InRange p) (hq : g.InRange q) (e : Entry) :
    (d.putEntry g p e).getEntry g q = if q = p then some e else d.getEntry g q := by
  have hlt : g.entry_id p < d.entries.length := by
    rw [h.entries]
    exact Dimensions.entry_id_lt hp
  unfold Directory.getEntry Directory.putEntry
  rw [if_pos hq, if_pos hq, List.getElem?_set]
  by_cases hqp : q = p
  · subst hqp
    simp [hlt]
  · have hne : g.entry_id p ≠ g.entry_id q :=
      fun heq => hqp (Dimensions.entry_id_inj hp hq heq).symm
    rw [if_neg hne, if_neg hqp]

theorem get_Set_bit (hops : ops.Lawful) (h : Counted g ops d) (hp : g.InRange p)
    (hq : g.InRange q) {n n' : ℕ} (hn : n < g.num_nodes) (hn' : n' < g.num_nodes) (v : Bool) :
    ops.get (ops.Set d.sharers (g.bit_id p n) v) (g.bit_id q n') =
      if q = p ∧ n' = n then v else ops.get d.sharers (g.bit_id q n') := by
  have hlt := Dimensions.bit_id_lt hp hn
  have hlt' := Dimensions.bit_id_lt hq hn'
  rw [← h.bits] at hlt hlt'
  rw [hops.get_Set _ _ _ _ hlt hlt']
  by_cases hsame : q = p ∧ n' = n
  · rw [hsame.1, hsame.2, if_pos rfl, if_pos ⟨rfl, rfl⟩]
  · have hne : g.bit_id q n' ≠ g.bit_id p n := fun heq =>
      hsame (Dimensions.bit_id_inj hq hp hn' hn heq)
    rw [if_neg hne, if_neg hsame]

/-- What a call leaves: no assertion has failed, and only its own entry has changed. -/
def Result (g : Dimensions) (ops : Bitmap B) (d : Directory B) (p : Place)
    (result : Option (Directory B)) (f : ℕ → Bool) (owner : ℤ → ℤ) : Prop :=
  ∃ d' e e', result = some d' ∧ d.getEntry g p = some e ∧ Updated g ops d d' p e' f ∧
    e'.owner = owner e.owner ∧
    e'.num_sharers = ((Finset.range g.num_nodes).filter fun n => f n = true).card

theorem updated_put_Set (hops : ops.Lawful) (h : Counted g ops d) (hp : g.InRange p) {n : ℕ}
    (hn : n < g.num_nodes) (e : Entry) (v : Bool) :
    Updated g ops d { d.putEntry g p e with sharers := ops.Set d.sharers (g.bit_id p n) v } p e
      (fun n' => if n' = n then v else ops.get d.sharers (g.bit_id p n')) := by
  have hlt := Dimensions.bit_id_lt hp hn
  rw [← h.bits] at hlt
  refine ⟨hops.size_Set _ _ _ hlt, List.length_set, ?_, ?_⟩
  · intro q hq
    exact getEntry_putEntry h hp hq e
  · intro q hq n' hn'
    rw [get_Set_bit hops h hp hq hn hn']
    by_cases hqp : q = p
    · simp [hqp]
    · simp [hqp]

/-- A call that would write the bit that is there leaves everything as it is. -/
theorem result_refl (h : Counted g ops d) (hp : g.InRange p) {n : ℕ} {v : Bool}
    (hbit : ops.get d.sharers (g.bit_id p n) = v) :
    Result g ops d p (some d)
      (fun n' => if n' = n then v else ops.get d.sharers (g.bit_id p n')) id := by
  obtain ⟨e, he, hcount⟩ := h.count p hp
  obtain ⟨e', he', hu⟩ := updated_refl h hp
  obtain rfl := Option.some.inj (he.symm.trans he')
  have hsame : (fun n' => if n' = n then v else ops.get d.sharers (g.bit_id p n')) =
      fun n' => ops.get d.sharers (g.bit_id p n') := by
    funext n'
    split_ifs with hn'
    · rw [hn', hbit]
    · rfl
  rw [hsame]
  exact ⟨d, e, e, rfl, he, hu, rfl, hcount⟩

theorem setSharer_result (hops : ops.Lawful) (h : Counted g ops d) (hp : g.InRange p) {n : ℕ}
    (hn : n < g.num_nodes) :
    Result g ops d p (d.setSharer g ops p n)
      (fun n' => if n' = n then true else ops.get d.sharers (g.bit_id p n')) id := by
  obtain ⟨e, he, hcount⟩ := h.count p hp
  unfold Directory.setSharer
  rw [if_pos ⟨hp, hn⟩]
  by_cases hbit : ops.get d.sharers (g.bit_id p n) = true
  · -- the bit is set already
    rw [if_pos hbit]
    exact result_refl h hp hbit
  · have hnew : n ∉ sharersOf g ops d p := by
      intro hmem
      exact hbit (Finset.mem_filter.mp hmem).2
    have hroom : e.num_sharers < g.num_nodes := by
      have hsub : insert n (sharersOf g ops d p) ⊆ Finset.range g.num_nodes := by
        refine Finset.insert_subset (Finset.mem_range.mpr hn) (Finset.filter_subset _ _)
      have hle := Finset.card_le_card hsub
      rw [Finset.card_insert_of_notMem hnew, Finset.card_range] at hle
      omega
    rw [if_neg hbit, he]
    simp only [Option.bind_some, if_pos hroom]
    refine ⟨_, e, _, rfl, he, updated_put_Set hops h hp hn _ true, rfl, ?_⟩
    have hset : (Finset.range g.num_nodes).filter (fun n' =>
        (if n' = n then true else ops.get d.sharers (g.bit_id p n')) = true) =
        insert n (sharersOf g ops d p) := by
      ext n'
      by_cases hn' : n' = n
      · simp [hn', hn]
      · simp [hn', sharersOf]
    rw [hset, Finset.card_insert_of_notMem hnew, hcount]

theorem clearSharer_result (hops : ops.Lawful) (h : Counted g ops d) (hp : g.InRange p) {n : ℕ}
    (hn : n < g.num_nodes) :
    Result g ops d p (d.clearSharer g ops p n)
      (fun n' => if n' = n then false else ops.get d.sharers (g.bit_id p n')) id := by
  obtain ⟨e, he, hcount⟩ := h.count p hp
  unfold Directory.clearSharer
  rw [if_pos ⟨hp, hn⟩]
  by_cases hbit : ops.get d.sharers (g.bit_id p n) = false
  · -- the bit is clear already
    rw [if_pos hbit]
    exact result_refl h hp hbit
  · have hold : n ∈ sharersOf g ops d p := by
      refine Finset.mem_filter.mpr ⟨Finset.mem_range.mpr hn, ?_⟩
      exact (Bool.not_eq_false _).mp hbit
    have hsome : 0 < e.num_sharers := by
      rw [hcount]
      exact Finset.card_pos.mpr ⟨n, hold⟩
    rw [if_neg hbit, he]
    simp only [Option.bind_some, if_pos hsome]
    refine ⟨_, e, _, rfl, he, updated_put_Set hops h hp hn _ false, rfl, ?_⟩
    have hset : (Finset.range g.num_nodes).filter (fun n' =>
        (if n' = n then false else ops.get d.sharers (g.bit_id p n')) = true) =
        (sharersOf g ops d p).erase n := by
      ext n'
      by_cases hn' : n' = n
      · simp [hn']
      · simp [hn', sharersOf]
    rw [hset, Finset.card_erase_of_mem hold, hcount]

/-- The loop that clears the bits of an entry, up to a node. -/
theorem clearLoop (hops : ops.Lawful) (h : Counted g ops d) (hp : g.InRange p) (k : ℕ)
    (hk : k ≤ g.num_nodes) :
    ops.size ((List.range k).foldl (fun sharers i => ops.Set sharers (g.bit_id p 0 + i) false)
        d.sharers) = ops.size d.sharers ∧
      ∀ q, g.InRange q → ∀ n < g.num_nodes,
        ops.get ((List.range k).foldl (fun sharers i => ops.Set sharers (g.bit_id p 0 + i) false)
          d.sharers) (g.bit_id q n) =
          if q = p ∧ n < k then false else ops.get d.sharers (g.bit_id q n) := by
  induction k with
  | zero => simp
  | succ k ih =>
    obtain ⟨hsize, hbits⟩ := ih (Nat.le_of_succ_le hk)
    have hindex : g.bit_id p 0 + k = g.bit_id p k := rfl
    have hlt : g.bit_id p k < ops.size d.sharers := by
      rw [h.bits]
      exact Dimensions.bit_id_lt hp hk
    rw [List.range_succ, List.foldl_append, List.foldl_cons, List.foldl_nil, hindex]
    constructor
    · rw [hops.size_Set, hsize]
      rw [hsize]
      exact hlt
    · intro q hq n hn
      have hlt' : g.bit_id q n < ops.size d.sharers := by
        rw [h.bits]
        exact Dimensions.bit_id_lt hq hn
      rw [hops.get_Set _ _ _ _ (hsize ▸ hlt) (hsize ▸ hlt'), hbits q hq n hn]
      by_cases hsame : q = p ∧ n = k
      · rw [hsame.1, hsame.2]
        simp
      · have hne : g.bit_id q n ≠ g.bit_id p k := fun heq =>
          hsame (Dimensions.bit_id_inj hq hp hn hk heq)
        have hiff : (q = p ∧ n < k + 1) ↔ (q = p ∧ n < k) := by
          constructor
          · intro hboth
            have : n ≠ k := fun heq => hsame ⟨hboth.1, heq⟩
            exact ⟨hboth.1, by omega⟩
          · intro hboth
            exact ⟨hboth.1, by omega⟩
        rw [if_neg hne]
        simp only [hiff]

theorem clearAllSharers_result (hops : ops.Lawful) (h : Counted g ops d) (hp : g.InRange p) :
    Result g ops d p (d.clearAllSharers g ops p) (fun _ => false) id := by
  obtain ⟨e, he, hcount⟩ := h.count p hp
  unfold Directory.clearAllSharers
  rw [he, Option.map_some]
  by_cases hnone : e.num_sharers = 0
  · -- there is no sharer
    rw [if_pos hnone]
    have hempty : sharersOf g ops d p = ∅ := by
      rw [← Finset.card_eq_zero, ← hcount, hnone]
    obtain ⟨e', he', hu⟩ := updated_refl h hp
    obtain rfl := Option.some.inj (he.symm.trans he')
    refine ⟨d, e, e, rfl, he, ⟨hu.size, hu.length, hu.entry, ?_⟩, rfl, by simp [hnone]⟩
    intro q hq n hn
    rw [hu.bit q hq n hn]
    by_cases hqp : q = p
    · rw [if_pos hqp, if_pos hqp]
      refine Bool.eq_false_iff.mpr fun hset => ?_
      have hmem : n ∈ sharersOf g ops d p := Finset.mem_filter.mpr ⟨Finset.mem_range.mpr hn, hset⟩
      rw [hempty] at hmem
      exact absurd hmem (Finset.notMem_empty n)
    · rw [if_neg hqp, if_neg hqp]
  · rw [if_neg hnone]
    obtain ⟨hsize, hbits⟩ := clearLoop hops h hp g.num_nodes le_rfl
    refine ⟨_, e, { e with num_sharers := 0 }, rfl, he, ⟨hsize, List.length_set, ?_, ?_⟩, rfl, ?_⟩
    · intro q hq
      exact getEntry_putEntry h hp hq _
    · intro q hq n hn
      have hbit := hbits q hq n hn
      by_cases hqp : q = p
      · rw [if_pos hqp]
        rw [if_pos ⟨hqp, hn⟩] at hbit
        exact hbit
      · rw [if_neg hqp]
        rw [if_neg (fun hboth => hqp hboth.1)] at hbit
        exact hbit
    · simp

theorem setOwner_result (h : Counted g ops d) (hp : g.InRange p) {owner : ℤ}
    (howner : owner = NoOwner ∨ (0 ≤ owner ∧ owner ≤ (g.num_nodes : ℤ) - 1)) :
    Result g ops d p (d.setOwner g p owner) (fun n => ops.get d.sharers (g.bit_id p n))
      (fun _ => owner) := by
  obtain ⟨e, he, hcount⟩ := h.count p hp
  unfold Directory.setOwner
  rw [if_pos howner, he, Option.map_some]
  refine ⟨_, e, { e with owner := owner }, rfl, he, ⟨rfl, List.length_set, ?_, ?_⟩, rfl, hcount⟩
  · intro q hq
    exact getEntry_putEntry h hp hq _
  · intro q _ n _
    split_ifs with hqp
    · rw [hqp]
      rfl
    · rfl

/-! Runs of calls. -/

def OnlyOwn (g : Dimensions) (ops : Bitmap B) (d d' : Directory B) (p : Place) : Prop :=
  ∀ q, g.InRange q → q ≠ p → d'.getEntry g q = d.getEntry g q ∧
    ∀ n < g.num_nodes, ops.get d'.sharers (g.bit_id q n) = ops.get d.sharers (g.bit_id q n)

theorem counted_new (hops : ops.Lawful) : Counted g ops (Directory.new g ops) := by
  refine ⟨hops.size_new _, List.length_replicate, fun p hp => ⟨⟨NoOwner, 0⟩, ?_, ?_⟩⟩
  · unfold Directory.getEntry Directory.new
    rw [if_pos hp, List.getElem?_replicate, if_pos (Dimensions.entry_id_lt hp)]
  · have hempty : sharersOf g ops (Directory.new g ops) p = ∅ := by
      refine Finset.filter_eq_empty_iff.mpr fun n hn => ?_
      rw [Directory.new, hops.get_new _ _ (Dimensions.bit_id_lt hp (Finset.mem_range.mp hn))]
      decide
    rw [hempty, Finset.card_empty]

theorem Result.call {r : Option (Directory B)} {f : ℕ → Bool} {owner : ℤ → ℤ}
    (h : Counted g ops d) (hr : Result g ops d p r f owner) :
    ∃ d', r = some d' ∧ Counted g ops d' ∧ OnlyOwn g ops d d' p := by
  obtain ⟨d', e, e', hsome, -, hu, -, hcount⟩ := hr
  refine ⟨d', hsome, h.of_updated hu hcount, fun q hq hqp => ⟨?_, fun n hn => ?_⟩⟩
  · rw [hu.entry q hq, if_neg hqp]
  · rw [hu.bit q hq n hn, if_neg hqp]

theorem call_spec (hops : ops.Lawful) (h : Counted g ops d) {c : Call} (hc : c.Valid g) :
    ∃ d', call g ops d c = some d' ∧ Counted g ops d' ∧ OnlyOwn g ops d d' c.place := by
  cases c with
  | setSharer p n => exact (setSharer_result hops h hc.1 hc.2).call h
  | clearSharer p n => exact (clearSharer_result hops h hc.1 hc.2).call h
  | clearAllSharers p => exact (clearAllSharers_result hops h hc).call h
  | setOwner p owner => exact (setOwner_result h hc.1 hc.2).call h

theorem Counted.isBlockSharedOrOwned_iff (h : Counted g ops d) {set_id way_id : ℕ}
    (hset : set_id < g.num_sets) (hway : way_id < g.num_ways) :
    d.isBlockSharedOrOwned g set_id way_id = true ↔
      ∃ z < g.num_sub_blocks,
        (∃ n < g.num_nodes, ops.get d.sharers (g.bit_id ⟨set_id, way_id, z⟩ n) = true) ∨
        ∃ e, d.getEntry g ⟨set_id, way_id, z⟩ = some e ∧ e.owner ≠ NoOwner := by
  unfold Directory.isBlockSharedOrOwned
  rw [List.any_eq_true]
  simp only [List.mem_range]
  refine exists_congr fun z => and_congr_right fun hz => ?_
  obtain ⟨e, he, hcount⟩ := h.count ⟨set_id, way_id, z⟩ ⟨hset, hway, hz⟩
  have hpos : 0 < e.num_sharers ↔
      ∃ n < g.num_nodes, ops.get d.sharers (g.bit_id ⟨set_id, way_id, z⟩ n) = true := by
    rw [hcount, Finset.card_pos]
    constructor
    · intro hsome
      obtain ⟨n, hn⟩ := hsome
      obtain ⟨hrange, hbit⟩ := Finset.mem_filter.mp hn
      exact ⟨n, Finset.mem_range.mp hrange, hbit⟩
    · intro hsome
      obtain ⟨n, hn, hbit⟩ := hsome
      exact ⟨n, Finset.mem_filter.mpr ⟨Finset.mem_range.mpr hn, hbit⟩⟩
  rw [he]
  simp only [Bool.or_eq_true, decide_eq_true_eq, hpos, Option.some.injEq, exists_eq_left']

/-- What the directory guarantees along a run of calls. -/
structure Maintained (g : Dimensions) (ops : Bitmap B) (run : List (Call × Directory B)) :
    Prop where
  counts : ∀ d ∈ states (Directory.new g ops) run, ∀ p, g.InRange p →
    ∃ e, d.getEntry g p = some e ∧ e.num_sharers = (sharersOf g ops d p).card ∧
      e.num_sharers ≤ g.num_nodes
  exact : ∀ d ∈ states (Directory.new g ops) run, ∀ set_id < g.num_sets, ∀ way_id < g.num_ways,
    (d.isBlockSharedOrOwned g set_id way_id = true ↔
      ∃ z < g.num_sub_blocks,
        (∃ n < g.num_nodes, ops.get d.sharers (g.bit_id ⟨set_id, way_id, z⟩ n) = true) ∨
        ∃ e, d.getEntry g ⟨set_id, way_id, z⟩ = some e ∧ e.owner ≠ NoOwner)
  own : ∀ x ∈ transitions (Directory.new g ops) run, OnlyOwn g ops x.1 x.2.2 x.2.1.place
  asserts : ∀ d ∈ states (Directory.new g ops) run, ∀ c : Call, c.Valid g →
    (call g ops d c).isSome = true

/-- Through every run of calls with arguments in range, the sharers of each entry are counted, each
call keeps to its entry, and no assertion fails. -/
theorem maintained_run (hops : ops.Lawful) {run : List (Call × Directory B)}
    (hrun : IsRun (fun d c d' => c.Valid g ∧ call g ops d c = some d')
      (Directory.new g ops) run) : Maintained g ops run := by
  have hstep : ∀ d c d', Counted g ops d → (c.Valid g ∧ call g ops d c = some d') →
      Counted g ops d' ∧ OnlyOwn g ops d d' c.place := by
    intro d c d' hd hcall
    obtain ⟨d'', hsome, hcounted, hown⟩ := call_spec hops hd hcall.1
    obtain rfl := Option.some.inj (hcall.2.symm.trans hsome)
    exact ⟨hcounted, hown⟩
  have hall := invariant_all (fun d c d' hd hcall => (hstep d c d' hd hcall).1) hrun
    (counted_new hops)
  constructor
  · intro d hd p hp
    obtain ⟨e, he, hcount⟩ := (hall d hd).count p hp
    refine ⟨e, he, hcount, ?_⟩
    rw [hcount]
    exact (Finset.card_filter_le _ _).trans_eq (Finset.card_range _)
  · intro d hd set_id hset way_id hway
    exact (hall d hd).isBlockSharedOrOwned_iff hset hway
  · intro x hx
    have hvisited : x.1 ∈ states (Directory.new g ops) run := mem_states_of_transition hx
    exact (hstep x.1 x.2.1 x.2.2 (hall x.1 hvisited) (step_of_transition hrun x hx)).2
  · intro d hd c hc
    obtain ⟨d', hsome, -⟩ := call_spec hops (hall d hd) hc
    rw [hsome]
    rfl

end Counting

def listBitmap : Bitmap (List Bool) where
  new n := List.replicate n false
  size b := b.length
  get b i := b.getD i false
  Set b i v := b.set i v

theorem lawful_listBitmap : listBitmap.Lawful where
  size_new n := List.length_replicate
  get_new n i hi := by simp [listBitmap, hi]
  size_Set b i v _ := List.length_set
  get_Set b i j v hi hj := by
    simp only [listBitmap] at *
    by_cases hij : j = i
    · subst hij
      simp [hi]
    · simp [hij, Ne.symm hij]

def small : Dimensions := ⟨2, 2, 2, 3, by norm_num⟩

/-- Two sharers of one sub-block and one of its neighbour, which then loses all. -/
def someCalls : List Call :=
  [.setSharer ⟨1, 0, 1⟩ 2, .setSharer ⟨1, 0, 1⟩ 0, .setSharer ⟨1, 1, 0⟩ 0, .setOwner ⟨1, 1, 0⟩ 0,
    .clearSharer ⟨1, 0, 1⟩ 1, .clearAllSharers ⟨1, 0, 1⟩]

theorem maintained_someCalls :
    (trace (call small listBitmap) (Directory.new small listBitmap) someCalls).length = 6 ∧
      Maintained small listBitmap
        (trace (call small listBitmap) (Directory.new small listBitmap) someCalls) :=
  ⟨by decide, maintained_run lawful_listBitmap (by decide)⟩

end MMLMStore.DirectoryEntries
