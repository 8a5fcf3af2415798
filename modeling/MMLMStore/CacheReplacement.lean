import MMLMStore.RecencyOrder
import MMLMStore.StepRuns

/-!
# Replacement of cache blocks

Each set of a cache keeps its blocks in a list. Which operations move a block to the head of the
list depends on the replacement policy; the block at the end is the one to replace.
-/
namespace MMLMStore.CacheReplacement

open RecencyOrder StepRuns

inductive ReplacementPolicy
  | LRU
  | FIFO
  | Random
  deriving DecidableEq, Repr

inductive BlockState
  | BlockInvalid
  | BlockNonCoherent
  | BlockModified
  | BlockOwned
  | BlockExclusive
  | BlockShared
  deriving DecidableEq, Repr

/-- A list that links the blocks of a set, which are named by their ways. -/
structure BlockList (L : Type*) where
  empty : L
  toList : L → List ℕ
  PushBack : L → ℕ → L
  PushFront : L → ℕ → L
  Erase : L → ℕ → L
  Back : L → Option ℕ

/-- A node enters a list it is not in and leaves a list it is in. -/
structure BlockList.Lawful {L : Type*} (ops : BlockList L) : Prop where
  empty : ops.toList ops.empty = []
  PushBack : ∀ l w, w ∉ ops.toList l → ops.toList (ops.PushBack l w) = ops.toList l ++ [w]
  PushFront : ∀ l w, w ∉ ops.toList l → ops.toList (ops.PushFront l w) = w :: ops.toList l
  Erase : ∀ l w, w ∈ ops.toList l → ops.toList (ops.Erase l w) = (ops.toList l).erase w
  Back : ∀ l, ops.Back l = (ops.toList l).getLast?

structure Block where
  tag : ℕ
  state : BlockState
  deriving DecidableEq, Repr

/-- The constructor asserts powers of two. -/
structure Geometry where
  num_sets : ℕ
  num_ways : ℕ
  sets_power : num_sets.isPowerOfTwo
  ways_power : num_ways.isPowerOfTwo

def Geometry.InRange (g : Geometry) (set_id way_id : ℕ) : Prop :=
  set_id < g.num_sets ∧ way_id < g.num_ways

instance (g : Geometry) (set_id way_id : ℕ) : Decidable (g.InRange set_id way_id) :=
  inferInstanceAs (Decidable (_ ∧ _))

structure Cache (L : Type*) where
  replacement_policy : ReplacementPolicy
  block : ℕ → ℕ → Block
  lru_list : ℕ → L

namespace Cache

variable {L : Type*} (g : Geometry) (ops : BlockList L) (c : Cache L)

/-- All blocks of a set, in the order of their ways. -/
def new (policy : ReplacementPolicy) : Cache L where
  replacement_policy := policy
  block := fun _ _ => ⟨0, .BlockInvalid⟩
  lru_list := fun _ => (List.range g.num_ways).foldl ops.PushBack ops.empty

/-- Take a block out of the list of its set and put it at the head. -/
def moveToHead (set_id way_id : ℕ) : Cache L :=
  { c with lru_list := fun s =>
      if s = set_id then ops.PushFront (ops.Erase (c.lru_list s) way_id) way_id
      else c.lru_list s }

def setBlock (set_id way_id tag : ℕ) (state : BlockState) : Option (Cache L) :=
  if g.InRange set_id way_id then
    let c' :=
      if c.replacement_policy = .FIFO ∧ (c.block set_id way_id).tag ≠ tag then
        c.moveToHead ops set_id way_id
      else c
    some { c' with block := fun s w =>
      if s = set_id ∧ w = way_id then ⟨tag, state⟩ else c'.block s w }
  else none

def AccessBlock (set_id way_id : ℕ) : Option (Cache L) :=
  if g.InRange set_id way_id then
    if c.replacement_policy = .LRU ∨
        (c.replacement_policy = .FIFO ∧ (c.block set_id way_id).state = .BlockInvalid) then
      some (c.moveToHead ops set_id way_id)
    else some c
  else none

/-- The way to replace, and the cache after; `random` is the number drawn. -/
def ReplaceBlock (set_id random : ℕ) : Option (ℕ × Cache L) :=
  if set_id < g.num_sets then
    if c.replacement_policy = .LRU ∨ c.replacement_policy = .FIFO then
      (ops.Back (c.lru_list set_id)).map fun way_id => (way_id, c.moveToHead ops set_id way_id)
    else some (random % g.num_ways, c)
  else none

end Cache

inductive Call
  | setBlock (set_id way_id tag : ℕ) (state : BlockState)
  | AccessBlock (set_id way_id : ℕ)
  | ReplaceBlock (set_id random : ℕ)
  deriving DecidableEq, Repr

def Call.set : Call → ℕ
  | .setBlock s _ _ _ => s
  | .AccessBlock s _ => s
  | .ReplaceBlock s _ => s

section Lists

variable {L : Type*} {g : Geometry} {ops : BlockList L} {c c' : Cache L} {a : Call}

def call (g : Geometry) (ops : BlockList L) (c : Cache L) : Call → Option (Cache L)
  | .setBlock s w tag state => c.setBlock g ops s w tag state
  | .AccessBlock s w => c.AccessBlock g ops s w
  | .ReplaceBlock s random => (c.ReplaceBlock g ops s random).map Prod.snd

def used (g : Geometry) (ops : BlockList L) (c : Cache L) : Call → Option ℕ
  | .setBlock _ _ _ _ => none
  | .AccessBlock _ w => some w
  | .ReplaceBlock s random => (c.ReplaceBlock g ops s random).map Prod.fst

/-- The uses of the ways of each set, the most recent first. -/
def record (g : Geometry) (ops : BlockList L) (history : ℕ → List ℕ) (c : Cache L) (a : Call)
    (_ : Cache L) : ℕ → List ℕ :=
  fun s => if s = a.set then (used g ops c a).toList ++ history s else history s

def Complete (g : Geometry) (ops : BlockList L) (c : Cache L) : Prop :=
  ∀ s, (ops.toList (c.lru_list s)).Perm (List.range g.num_ways)

theorem Geometry.num_ways_pos (g : Geometry) : 0 < g.num_ways :=
  Nat.pos_of_isPowerOfTwo g.ways_power

theorem Complete.mem_iff (h : Complete g ops c) (s : ℕ) {w : ℕ} :
    w ∈ ops.toList (c.lru_list s) ↔ w < g.num_ways := by
  rw [(h s).mem_iff, List.mem_range]

theorem Complete.nodup (h : Complete g ops c) (s : ℕ) : (ops.toList (c.lru_list s)).Nodup :=
  (h s).nodup_iff.mpr List.nodup_range

theorem toList_range (hops : ops.Lawful) (n : ℕ) :
    ops.toList ((List.range n).foldl ops.PushBack ops.empty) = List.range n := by
  induction n with
  | zero => exact hops.empty
  | succ n ih =>
    rw [List.range_succ, List.foldl_append, List.foldl_cons, List.foldl_nil, hops.PushBack, ih]
    rw [ih, List.mem_range]
    exact lt_irrefl n

structure Moved (g : Geometry) (ops : BlockList L) (c c' : Cache L) (set_id : ℕ)
    (way : Option ℕ) : Prop where
  policy : c'.replacement_policy = c.replacement_policy
  way_lt : ∀ w ∈ way, w < g.num_ways
  own : ops.toList (c'.lru_list set_id) =
    way.elim (ops.toList (c.lru_list set_id)) fun w => w :: (ops.toList (c.lru_list set_id)).erase w
  other : ∀ s ≠ set_id, c'.lru_list s = c.lru_list s

theorem moved_none {s : ℕ} (hpolicy : c'.replacement_policy = c.replacement_policy)
    (hlist : c'.lru_list = c.lru_list) : Moved g ops c c' s none where
  policy := hpolicy
  way_lt := fun _ hw => absurd hw (Option.not_mem_none _)
  own := by rw [hlist, Option.elim_none]
  other := fun _ _ => by rw [hlist]

theorem moved_moveToHead (hops : ops.Lawful) (h : Complete g ops c) {s w : ℕ}
    (hw : w < g.num_ways) : Moved g ops c (c.moveToHead ops s w) s (some w) := by
  have herase := hops.Erase (c.lru_list s) w ((h.mem_iff s).mpr hw)
  refine ⟨rfl, fun v hv => ?_, ?_, fun t ht => if_neg ht⟩
  · rwa [← Option.some.inj hv]
  · have hlist : (c.moveToHead ops s w).lru_list s =
        ops.PushFront (ops.Erase (c.lru_list s) w) w := if_pos rfl
    rw [hlist, hops.PushFront, herase, Option.elim_some]
    rw [herase]
    exact (h.nodup s).not_mem_erase

theorem Moved.complete {s : ℕ} {way : Option ℕ} (hm : Moved g ops c c' s way)
    (h : Complete g ops c) : Complete g ops c' := by
  intro t
  by_cases ht : t = s
  · rw [ht, hm.own]
    cases way with
    | none => exact h s
    | some w => exact (perm_touch ((h.mem_iff s).mpr (hm.way_lt w rfl))).trans (h s)
  · rw [hm.other t ht]
    exact h t

theorem back_of_complete (hops : ops.Lawful) (h : Complete g ops c) (s : ℕ) :
    ∃ w, ops.Back (c.lru_list s) = some w ∧ w < g.num_ways := by
  have hne : ops.toList (c.lru_list s) ≠ [] := fun hnil =>
    absurd ((h.mem_iff s).mpr g.num_ways_pos) (by rw [hnil]; exact List.not_mem_nil)
  refine ⟨(ops.toList (c.lru_list s)).getLast hne, ?_, ?_⟩
  · rw [hops.Back, List.getLast?_eq_some_getLast hne]
  · exact (h.mem_iff s).mp (List.getLast_mem hne)

theorem call_moved (hops : ops.Lawful) (h : Complete g ops c)
    (ha : call g ops c a = some c') :
    ∃ way, Moved g ops c c' a.set way ∧ (c.replacement_policy = .LRU → way = used g ops c a) := by
  cases a with
  | setBlock s w tag state =>
    simp only [call, Cache.setBlock] at ha
    split_ifs at ha with hrange hmove
    · obtain rfl := Option.some.inj ha
      have hm := moved_moveToHead hops h hrange.2 (s := s)
      refine ⟨some w, ⟨hm.policy, hm.way_lt, hm.own, hm.other⟩, fun hlru => ?_⟩
      rw [hlru] at hmove
      exact absurd hmove.1 (by decide)
    · obtain rfl := Option.some.inj ha
      exact ⟨none, moved_none rfl rfl, fun _ => rfl⟩
  | AccessBlock s w =>
    simp only [call, Cache.AccessBlock] at ha
    split_ifs at ha with hrange hmove
    · obtain rfl := Option.some.inj ha
      exact ⟨some w, moved_moveToHead hops h hrange.2, fun _ => rfl⟩
    · obtain rfl := Option.some.inj ha
      exact ⟨none, moved_none rfl rfl, fun hlru => absurd (Or.inl hlru) hmove⟩
  | ReplaceBlock s random =>
    obtain ⟨w, hback, hw⟩ := back_of_complete hops h s
    simp only [call, Cache.ReplaceBlock, hback, Option.map_some] at ha
    split_ifs at ha with hset hmove
    · rw [Option.map_some] at ha
      obtain rfl := Option.some.inj ha
      refine ⟨some w, moved_moveToHead hops h hw, fun _ => ?_⟩
      simp only [used, Cache.ReplaceBlock, hback, if_pos hset, if_pos hmove, Option.map_some]
    · rw [Option.map_some] at ha
      obtain rfl := Option.some.inj ha
      exact ⟨none, moved_none rfl rfl, fun hlru => absurd (Or.inl hlru) hmove⟩
    · rw [Option.map_none] at ha
      exact absurd ha (Option.some_ne_none _).symm

/-! Runs of calls. -/

theorem other_sets (ha : call g ops c a = some c') :
    ∀ s ≠ a.set, c'.block s = c.block s := by
  intro t ht
  cases a with
  | setBlock s w tag state =>
    simp only [call, Cache.setBlock] at ha
    split_ifs at ha with hrange hmove
    all_goals
      obtain rfl := Option.some.inj ha
      funext v
      exact if_neg fun hboth => ht hboth.1
  | AccessBlock s w =>
    simp only [call, Cache.AccessBlock] at ha
    split_ifs at ha with hrange hmove
    all_goals
      obtain rfl := Option.some.inj ha
      rfl
  | ReplaceBlock s random =>
    obtain ⟨⟨w, d⟩, hd, rfl⟩ := Option.map_eq_some_iff.mp ha
    simp only [Cache.ReplaceBlock] at hd
    split_ifs at hd with hset hmove
    · obtain ⟨v, -, hv⟩ := Option.map_eq_some_iff.mp hd
      rw [← (Prod.ext_iff.mp hv).2]
      rfl
    · rw [← (Prod.ext_iff.mp (Option.some.inj hd)).2]

/-- Arguments that the assertions on sets and ways admit. -/
def Call.Valid (g : Geometry) : Call → Prop
  | .setBlock s w _ _ => g.InRange s w
  | .AccessBlock s w => g.InRange s w
  | .ReplaceBlock s _ => s < g.num_sets

theorem call_isSome (hops : ops.Lawful) (h : Complete g ops c) (ha : a.Valid g) :
    (call g ops c a).isSome = true := by
  cases a with
  | setBlock s w tag state =>
    simp only [call, Cache.setBlock, if_pos (show g.InRange s w from ha), Option.isSome_some]
  | AccessBlock s w =>
    simp only [call, Cache.AccessBlock, if_pos (show g.InRange s w from ha)]
    split_ifs <;> rfl
  | ReplaceBlock s random =>
    obtain ⟨w, hback, -⟩ := back_of_complete hops h s
    simp only [call, Cache.ReplaceBlock, if_pos (show s < g.num_sets from ha), hback]
    split_ifs <;> rfl

structure Kept (g : Geometry) (ops : BlockList L) (policy : ReplacementPolicy)
    (history : ℕ → List ℕ) (c : Cache L) : Prop where
  governed : c.replacement_policy = policy
  complete : Complete g ops c
  ordered : policy = .LRU → ∀ s, Ordered (· < ·) (history s) (ops.toList (c.lru_list s))

theorem kept_new (hops : ops.Lawful) (policy : ReplacementPolicy) :
    Kept g ops policy (fun _ => []) (Cache.new g ops policy) where
  governed := rfl
  complete := fun _ => List.Perm.of_eq (toList_range hops _)
  ordered := fun _ s => by
    have hlist : ops.toList ((Cache.new g ops policy).lru_list s) = List.range g.num_ways :=
      toList_range hops _
    rw [hlist]
    exact ordered_nil_history List.pairwise_lt_range

theorem kept_call (hops : ops.Lawful) {policy : ReplacementPolicy} {history : ℕ → List ℕ}
    (h : Kept g ops policy history c) (ha : call g ops c a = some c') :
    Kept g ops policy (record g ops history c a c') c' := by
  obtain ⟨way, hm, hused⟩ := call_moved hops h.complete ha
  refine ⟨hm.policy.trans h.governed, hm.complete h.complete, fun hlru s => ?_⟩
  by_cases hs : s = a.set
  · have hway := hused (h.governed.trans hlru)
    have hrecord : record g ops history c a c' s = way.toList ++ history s := by
      rw [hway]
      exact if_pos hs
    rw [hrecord, hs, hm.own]
    cases way with
    | none => exact h.ordered hlru a.set
    | some w => exact (h.ordered hlru a.set).touch (h.complete.nodup a.set) w
  · have hrecord : record g ops history c a c' s = history s := if_neg hs
    rw [hrecord, hm.other s hs]
    exact h.ordered hlru s

/-- Under LRU the way to replace is the one that all others are newer than. -/
theorem replaceBlock_oldest (hops : ops.Lawful) {history : ℕ → List ℕ}
    (h : Kept g ops .LRU history c) {s : ℕ} (hs : s < g.num_sets) (random : ℕ) :
    ∃ way c', c.ReplaceBlock g ops s random = some (way, c') ∧ way < g.num_ways ∧
      ∀ w < g.num_ways, w ≠ way → Newer (· < ·) (history s) w way := by
  obtain ⟨way, hback, hway⟩ := back_of_complete hops h.complete s
  refine ⟨way, c.moveToHead ops s way, ?_, hway, fun w hw hne => ?_⟩
  · rw [Cache.ReplaceBlock, if_pos hs, if_pos (Or.inl h.governed), hback, Option.map_some]
  · refine (h.ordered rfl s).newer_last ?_ ((h.complete.mem_iff s).mpr hw) hne
    rw [← hops.Back, hback]

/-- What the lists guarantee along a run of calls. -/
structure Maintained (g : Geometry) (ops : BlockList L) (policy : ReplacementPolicy)
    (run : List (Call × Cache L)) : Prop where
  permutation : ∀ c ∈ states (Cache.new g ops policy) run, Complete g ops c
  oldest : policy = .LRU →
    ∀ x ∈ ghosts (record g ops) (fun _ => []) (Cache.new g ops policy) run,
      ∀ s < g.num_sets, ∀ random, ∃ way c',
        x.2.1.ReplaceBlock g ops s random = some (way, c') ∧ way < g.num_ways ∧
          ∀ w < g.num_ways, w ≠ way → Newer (· < ·) (x.1 s) w way
  other : ∀ x ∈ transitions (Cache.new g ops policy) run, ∀ s ≠ x.2.1.set,
    x.2.2.lru_list s = x.1.lru_list s ∧ x.2.2.block s = x.1.block s
  asserts : ∀ c ∈ states (Cache.new g ops policy) run, ∀ a : Call, a.Valid g →
    (call g ops c a).isSome = true

/-- Through every run of calls each set keeps all its ways in its list, and LRU replaces the way
that was used the longest ago. -/
theorem lruMaintained_run (hops : ops.Lawful) (policy : ReplacementPolicy)
    {run : List (Call × Cache L)}
    (hrun : IsRun (fun c a c' => call g ops c a = some c') (Cache.new g ops policy) run) :
    Maintained g ops policy run := by
  have hcomplete : ∀ c ∈ states (Cache.new g ops policy) run, Complete g ops c := by
    refine invariant_all (fun c a c' h ha => ?_) hrun (kept_new hops policy).complete
    obtain ⟨way, hm, -⟩ := call_moved hops h ha
    exact hm.complete h
  have hkept := ghosts_invariant (f := record g ops) (fun _ c a c' h ha => kept_call hops h ha) hrun
    (kept_new hops policy)
  constructor
  · exact hcomplete
  · rintro rfl x hx s hs random
    exact replaceBlock_oldest hops (hkept x hx).1 hs random
  · intro x hx s hs
    have hcall := step_of_transition hrun x hx
    obtain ⟨way, hm, -⟩ := call_moved hops (hcomplete x.1 (mem_states_of_transition hx)) hcall
    exact ⟨hm.other s hs, other_sets hcall s hs⟩
  · intro c hc a ha
    exact call_isSome hops (hcomplete c hc) ha

end Lists

def listOfWays : BlockList (List ℕ) where
  empty := []
  toList l := l
  PushBack l w := l ++ [w]
  PushFront l w := w :: l
  Erase l w := l.erase w
  Back l := l.getLast?

theorem lawful_listOfWays : listOfWays.Lawful where
  empty := rfl
  PushBack _ _ _ := rfl
  PushFront _ _ _ := rfl
  Erase _ _ _ := rfl
  Back _ := rfl

def small : Geometry := ⟨2, 4, ⟨1, rfl⟩, ⟨2, rfl⟩⟩

/-- Uses of two ways of one set, between replacements in both sets. -/
def someCalls : List Call :=
  [.AccessBlock 1 3, .ReplaceBlock 1 0, .setBlock 1 2 0x40 .BlockExclusive, .AccessBlock 1 0,
    .ReplaceBlock 0 0, .ReplaceBlock 1 0]

theorem lruMaintained_someCalls :
    (trace (call small listOfWays) (Cache.new small listOfWays .LRU) someCalls).map
        (fun x => x.2.lru_list 1) =
      [[3, 0, 1, 2], [2, 3, 0, 1], [2, 3, 0, 1], [0, 2, 3, 1], [0, 2, 3, 1], [1, 0, 2, 3]] ∧
      Maintained small listOfWays .LRU
        (trace (call small listOfWays) (Cache.new small listOfWays .LRU) someCalls) :=
  ⟨by decide, lruMaintained_run lawful_listOfWays .LRU (isRun_trace _ _ _)⟩

end MMLMStore.CacheReplacement
