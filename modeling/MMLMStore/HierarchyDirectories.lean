import MMLMStore.ClearOwnerMessage
import MMLMStore.ReadRequestOwner
import MMLMStore.SequentialAccesses

/-!
# Directories of modules with blocks of one size

Where the blocks of a module and of the modules above it have one size, an entry of its directory
has one sub-block, with a sharer bit for each node of the network above. What the event chains do to
such an entry, loop by loop, is what the hierarchy does to the owner and the set of sharers.
-/
namespace MMLMStore.ModuleHierarchy

open AlignedBlocks ClearOwnerMessage InvalidateCoverage ReadRequestOwner SharerDirectory
  WriteRequestOwner
open CacheReplacement (BlockState)

/-! The loops over the sub-blocks that the other modules of the directory have no use for. -/

section Loops

variable {g : Geometry}

structure ReadRequest where
  target_module : MemModule
  address : ℕ
  deriving DecidableEq, Repr

/-- One sub-block: its owner is asked unless it is the node to leave out. No result where an
assertion fails. -/
def askOwnerOf (tag : ℕ) (except : Option ℕ) (d : Directory g) (z : ℕ) :
    Option (List ReadRequest) :=
  if g.directoryEntryTag tag z < (tag + g.blockSize) % 2 ^ 32 then
    match d.owner z with
    | none => some []
    | some owner =>
      if some owner = except then
        some []
      else do
        let owner_module ← g.getUserData owner
        if g.directoryEntryTag tag z % owner_module.blockSize ≠ 0 then some []
        else some [⟨owner_module, g.directoryEntryTag tag z⟩]
  else
    none

def askOwners (tag : ℕ) (except : Option ℕ) (d : Directory g) : Option (List ReadRequest) :=
  (List.range g.numSubBlocks).foldlM
    (fun requests z => (askOwnerOf tag except d z).map (requests ++ ·)) []

/-- Event `read_request_updown` of a block that is not invalid: the requests it sends. -/
def readRequestUpdownOwners (tag : ℕ) (module : MemModule) (d : Directory g) :
    Option (List ReadRequest) :=
  askOwners tag (some module.index) d

/-- Event `read_request_downup`: the requests it sends. -/
def readRequestDownupOwners (tag : ℕ) (d : Directory g) : Option (List ReadRequest) :=
  askOwners tag none d

/-- Event `read_request_downup_finish` after an answer from an owner. -/
def clearOwners (d : Directory g) : Directory g :=
  (List.range g.numSubBlocks).foldl (fun d z => d.setOwner z none) d

def isBlockSharedOrOwned (d : Directory g) : Bool :=
  (List.range g.numSubBlocks).any fun z =>
    decide (0 < d.numSharers z) || decide (d.owner z ≠ none)

end Loops

variable {A ι : Type} {h : Hierarchy A ι} {x m : ι}

theorem Hierarchy.blockSize_pos (h : Hierarchy A ι) : 0 < h.blockSize :=
  pos_of_isPowerOfTwo h.blockSize_power

theorem Hierarchy.end_eq (h : Hierarchy A ι) (a : A) :
    (h.tag a + h.blockSize) % 2 ^ 32 = h.tag a + h.blockSize :=
  Nat.mod_eq_of_lt (h.tag_ends a)

theorem Hierarchy.tag_lt (h : Hierarchy A ι) (a : A) : h.tag a < 2 ^ 32 := by
  have hends := h.tag_ends a
  omega

structure Network (h : Hierarchy A ι) (x : ι) where
  node : ι → MemModule
  numNodes : ℕ
  node_inj : Function.Injective node
  blockSize : ∀ m ∈ h.high x, (node m).blockSize = h.blockSize
  subBlockSize : ∀ m ∈ h.high x, (node m).subBlockSize = h.blockSize
  type : ∀ m ∈ h.high x, (node m).type ≠ .LMStore
  index_lt : ∀ m ∈ h.high x, (node m).index < numNodes
  ascending : (h.high x).Pairwise fun m m' => (node m).index < (node m').index

namespace Network

variable (n : Network h x)

theorem index_inj {m m' : ι} (hm : m ∈ h.high x) (hm' : m' ∈ h.high x)
    (heq : (n.node m).index = (n.node m').index) : m = m' := by
  have hnodup : ((h.high x).map fun m => (n.node m).index).Nodup :=
    List.pairwise_map.mpr (n.ascending.imp fun hlt => hlt.ne)
  exact List.inj_on_of_nodup_map hnodup hm hm' heq

def geometry : Geometry where
  blockSize := h.blockSize
  highModules := (h.high x).map n.node
  numNodes := n.numNodes
  blockSize_power := h.blockSize_power
  blockSize_int := h.blockSize_int
  high_power := by
    rw [List.forall_mem_map]
    intro m hm
    rw [n.blockSize m hm]
    exact h.blockSize_power
  high_le := by
    rw [List.forall_mem_map]
    exact fun m hm => (n.blockSize m hm).le
  sub_power := by
    rw [List.forall_mem_map]
    intro m hm
    rw [n.subBlockSize m hm]
    exact h.blockSize_power
  sub_le := by
    rw [List.forall_mem_map]
    intro m hm
    rw [n.subBlockSize m hm, n.blockSize m hm]
  index_lt := by
    rw [List.forall_mem_map]
    exact n.index_lt
  index_inj := by
    simp only [List.forall_mem_map]
    intro m hm m' hm' heq
    rw [n.index_inj hm hm' heq]

theorem mem_highModules (hm : m ∈ h.high x) : n.node m ∈ n.geometry.highModules :=
  List.mem_map_of_mem hm

theorem getUserData_node (hm : m ∈ h.high x) :
    n.geometry.getUserData (n.node m).index = some (n.node m) :=
  n.geometry.getUserData_eq_some.mpr ⟨n.mem_highModules hm, rfl⟩

theorem subBlockSize_eq : n.geometry.subBlockSize = h.blockSize := by
  refine (foldl_min_blockSize (· = h.blockSize) _ _ rfl ?_).1
  change ∀ m ∈ (h.high x).map n.node, m.blockSize = h.blockSize
  rw [List.forall_mem_map]
  exact n.blockSize

@[simp] theorem numSubBlocks_eq : n.geometry.numSubBlocks = 1 := by
  rw [Geometry.numSubBlocks, n.subBlockSize_eq]
  exact Nat.div_self h.blockSize_pos

def tag (a : A) : n.geometry.BlockTag where
  val := h.tag a
  aligned := h.tag_aligned a
  lt := h.tag_lt a

theorem directoryEntryTag_zero (a : A) : n.geometry.directoryEntryTag (h.tag a) 0 = h.tag a := by
  have hends := h.tag_ends a
  rw [Geometry.directoryEntryTag, Nat.zero_mul, Nat.add_zero]
  exact Nat.mod_eq_of_lt (by omega)

/-- The assertion of the loops on the tag of a sub-block. -/
theorem directoryEntryTag_lt (a : A) {z : ℕ} (hz : z < n.geometry.numSubBlocks) :
    n.geometry.directoryEntryTag (h.tag a) z < (h.tag a + n.geometry.blockSize) % 2 ^ 32 := by
  obtain rfl : z = 0 := by simpa using hz
  change _ < (h.tag a + h.blockSize) % 2 ^ 32
  rw [n.directoryEntryTag_zero, h.end_eq]
  exact Nat.lt_add_of_pos_right h.blockSize_pos

/-- Any byte of a block has the block's tag. -/
theorem tagOf_eq {a : A} {address : ℕ} (hlt : address < 2 ^ 32) (hlow : h.tag a ≤ address)
    (hhigh : address < h.tag a + h.blockSize) : tagOf n.geometry address hlt = n.tag a := by
  have hbase : blockBase h.blockSize address = h.tag a :=
    ((eq_blockBase_iff h.blockSize_pos).mpr ⟨h.tag_aligned a, hlow, hhigh⟩).symm
  unfold tagOf tag
  congr 1

theorem high_nodup (n : Network h x) : (h.high x).Nodup := by
  refine n.ascending.imp fun {m m'} hlt heq => ?_
  rw [heq] at hlt
  exact lt_irrefl _ hlt

theorem filterMap_getUserData :
    (List.range n.numNodes).filterMap n.geometry.getUserData = (h.high x).map n.node := by
  have hirrefl : Std.Irrefl fun u v : MemModule => u.index < v.index :=
    ⟨fun u => lt_irrefl u.index⟩
  have hantisymm : Std.Antisymm fun u v : MemModule => u.index < v.index :=
    ⟨fun u v huv hvu => absurd huv hvu.asymm⟩
  apply List.Pairwise.eq_of_mem_iff (r := fun u v : MemModule => u.index < v.index)
  · refine List.pairwise_lt_range.filterMap _ fun i i' hlt u hu u' hu' => ?_
    rw [(n.geometry.getUserData_eq_some.mp hu).2, (n.geometry.getUserData_eq_some.mp hu').2]
    exact hlt
  · exact List.pairwise_map.mpr n.ascending
  · intro u
    simp only [List.mem_filterMap, List.mem_range, Geometry.getUserData_eq_some]
    constructor
    · rintro ⟨i, -, hu, -⟩
      exact hu
    · intro hu
      exact ⟨u.index, n.geometry.index_lt u hu, hu, rfl⟩

end Network

def unshared (g : Geometry) : Directory g where
  sharers _ _ := false
  owner _ := none
  numSharers _ := 0
  sharer_high := by simp
  numSharers_eq := by simp

structure Represents (n : Network h x) (e : Entry ι) (d : Directory n.geometry) : Prop where
  sharers : ∀ m ∈ h.high x, d.sharers 0 (n.node m).index = true ↔ m ∈ e.sharers
  owner : d.owner 0 = e.owner.map fun m => (n.node m).index
  sharers_high : ∀ m ∈ e.sharers, m ∈ h.high x
  owner_high : ∀ m ∈ e.owner, m ∈ h.high x

namespace Represents

variable {n : Network h x} {e : Entry ι} {d : Directory n.geometry} {s : Copies ι}

theorem owner_iff (hrep : Represents n e d) (hm : m ∈ h.high x) :
    d.owner 0 = some (n.node m).index ↔ e.owner = some m := by
  rw [hrep.owner]
  cases howner : e.owner with
  | none => simp
  | some m' =>
    simp only [Option.map_some, Option.some.injEq]
    exact ⟨n.index_inj (hrep.owner_high m' howner) hm, congrArg fun m => (n.node m).index⟩

theorem exists_sharer (hrep : Represents n e d) {i : ℕ} (hi : d.sharers 0 i = true) :
    ∃ m ∈ e.sharers, (n.node m).index = i := by
  obtain ⟨_, hhigh, rfl⟩ := d.sharer_high 0 i hi
  obtain ⟨m, hm, rfl⟩ := List.mem_map.mp hhigh
  exact ⟨m, (hrep.sharers m hm).mp hi, rfl⟩

theorem numSharers (hrep : Represents n e d) [DecidableEq ι] :
    d.numSharers 0 = e.sharers.card := by
  have hbits : (Finset.range n.geometry.numNodes).filter (fun i => d.sharers 0 i = true) =
      e.sharers.image fun m => (n.node m).index := by
    ext i
    simp only [Finset.mem_filter, Finset.mem_range, Finset.mem_image]
    constructor
    · intro hi
      exact hrep.exists_sharer hi.2
    · rintro ⟨m, hm, rfl⟩
      have hhigh := hrep.sharers_high m hm
      exact ⟨n.index_lt m hhigh, (hrep.sharers m hhigh).mpr hm⟩
  rw [d.numSharers_eq, hbits, Finset.card_image_of_injOn]
  intro m hm m' hm' heq
  exact n.index_inj (hrep.sharers_high m hm) (hrep.sharers_high m' hm') heq

theorem empty : Represents n (Entry.empty : Entry ι) (unshared n.geometry) :=
  ⟨by simp [Entry.empty, unshared], rfl, by simp [Entry.empty], by simp [Entry.empty]⟩

variable [DecidableEq ι]

theorem setSharer (hrep : Represents n (s x) d) (hm : m ∈ h.high x) :
    Represents n (s.setSharer x m x) (d.setSharer 0 (n.node m) (n.mem_highModules hm)) := by
  constructor
  case sharers =>
    intro m' hm'
    have hindex : (n.node m').index = (n.node m).index ↔ m' = m :=
      ⟨n.index_inj hm' hm, congrArg fun m => (n.node m).index⟩
    by_cases heq : m' = m
    · simp [heq]
    · simp [heq, hindex, hrep.sharers m' hm']
  case owner => simpa using hrep.owner
  case sharers_high =>
    intro m' hm'
    rw [Copies.setSharer_sharers, if_pos rfl, Finset.mem_insert] at hm'
    rcases hm' with rfl | hm'
    · exact hm
    · exact hrep.sharers_high m' hm'
  case owner_high => simpa using hrep.owner_high

theorem setOwner (hrep : Represents n (s x) d) {owner : Option ι}
    (howner : ∀ m ∈ owner, m ∈ h.high x) :
    Represents n (s.setOwner x owner x)
      (d.setOwner 0 (owner.map fun m => (n.node m).index)) := by
  constructor
  case sharers => simpa using hrep.sharers
  case owner => simp
  case sharers_high => simpa using hrep.sharers_high
  case owner_high => simpa using howner

theorem clearNode (hrep : Represents n (s x) d) (hm : m ∈ h.high x) :
    Represents n (s.clearNode x m x) (d.dropNode 0 (n.node m).index) := by
  constructor
  case sharers =>
    intro m' hm'
    have hindex : (n.node m').index = (n.node m).index ↔ m' = m :=
      ⟨n.index_inj hm' hm, congrArg fun m => (n.node m).index⟩
    by_cases heq : m' = m
    · simp [heq]
    · simp [heq, hindex, hrep.sharers m' hm']
  case owner =>
    by_cases howner : (s x).owner = some m
    · simp [howner, hrep.owner]
    · have hother : ¬d.owner 0 = some (n.node m).index := mt (hrep.owner_iff hm).mp howner
      rw [Directory.dropNode_owner, if_neg fun hc => hother hc.2, Copies.clearNode_owner,
        if_neg fun hc => howner hc.2]
      exact hrep.owner
  case sharers_high =>
    intro m' hm'
    rw [Copies.clearNode_sharers, if_pos rfl] at hm'
    exact hrep.sharers_high m' (Finset.mem_of_mem_erase hm')
  case owner_high =>
    intro m' hm'
    rw [Copies.clearNode_owner] at hm'
    split_ifs at hm'
    · cases hm'
    · exact hrep.owner_high m' hm'

end Represents

section Handlers

variable [DecidableEq ι] {n : Network h x} {d : Directory n.geometry} {s : Copies ι}
  (hm : m ∈ h.high x) (a : A)

/-- A read request of a module above for its block, answered by the requests it has made. -/
def Network.readRequest (n : Network h x) (hm : m ∈ h.high x) (a : A) (state : BlockState)
    (nc_write shared : Bool) : ReadRequestFrame n.geometry where
  module := n.node m
  high := n.mem_highModules hm
  address := h.tag a
  aligned := by
    rw [n.blockSize m hm]
    exact h.tag_aligned a
  address_lt := h.tag_lt a
  state := state
  nc_write := nc_write
  shared := shared
  retain_owner := false

omit [DecidableEq ι] in
theorem readRequest_covers (state : BlockState) (nc_write shared : Bool) :
    (n.readRequest hm a state nc_write shared).covers 0 = true := by
  have htag : (n.readRequest hm a state nc_write shared).tag = n.tag a :=
    n.tagOf_eq (h.tag_lt a) (le_refl _) (Nat.lt_add_of_pos_right h.blockSize_pos)
  rw [ReadRequestFrame.covers_iff, htag]
  change h.tag a ≤ n.geometry.directoryEntryTag (h.tag a) 0 ∧
    n.geometry.directoryEntryTag (h.tag a) 0 < (h.tag a + (n.node m).blockSize) % 2 ^ 32
  rw [n.blockSize m hm, h.end_eq, n.directoryEntryTag_zero]
  exact ⟨le_refl _, Nat.lt_add_of_pos_right h.blockSize_pos⟩

/-- The owner that is not the requesting module is cleared, as the loop over the entry does. -/
theorem Represents.cleared (hrep : Represents n (s x) d) (state : BlockState)
    (nc_write shared : Bool) :
    Represents n ((if (s x).owner = some m then s else s.setOwner x none) x)
      ((n.readRequest hm a state nc_write shared).cleared d) := by
  have hone : (n.readRequest hm a state nc_write shared).cleared d =
      if d.owner 0 ≠ some (n.node m).index then d.setOwner 0 none else d := by
    rw [ReadRequestFrame.cleared, if_neg (by simp [Network.readRequest]), n.numSubBlocks_eq]
    rfl
  rw [hone]
  by_cases howner : (s x).owner = some m
  · rw [if_pos howner, if_neg (not_not_intro ((hrep.owner_iff hm).mpr howner))]
    exact hrep
  · rw [if_neg howner, if_pos (mt (hrep.owner_iff hm).mp howner)]
    exact hrep.setOwner (by simp)

/-- Over one sub-block that is covered the loops of a read request run once. -/
theorem readRequestUpdownFinish_eq {g : Geometry} (f : ReadRequestFrame g)
    (hone : g.numSubBlocks = 1) (hcovers : f.covers 0 = true) (d : Directory g) :
    (f.readRequestUpdownFinish d).2 =
        (decide (1 < ((f.cleared d).setSharer 0 f.module f.high).numSharers 0) || f.noExclusive) ∧
      (f.readRequestUpdownFinish d).1 =
        if (f.readRequestUpdownFinish d).2 = true then (f.cleared d).setSharer 0 f.module f.high
        else ((f.cleared d).setSharer 0 f.module f.high).setOwner 0 (some f.module.index) := by
  unfold ReadRequestFrame.readRequestUpdownFinish
  simp only [hone, List.range_one, List.foldl_cons, List.foldl_nil, ReadRequestFrame.visit,
    ReadRequestFrame.takeOwner, hcovers, if_true, Bool.false_or]
  cases (decide (1 < ((f.cleared d).setSharer 0 f.module f.high).numSharers 0) || f.noExclusive)
  · exact ⟨rfl, rfl⟩
  · exact ⟨rfl, rfl⟩

theorem Represents.readRequestUpdownFinish (hrep : Represents n (s x) d) (state : BlockState)
    (nc_write shared : Bool) :
    Represents n ((ModuleHierarchy.readRequestUpdownFinish m x state nc_write shared s).2 x)
        ((n.readRequest hm a state nc_write shared).readRequestUpdownFinish d).1 ∧
      ((n.readRequest hm a state nc_write shared).readRequestUpdownFinish d).2 =
        (ModuleHierarchy.readRequestUpdownFinish m x state nc_write shared s).1 := by
  have howner : ∀ m' ∈ some m, m' ∈ h.high x := by simpa using hm
  have hjoined := (hrep.cleared hm a state nc_write shared).setSharer hm
  obtain ⟨hflag, hdir⟩ := readRequestUpdownFinish_eq (n.readRequest hm a state nc_write shared)
    n.numSubBlocks_eq (readRequest_covers hm a _ _ _) d
  have hshared : ((n.readRequest hm a state nc_write shared).readRequestUpdownFinish d).2 =
      (ModuleHierarchy.readRequestUpdownFinish m x state nc_write shared s).1 := by
    refine hflag.trans ?_
    change (decide (1 < (((n.readRequest hm a state nc_write shared).cleared d).setSharer 0
      (n.node m) (n.mem_highModules hm)).numSharers 0) || _) = _
    rw [hjoined.numSharers, ReadRequestFrame.noExclusive, ← Bool.or_assoc, ← Bool.or_assoc]
    rfl
  refine ⟨?_, hshared⟩
  rw [hdir, hshared]
  by_cases hnot : (ModuleHierarchy.readRequestUpdownFinish m x state nc_write shared s).1 = true
  · have hkept : (ModuleHierarchy.readRequestUpdownFinish m x state nc_write shared s).2 =
        (if (s x).owner = some m then s else s.setOwner x none).setSharer x m := if_pos hnot
    rw [if_pos hnot, hkept]
    exact hjoined
  · have htaken : (ModuleHierarchy.readRequestUpdownFinish m x state nc_write shared s).2 =
        ((if (s x).owner = some m then s else s.setOwner x none).setSharer x m).setOwner x
          (some m) := if_neg hnot
    rw [if_neg hnot, htaken]
    exact hjoined.setOwner howner

/-- The invalidate event for a block, of the module itself or on behalf of another one. -/
def Network.invalidate (n : Network h x) (except_module : Option ι) (a : A) (address : ℕ)
    (partial_invalidation : Bool) : InvalidateFrame n.geometry where
  tag := n.tag a
  address := address
  except_module := except_module.map n.node
  partial_invalidation := partial_invalidation

section Invalidate

variable {except_module : Option ι} {address : ℕ} {partial_invalidation : Bool}
  {st : Invalidation n.geometry}

omit [DecidableEq ι] in
theorem Represents.visitNode_taken (hrep : Represents n (s x) st.directory)
    (hsharer : m ∈ (s x).sharers) (hexcept : some m ≠ except_module) :
    (n.invalidate except_module a address partial_invalidation).visitNode 0 st (n.node m).index =
      { directory := st.directory.dropNode 0 (n.node m).index
        pending := st.pending + 1
        requests := st.requests ++ [⟨n.node m, h.tag a⟩] } := by
  have hm := hrep.sharers_high m hsharer
  have hbit : st.directory.sharers 0 (n.node m).index = true := (hrep.sharers m hm).mpr hsharer
  have hother : some (n.node m) ≠ except_module.map n.node := by
    intro heq
    obtain ⟨m', hm', hnode⟩ := Option.map_eq_some_iff.mp heq.symm
    exact hexcept (by rw [hm', n.node_inj hnode])
  have hmid : h.tag a % h.blockSize = 0 := Nat.mod_eq_zero_of_dvd (h.tag_aligned a)
  have htag : n.geometry.directoryEntryTag (n.tag a).val 0 = h.tag a := n.directoryEntryTag_zero a
  simp [InvalidateFrame.visitNode, Network.invalidate, hbit, n.getUserData_node hm, hother, htag,
    n.blockSize m hm, hmid]

omit [DecidableEq ι] in
theorem Represents.visitNode_left (hm : m ∈ h.high x) (hrep : Represents n (s x) st.directory)
    (hleft : ¬(m ∈ (s x).sharers ∧ some m ≠ except_module)) :
    (n.invalidate except_module a address partial_invalidation).visitNode 0 st (n.node m).index =
      st := by
  unfold InvalidateFrame.visitNode
  by_cases hsharer : m ∈ (s x).sharers
  · have hexcept : some m = except_module := by simpa [hsharer] using hleft
    rw [n.getUserData_node hm]
    simp [Network.invalidate, ← hexcept]
  · have hbit : st.directory.sharers 0 (n.node m).index = false := by
      rw [← Bool.not_eq_true, hrep.sharers m hm]
      exact hsharer
    rw [if_pos hbit]

theorem otherSharers_clearNode {nodes : List ι} (hm : m ∉ nodes) :
    otherSharers nodes x except_module (s.clearNode x m) =
      otherSharers nodes x except_module s := by
  apply List.filter_congr
  intro m' hm'
  have hne : m' ≠ m := ne_of_mem_of_not_mem hm' hm
  simp [hne]

/-- The visits of some nodes above drop those of them that are other sharers, in their order. -/
theorem Represents.foldl_visitNode (hrep : Represents n (s x) st.directory) (nodes : List ι)
    (hhigh : ∀ m ∈ nodes, m ∈ h.high x) (hnodup : nodes.Nodup) :
    ∃ d', nodes.foldl (fun st m => (n.invalidate except_module a address
        partial_invalidation).visitNode 0 st (n.node m).index) st =
          { directory := d'
            pending := st.pending + (otherSharers nodes x except_module s).length
            requests := st.requests ++ (otherSharers nodes x except_module s).map fun m =>
              ⟨n.node m, h.tag a⟩ } ∧
      Represents n ((otherSharers nodes x except_module s).foldl (fun s m => s.clearNode x m) s x)
        d' := by
  induction nodes generalizing s st with
  | nil => exact ⟨st.directory, by simp [otherSharers], hrep⟩
  | cons m nodes ih =>
    rw [List.forall_mem_cons] at hhigh
    rw [List.nodup_cons] at hnodup
    rw [List.foldl_cons]
    by_cases htaken : m ∈ (s x).sharers ∧ some m ≠ except_module
    · have hothers : otherSharers (m :: nodes) x except_module s =
          m :: otherSharers nodes x except_module (s.clearNode x m) := by
        rw [otherSharers_clearNode hnodup.1, otherSharers,
          List.filter_cons_of_pos (by simpa using htaken)]
        rfl
      rw [hrep.visitNode_taken a htaken.1 htaken.2, hothers]
      have hcleared : Represents n (s.clearNode x m x)
          (Invalidation.mk (st.directory.dropNode 0 (n.node m).index) (st.pending + 1)
            (st.requests ++ [⟨n.node m, h.tag a⟩])).directory := hrep.clearNode hhigh.1
      obtain ⟨d', hfold, hrep'⟩ := ih hcleared hhigh.2 hnodup.2
      refine ⟨d', hfold.trans ?_, hrep'⟩
      simp only [List.length_cons, List.map_cons, List.append_assoc, List.singleton_append]
      congr 1
      omega
    · have hothers : otherSharers (m :: nodes) x except_module s =
          otherSharers nodes x except_module s := by
        rw [otherSharers, List.filter_cons_of_neg (by simpa using htaken)]
        rfl
      rw [hrep.visitNode_left a hhigh.1 htaken, hothers]
      exact ih hrep hhigh.2 hnodup.2

omit [DecidableEq ι] in
/-- A partial invalidation for a byte of the block visits the sub-block. -/
theorem skips_eq_false {a : A} (hlow : h.tag a ≤ address)
    (hhigh : address < h.tag a + h.blockSize) :
    (n.invalidate except_module a address partial_invalidation).skips 0 = false := by
  cases partial_invalidation with
  | false => rfl
  | true =>
    rw [InvalidateFrame.skips_eq_false_iff _ rfl]
    change n.geometry.directoryEntryTag (h.tag a) 0 ≤ address ∧
      address < (n.geometry.directoryEntryTag (h.tag a) 0 + n.geometry.subBlockSize) % 2 ^ 32
    rw [n.directoryEntryTag_zero, n.subBlockSize_eq, h.end_eq]
    exact ⟨hlow, hhigh⟩

/-- The invalidate event clears the entry as the hierarchy does and sends the same requests. -/
theorem Represents.invalidate (hrep : Represents n (s x) d) (hlow : h.tag a ≤ address)
    (hhigh : address < h.tag a + h.blockSize) :
    ∃ d', (n.invalidate except_module a address partial_invalidation).invalidate d =
          { directory := d'
            pending := (otherSharers (h.high x) x except_module s).length + 1
            requests := (otherSharers (h.high x) x except_module s).map fun m =>
              ⟨n.node m, h.tag a⟩ } ∧
      Represents n ((otherSharers (h.high x) x except_module s).foldl
        (fun s m => s.clearNode x m) s x) d' := by
  have hskip : (n.invalidate except_module a address partial_invalidation).skips 0 = false :=
    skips_eq_false hlow hhigh
  have hnode : ∀ st i,
      (n.invalidate except_module a address partial_invalidation).visitNode 0 st i =
        (n.geometry.getUserData i).elim st fun u =>
          (n.invalidate except_module a address partial_invalidation).visitNode 0 st u.index := by
    intro st i
    cases hdata : n.geometry.getUserData i with
    | none => simp [InvalidateFrame.visitNode, hdata]
    | some u => rw [Option.elim_some, (n.geometry.getUserData_eq_some.mp hdata).2]
  have hfold : (n.invalidate except_module a address partial_invalidation).invalidate d =
      (h.high x).foldl (fun st m => (n.invalidate except_module a address
        partial_invalidation).visitNode 0 st (n.node m).index) ⟨d, 1, []⟩ := by
    rw [InvalidateFrame.invalidate, n.numSubBlocks_eq, List.range_one, List.foldl_cons,
      List.foldl_nil, InvalidateFrame.visitSubBlock, if_neg (by simp [hskip])]
    calc (List.range n.numNodes).foldl ((n.invalidate except_module a address
          partial_invalidation).visitNode 0) ⟨d, 1, []⟩
        = ((List.range n.numNodes).filterMap n.geometry.getUserData).foldl (fun st u =>
            (n.invalidate except_module a address partial_invalidation).visitNode 0 st u.index)
            ⟨d, 1, []⟩ := by
          rw [List.foldl_filterMap]
          exact List.foldl_ext _ _ _ fun st i _ => (hnode st i).trans (by
            cases n.geometry.getUserData i <;> rfl)
      _ = _ := by rw [n.filterMap_getUserData, List.foldl_map]
  have hstart : Represents n (s x) (Invalidation.mk d 1 []).directory := hrep
  obtain ⟨d', hend, hrep'⟩ := hstart.foldl_visitNode a (h.high x) (fun _ hm => hm) n.high_nodup
  refine ⟨d', ?_, hrep'⟩
  rw [hfold, hend, List.nil_append, Nat.add_comm]

end Invalidate

section Requests

omit [DecidableEq ι]

/-- An up-down write request of a module above for a byte of its block. -/
def Network.writeRequest (n : Network h x) (hm : m ∈ h.high x) (address : ℕ)
    (hlt : address < 2 ^ 32) : WriteRequestFrame n.geometry where
  module := n.node m
  high := n.mem_highModules hm
  address := address
  address_lt := hlt

def Network.message (n : Network h x) (hm : m ∈ h.high x) (a : A) (directorySize : ℕ) :
    MessageFrame n.geometry where
  module := n.node m
  high := n.mem_highModules hm
  address := h.tag a
  aligned := by
    rw [n.blockSize m hm]
    exact h.tag_aligned a
  address_lt := h.tag_lt a
  directorySize := directorySize

variable {a} {address : ℕ}

theorem writeRequest_tag (hlow : h.tag a ≤ address) (hhigh : address < h.tag a + h.blockSize)
    (hlt : address < 2 ^ 32) : (n.writeRequest hm address hlt).tag = n.tag a :=
  n.tagOf_eq hlt hlow hhigh

theorem writeRequest_covers (hlow : h.tag a ≤ address) (hhigh : address < h.tag a + h.blockSize)
    (hlt : address < 2 ^ 32) :
    (n.writeRequest hm address hlt).covers 0 = true := by
  rw [WriteRequestFrame.covers_iff, writeRequest_tag hm hlow hhigh hlt]
  change n.geometry.directoryEntryTag (h.tag a) 0 ≤ address ∧
    address < (n.geometry.directoryEntryTag (h.tag a) 0 + (n.node m).subBlockSize) % 2 ^ 32
  rw [n.directoryEntryTag_zero, n.subBlockSize m hm, h.end_eq]
  exact ⟨hlow, hhigh⟩

theorem writeRequest_action (hlow : h.tag a ≤ address) (hhigh : address < h.tag a + h.blockSize)
    (hlt : address < 2 ^ 32) :
    (n.writeRequest hm address hlt).writeRequestAction d =
      ((n.invalidate (some m) a address true).invalidate d).directory := by
  have htype : (n.writeRequest hm address hlt).module.type ≠ .LMStore := n.type m hm
  unfold WriteRequestFrame.writeRequestAction WriteRequestFrame.invalidateFrame
  rw [if_neg htype, writeRequest_tag hm hlow hhigh hlt]
  rfl

end Requests

/-- What a write request invalidates before it goes on. -/
theorem Represents.writeRequestAction (hrep : Represents n (s x) d) {address : ℕ}
    (hlow : h.tag a ≤ address) (hhigh : address < h.tag a + h.blockSize)
    (hlt : address < 2 ^ 32) :
    Represents n ((otherSharers (h.high x) x (some m) s).foldl (fun s m => s.clearNode x m) s x)
      ((n.writeRequest hm address hlt).writeRequestAction d) := by
  obtain ⟨d', hinvalidate, hrep'⟩ := hrep.invalidate a hlow hhigh
  rw [writeRequest_action hm hlow hhigh hlt, hinvalidate]
  exact hrep'

theorem Represents.writeRequestUpdownFinish (hrep : Represents n (s x) d) {address : ℕ}
    (hlow : h.tag a ≤ address) (hhigh : address < h.tag a + h.blockSize)
    (hlt : address < 2 ^ 32) :
    Represents n (((s.setSharer x m).setOwner x (some m)) x)
      ((n.writeRequest hm address hlt).writeRequestUpdownFinish d) := by
  have howner : ∀ m' ∈ some m, m' ∈ h.high x := by simpa using hm
  have hone : (n.writeRequest hm address hlt).writeRequestUpdownFinish d =
      (d.setSharer 0 (n.node m) (n.mem_highModules hm)).setOwner 0 (some (n.node m).index) := by
    rw [WriteRequestFrame.writeRequestUpdownFinish, n.numSubBlocks_eq, List.range_one,
      List.foldl_cons, List.foldl_nil, WriteRequestFrame.setNode,
      if_pos (writeRequest_covers hm hlow hhigh hlt)]
    rfl
  rw [hone]
  exact (hrep.setSharer hm).setOwner howner

theorem Represents.evictProcess (hm : m ∈ h.high x) (hrep : Represents n (s x) d) :
    Represents n (s.clearNode x m x) (WriteRequestOwner.evictProcess (n.node m) (h.tag a) d) := by
  have hbase : blockBase n.geometry.blockSize (h.tag a) = h.tag a :=
    blockBase_eq_self.mpr (h.tag_aligned a)
  have hevicts : evicts n.geometry (n.node m) (h.tag a) (h.tag a) 0 = true := by
    rw [evicts_iff, n.directoryEntryTag_zero, n.blockSize m hm, h.end_eq]
    exact ⟨le_refl _, Nat.lt_add_of_pos_right h.blockSize_pos⟩
  rw [WriteRequestOwner.evictProcess, hbase, n.numSubBlocks_eq, List.range_one, List.foldl_cons,
    List.foldl_nil, evictNode, if_pos hevicts]
  exact hrep.clearNode hm

theorem Represents.messageAction (hrep : Represents n (s x) d) {directorySize : ℕ}
    (hsize : 0 < directorySize) :
    ∃ d', (n.message hm a directorySize).messageAction d = some d' ∧
      Represents n (s.setOwner x none x) d' := by
  have htag : (n.message hm a directorySize).tag = n.tag a :=
    n.tagOf_eq (h.tag_lt a) (le_refl _) (Nat.lt_add_of_pos_right h.blockSize_pos)
  have hselects : ∀ z, (n.message hm a directorySize).Selects z ↔ z = 0 := by
    intro z
    rw [MessageFrame.selects_iff, n.numSubBlocks_eq, Nat.mul_one, MessageFrame.offset, htag]
    exact Eq.congr_right (Nat.sub_self (h.tag a))
  refine ⟨d.setOwner 0 none, ?_, hrep.setOwner (by simp)⟩
  obtain ⟨size, rfl⟩ := Nat.exists_eq_succ_of_ne_zero hsize.ne'
  rw [MessageFrame.messageAction_eq_some_iff]
  constructor
  · intro z hz
    rw [(hselects z).mp ((MessageFrame.selects_iff _ z).mpr hz.2), n.numSubBlocks_eq]
    exact Nat.one_pos
  · change _ = (List.range (size + 1)).foldl _ d
    rw [List.range_succ_eq_map, List.foldl_cons, if_pos ((hselects 0).mpr rfl), List.foldl_map]
    refine (List.foldl_fixed' (fun z => ?_) _).symm
    rw [if_neg (by simp [hselects])]

omit [DecidableEq ι] in
/-- The only owner that can be asked is that of the entry. -/
theorem Represents.askOwners {e : Entry ι} (hrep : Represents n e d) (except : Option ℕ) :
    ModuleHierarchy.askOwners (h.tag a) except d = some (e.owner.elim [] fun owner =>
      if some (n.node owner).index = except then [] else [⟨n.node owner, h.tag a⟩]) := by
  have hassert := n.directoryEntryTag_lt a (z := 0) (by simp)
  have hmid : h.tag a % h.blockSize = 0 := Nat.mod_eq_zero_of_dvd (h.tag_aligned a)
  unfold ModuleHierarchy.askOwners askOwnerOf
  rw [n.numSubBlocks_eq, List.range_one, List.foldlM_cons, if_pos hassert, hrep.owner]
  cases howner : e.owner with
  | none => rfl
  | some owner =>
    have hhigh := hrep.owner_high owner howner
    by_cases hexcept : some (n.node owner).index = except
    · subst hexcept
      simp
    · simp [hexcept, n.getUserData_node hhigh, n.directoryEntryTag_zero, n.blockSize owner hhigh,
        hmid]

theorem Represents.readRequestUpdownOwners {e : Entry ι} (hm : m ∈ h.high x)
    (hrep : Represents n e d) :
    ModuleHierarchy.readRequestUpdownOwners (h.tag a) (n.node m) d =
      some (e.owner.elim [] fun owner =>
        if owner = m then [] else [⟨n.node owner, h.tag a⟩]) := by
  unfold ModuleHierarchy.readRequestUpdownOwners
  rw [hrep.askOwners]
  cases howner : e.owner with
  | none => rfl
  | some owner =>
    have hindex : some (n.node owner).index = some (n.node m).index ↔ owner = m := by
      rw [Option.some.injEq]
      exact ⟨n.index_inj (hrep.owner_high owner howner) hm, congrArg fun m => (n.node m).index⟩
    simp only [Option.elim_some, hindex]

omit [DecidableEq ι] in
theorem Represents.readRequestDownupOwners {e : Entry ι} (hrep : Represents n e d) :
    ModuleHierarchy.readRequestDownupOwners (h.tag a) d =
      some (e.owner.elim [] fun owner => [⟨n.node owner, h.tag a⟩]) := by
  unfold ModuleHierarchy.readRequestDownupOwners
  rw [hrep.askOwners]
  cases e.owner <;> rfl

theorem Represents.clearOwners (hrep : Represents n (s x) d) :
    Represents n (s.setOwner x none x) (ModuleHierarchy.clearOwners d) := by
  rw [ModuleHierarchy.clearOwners, n.numSubBlocks_eq]
  exact hrep.setOwner (by simp)

theorem Represents.isBlockSharedOrOwned_iff {e : Entry ι} (hrep : Represents n e d) :
    ModuleHierarchy.isBlockSharedOrOwned d = true ↔ e.isBlockSharedOrOwned := by
  rw [ModuleHierarchy.isBlockSharedOrOwned, n.numSubBlocks_eq, List.range_one, List.any_cons,
    List.any_nil, Bool.or_false, Bool.or_eq_true, decide_eq_true_iff, decide_eq_true_iff,
    hrep.numSharers, hrep.owner, Finset.card_pos, Finset.nonempty_iff_ne_empty]
  exact or_congr Iff.rfl (not_congr Option.map_eq_none_iff)

end Handlers

/-- The network between the two first-level caches and the one below them. -/
def belowBoth : Network threeCaches 2 where
  node m := ⟨toString m, .Cache, 32, 32, m⟩
  numNodes := 3
  node_inj _ _ heq := congrArg MemModule.index heq
  blockSize _ _ := rfl
  subBlockSize _ _ := rfl
  type _ _ := by simp
  index_lt := by decide
  ascending := by decide

/-- A load of the first cache makes it the owner of the block. -/
example : ((belowBoth.readRequest (m := 0) (by decide) 1 .BlockExclusive false
    false).readRequestUpdownFinish (unshared _)).1.owner 0 = some 0 := by
  decide +kernel

end MMLMStore.ModuleHierarchy
