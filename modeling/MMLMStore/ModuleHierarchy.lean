import MMLMStore.CacheReplacement
import MMLMStore.ParentTrees

/-!
# Event chains of the module hierarchy

A load, a store or a non-coherent store sends requests down to the modules that serve its block
and up to the modules that hold copies of it. A chain runs here to its end before the next one
starts. All modules have blocks of one size, so a directory has one entry for a block, and the
place of a block in a cache is left out: a module that misses names the block it gives up. No block
is the last of the address space, whose end is zero in 32 bits.
-/
namespace MMLMStore.ModuleHierarchy

open CacheReplacement ParentTrees
open BlockState

inductive Reply
  | ReplyNone
  | ReplyAck
  | ReplyAckData
  deriving DecidableEq, Repr

open Reply

def Reply.rank : Reply → ℕ
  | ReplyNone => 0
  | ReplyAck => 1
  | ReplyAckData => 2

def Reply.setReplyIfHigher (reply new : Reply) : Reply :=
  if reply.rank < new.rank then new else reply

/-- Blocks and modules, each module with the one it sends the requests for a block to and the
modules that its own requests for copies go to, in the order of their network's nodes. -/
structure Hierarchy (A ι : Type) where
  blockSize : ℕ
  tag : A → ℕ
  low : A → ι → Option ι
  mainMemory : ι → Bool
  high : ι → List ι
  level : ι → ℕ
  height : ℕ
  blockSize_power : blockSize.isPowerOfTwo
  blockSize_int : blockSize < 2 ^ 31
  tag_aligned : ∀ a, blockSize ∣ tag a
  tag_inj : Function.Injective tag
  tag_ends : ∀ a, tag a + blockSize < 2 ^ 32
  main_low : ∀ a m, mainMemory m = true → low a m = none
  low_high : ∀ a m t, low a m = some t → m ∈ high t
  leveled : ∀ a, Leveled (low a) level
  level_le : ∀ m, level m ≤ height

/-- What a module holds for a block: the state in its cache and the entry of its directory. -/
structure Entry (ι : Type) where
  state : BlockState
  owner : Option ι
  sharers : Finset ι

abbrev Copies (ι : Type) := ι → Entry ι

def assert (p : Prop) [Decidable p] : Option Unit := if p then some () else none

variable {A ι : Type} [DecidableEq A] [DecidableEq ι]

def Entry.empty : Entry ι := ⟨BlockInvalid, none, ∅⟩

def Entry.isBlockSharedOrOwned (e : Entry ι) : Prop := e.sharers ≠ ∅ ∨ e.owner ≠ none

instance (e : Entry ι) : Decidable e.isBlockSharedOrOwned := inferInstanceAs (Decidable (_ ∨ _))

namespace Copies

variable (s : Copies ι) (m : ι)

def setBlock (state : BlockState) : Copies ι :=
  Function.update s m { s m with state := state }

def setOwner (owner : Option ι) : Copies ι :=
  Function.update s m { s m with owner := owner }

def setSharer (i : ι) : Copies ι :=
  Function.update s m { s m with sharers := insert i (s m).sharers }

def clearSharer (i : ι) : Copies ι :=
  Function.update s m { s m with sharers := (s m).sharers.erase i }

def clearNode (i : ι) : Copies ι :=
  if (s m).owner = some i then (s.clearSharer m i).setOwner m none else s.clearSharer m i

end Copies

/-- The reply of a module on behalf of its own block. -/
def ownReply : BlockState → Option Reply
  | BlockExclusive | BlockShared => some ReplyAck
  | BlockNonCoherent | BlockModified | BlockOwned => some ReplyAckData
  | BlockInvalid => none

/-- The block of a module after it has got data back from above. -/
def takeData : BlockState → Option BlockState
  | BlockExclusive => some BlockModified
  | BlockShared => some BlockNonCoherent
  | BlockOwned => some BlockOwned
  | BlockNonCoherent => some BlockNonCoherent
  | BlockModified => some BlockModified
  | BlockInvalid => none

/-- Requests that one event sends, whose replies come back before it goes on. -/
def sendAll (request : ι → Copies ι → Option (Reply × Copies ι)) :
    List ι → Reply → Copies ι → Option (Reply × Copies ι)
  | [], reply, s => some (reply, s)
  | i :: nodes, reply, s => do
    let answer ← request i s
    sendAll request nodes (reply.setReplyIfHigher answer.1) answer.2

/-- The modules above that a module asks to give up their copies. -/
def otherSharers (high : List ι) (module : ι) (except_module : Option ι) (s : Copies ι) : List ι :=
  high.filter fun i => i ∈ (s module).sharers ∧ some i ≠ except_module

/-- The entries are cleared before the first of the requests is served. -/
def invalidate (request : ι → Copies ι → Option (Reply × Copies ι)) (high : List ι) (module : ι)
    (except_module : Option ι) (s : Copies ι) : Option (Copies ι) := do
  let nodes := otherSharers high module except_module s
  let answer ← sendAll request nodes ReplyNone (nodes.foldl (fun s i => s.clearNode module i) s)
  if answer.1 = ReplyAckData then do
    let state ← takeData (s module).state
    some (answer.2.setBlock module state)
  else
    some answer.2

variable (h : Hierarchy A ι)

/-- A `write_request` from a module below: the copy goes, and those above it. -/
def writeRequestDownup : ℕ → ι → ι → Copies ι → Option (Reply × Copies ι)
  | 0, _, _, _ => none
  | fuel + 1, module, target, s =>
    if (s target).state = BlockInvalid then
      some (ReplyAck, s)
    else do
      let above ← invalidate (writeRequestDownup fuel target) (h.high target) target
        (some module) s
      assert ¬ (above target).isBlockSharedOrOwned
      let reply ← ownReply (s target).state
      some (reply, above.setBlock target BlockInvalid)

/-- A `read_request` from a module below: an exclusive copy becomes a shared one. -/
def readRequestDownup : ℕ → ι → Copies ι → Option (Reply × Copies ι)
  | 0, _, _ => none
  | fuel + 1, target, s => do
    if (s target).state = BlockInvalid then
      some (ReplyAck, s)
    else
      assert ((s target).state ≠ BlockShared ∧ (s target).state ≠ BlockNonCoherent)
      let answer ← match (s target).owner with
        | none => some (ReplyNone, s)
        | some owner => readRequestDownup fuel owner s
      let shared := answer.2.setBlock target BlockShared
      match answer.1 with
      | ReplyAckData => some (ReplyAckData, shared.setOwner target none)
      | ReplyAck => some (ReplyAck, shared.setOwner target none)
      | ReplyNone => do
        let reply ← ownReply (s target).state
        some (reply, shared)

/-- The block of the module below after a block has been evicted into it. -/
def writeBack : BlockState → BlockState → Option BlockState
  | BlockNonCoherent, BlockExclusive => some BlockModified
  | BlockNonCoherent, BlockOwned => some BlockOwned
  | BlockNonCoherent, BlockModified => some BlockModified
  | BlockNonCoherent, BlockShared => some BlockNonCoherent
  | BlockNonCoherent, BlockNonCoherent => some BlockNonCoherent
  | BlockModified, BlockExclusive => some BlockModified
  | BlockModified, BlockModified => some BlockModified
  | BlockOwned, BlockExclusive => some BlockModified
  | BlockOwned, BlockModified => some BlockModified
  | BlockExclusive, state => some state
  | BlockShared, state => some state
  | _, _ => none

/-- A block that the module below does not have would leave the entry to work on undefined, so
there is no result then. -/
def evict (a : A) (module : ι) (s : Copies ι) : Option (Copies ι) := do
  assert ((s module).state ≠ BlockInvalid ∨ ¬ (s module).isBlockSharedOrOwned)
  let above ← invalidate (writeRequestDownup h (h.level module) module) (h.high module) module
    none s
  if h.mainMemory module then
    some (above.setBlock module BlockInvalid)
  else if (above module).state = BlockInvalid then
    some above
  else do
    let target ← h.low a module
    assert ((above target).state ≠ BlockInvalid)
    let state ← writeBack (above module).state (above target).state
    let received := (above.setBlock target state).clearNode target module
    let left := received.setBlock module BlockInvalid
    assert ¬ (left module).isBlockSharedOrOwned
    some left

variable (victim : ι → Option A) (a : A)

def makeRoom (module : ι) (σ : A → Copies ι) : Option (BlockState × (A → Copies ι)) :=
  match victim module with
  | none => some (BlockInvalid, σ)
  | some v =>
    if (σ v module).state = BlockInvalid then
      some (BlockInvalid, σ)
    else do
      let s ← evict h v module (σ v)
      let state := (s module).state
      assert (state = BlockInvalid ∨ state = BlockShared ∨ state = BlockExclusive)
      some (state, Function.update σ v (s.setBlock module BlockInvalid))

/-- The `find_and_lock` of a request that goes down. -/
def findAndLock (module : ι) (σ : A → Copies ι) : Option (BlockState × (A → Copies ι)) :=
  if (σ a module).state ≠ BlockInvalid then
    some ((σ a module).state, σ)
  else do
    assert ¬ (σ a module).isBlockSharedOrOwned
    let room ← makeRoom h victim module σ
    if h.mainMemory module ∧ room.1 = BlockInvalid then
      some (BlockExclusive,
        Function.update room.2 a ((room.2 a).setBlock module BlockExclusive))
    else
      some room

/-- Ask the owner of a block for it, unless the module itself is the owner. -/
def askOwner (module target : ι) (s : Copies ι) : Option (Copies ι) :=
  match (s target).owner with
  | none => some s
  | some owner =>
    if owner = module then some s else do
      let answer ← readRequestDownup (h.level target) owner s
      some answer.2

/-- The entry that a module leaves for one that has read a block from it. -/
def readRequestUpdownFinish (module target : ι) (state : BlockState) (nc_write shared : Bool)
    (s : Copies ι) : Bool × Copies ι :=
  let kept := if (s target).owner = some module then s else s.setOwner target none
  let joined := kept.setSharer target module
  let isShared := decide (1 < (joined target).sharers.card) || nc_write || shared ||
    decide (state = BlockOwned ∨ state = BlockNonCoherent ∨ state = BlockShared)
  (isShared, if isShared then joined else joined.setOwner target (some module))

def readRequestUpdown : ℕ → ι → ι → Bool → (A → Copies ι) → Option (Bool × (A → Copies ι))
  | 0, _, _, _, _ => none
  | fuel + 1, module, target, nc_write, σ => do
    let found ← findAndLock h victim a target σ
    if found.1 ≠ BlockInvalid then do
      let s ← askOwner h module target (found.2 a)
      let finished := readRequestUpdownFinish module target found.1 nc_write false s
      some (finished.1, Function.update found.2 a finished.2)
    else do
      assert ¬ (found.2 a target).isBlockSharedOrOwned
      let low ← h.low a target
      let answer ← readRequestUpdown fuel target low false found.2
      let s := (answer.2 a).setBlock target (if answer.1 then BlockShared else BlockExclusive)
      let finished := readRequestUpdownFinish module target found.1 nc_write answer.1 s
      some (finished.1, Function.update answer.2 a finished.2)

def writeRequestUpdown : ℕ → ι → ι → (A → Copies ι) → Option (A → Copies ι)
  | 0, _, _, _ => none
  | fuel + 1, module, target, σ => do
    let found ← findAndLock h victim a target σ
    let s ← invalidate (writeRequestDownup h (h.level target) target) (h.high target) target
      (some module) (found.2 a)
    let alone := Function.update found.2 a s
    let granted ←
      if found.1 = BlockModified ∨ found.1 = BlockExclusive then some alone else do
        let low ← h.low a target
        writeRequestUpdown fuel target low alone
    let owned := ((granted a).setSharer target module).setOwner target (some module)
    assert ((owned target).sharers.card = 1)
    some (Function.update granted a (owned.setBlock target BlockExclusive))

def messageClearOwner (target : ι) (σ : A → Copies ι) : Option (A → Copies ι) := do
  let found ← findAndLock h victim a target σ
  some (Function.update found.2 a ((found.2 a).setOwner target none))

def load (module : ι) (σ : A → Copies ι) : Option (A → Copies ι) := do
  let found ← findAndLock h victim a module σ
  if found.1 ≠ BlockInvalid then
    some found.2
  else do
    let low ← h.low a module
    let answer ← readRequestUpdown h victim a (h.height + 1) module low false found.2
    some (Function.update answer.2 a
      ((answer.2 a).setBlock module (if answer.1 then BlockShared else BlockExclusive)))

def store (module : ι) (σ : A → Copies ι) : Option (A → Copies ι) := do
  let found ← findAndLock h victim a module σ
  let granted ←
    if found.1 = BlockModified ∨ found.1 = BlockExclusive then some found.2 else do
      let low ← h.low a module
      writeRequestUpdown h victim a (h.height + 1) module low found.2
  some (Function.update granted a ((granted a).setBlock module BlockModified))

/-- What a non-coherent store asks for before it changes the block. -/
def ncStoreAction (module : ι) (state : BlockState) (σ : A → Copies ι) :
    Option (A → Copies ι) :=
  if h.mainMemory module ∨ state = BlockShared ∨ state = BlockNonCoherent then
    some σ
  else do
    let low ← h.low a module
    if state = BlockExclusive then
      messageClearOwner h victim a low σ
    else do
      let answer ← readRequestUpdown h victim a (h.height + 1) module low true σ
      some answer.2

def nc_store (module : ι) (σ : A → Copies ι) : Option (A → Copies ι) := do
  let found ← findAndLock h victim a module σ
  let written ←
    if found.1 = BlockModified ∨ found.1 = BlockOwned then do
      let s ← evict h a module (found.2 a)
      some (Function.update found.2 a s)
    else
      some found.2
  let granted ← ncStoreAction h victim a module found.1 written
  some (Function.update granted a ((granted a).setBlock module BlockNonCoherent))

inductive Kind
  | load
  | store
  | nc_store
  deriving DecidableEq, Repr

/-- An access, with the block that each module gives up in case it needs a place. -/
structure Access (A ι : Type) where
  kind : Kind
  module : ι
  address : A
  victim : ι → Option A

def perform (access : Access A ι) (σ : A → Copies ι) : Option (A → Copies ι) :=
  match access.kind with
  | .load => load h access.victim access.address access.module σ
  | .store => store h access.victim access.address access.module σ
  | .nc_store => nc_store h access.victim access.address access.module σ

def performAll : List (Access A ι) → (A → Copies ι) → Option (A → Copies ι)
  | [], σ => some σ
  | access :: accesses, σ => do
    let next ← perform h access σ
    performAll accesses next

def emptyCaches : A → Copies ι := fun _ _ => Entry.empty

end MMLMStore.ModuleHierarchy
