import MMLMStore.ModuleHierarchy

/-!
# Coherence of the copies of a block

A directory names exactly the modules above that hold the block, and as their owner exactly the
one that holds it alone. The condition on a module mentions only the modules next to it, so a
request that stays within the modules above one of them can upset no condition outside these
but that of the module below.
-/
namespace MMLMStore.ModuleHierarchy

open CacheReplacement ParentTrees
open BlockState Reply

variable {A ι : Type}

namespace Copies

variable [DecidableEq ι] (s : Copies ι) (m i x : ι) (state : BlockState) (owner : Option ι)

@[simp] theorem setBlock_state :
    (s.setBlock m state x).state = if x = m then state else (s x).state := by
  by_cases hx : x = m <;> simp [setBlock, hx]

@[simp] theorem setBlock_owner : (s.setBlock m state x).owner = (s x).owner := by
  by_cases hx : x = m <;> simp [setBlock, hx]

@[simp] theorem setBlock_sharers : (s.setBlock m state x).sharers = (s x).sharers := by
  by_cases hx : x = m <;> simp [setBlock, hx]

@[simp] theorem setOwner_state : (s.setOwner m owner x).state = (s x).state := by
  by_cases hx : x = m <;> simp [setOwner, hx]

@[simp] theorem setOwner_owner :
    (s.setOwner m owner x).owner = if x = m then owner else (s x).owner := by
  by_cases hx : x = m <;> simp [setOwner, hx]

@[simp] theorem setOwner_sharers : (s.setOwner m owner x).sharers = (s x).sharers := by
  by_cases hx : x = m <;> simp [setOwner, hx]

@[simp] theorem setSharer_state : (s.setSharer m i x).state = (s x).state := by
  by_cases hx : x = m <;> simp [setSharer, hx]

@[simp] theorem setSharer_owner : (s.setSharer m i x).owner = (s x).owner := by
  by_cases hx : x = m <;> simp [setSharer, hx]

@[simp] theorem setSharer_sharers :
    (s.setSharer m i x).sharers = if x = m then insert i (s m).sharers else (s x).sharers := by
  by_cases hx : x = m <;> simp [setSharer, hx]

@[simp] theorem clearNode_state : (s.clearNode m i x).state = (s x).state := by
  by_cases hx : x = m <;> by_cases hi : (s m).owner = some i <;>
    simp [clearNode, clearSharer, hx, hi]

@[simp] theorem clearNode_owner : (s.clearNode m i x).owner =
    if x = m ∧ (s m).owner = some i then none else (s x).owner := by
  by_cases hx : x = m <;> by_cases hi : (s m).owner = some i <;>
    simp [clearNode, clearSharer, hx, hi]

@[simp] theorem clearNode_sharers : (s.clearNode m i x).sharers =
    if x = m then (s m).sharers.erase i else (s x).sharers := by
  by_cases hx : x = m <;> by_cases hi : (s m).owner = some i <;>
    simp [clearNode, clearSharer, hx, hi]

variable {s m i x}

theorem setBlock_of_ne (hx : x ≠ m) : s.setBlock m state x = s x := by simp [setBlock, hx]

theorem setOwner_of_ne (hx : x ≠ m) : s.setOwner m owner x = s x := by simp [setOwner, hx]

theorem setSharer_of_ne (hx : x ≠ m) : s.setSharer m i x = s x := by simp [setSharer, hx]

theorem clearNode_of_ne (hx : x ≠ m) : s.clearNode m i x = s x := by
  by_cases hi : (s m).owner = some i <;> simp [clearNode, clearSharer, setOwner, hx, hi]

theorem foldl_clearNode_of_ne (hx : x ≠ m) (nodes : List ι) :
    nodes.foldl (fun s i => s.clearNode m i) s x = s x := by
  induction nodes generalizing s with
  | nil => rfl
  | cons i nodes ih => rw [List.foldl_cons, ih, clearNode_of_ne hx]

theorem foldl_clearNode_state (nodes : List ι) :
    (nodes.foldl (fun s i => s.clearNode m i) s m).state = (s m).state := by
  induction nodes generalizing s with
  | nil => rfl
  | cons i nodes ih => rw [List.foldl_cons, ih, clearNode_state]

theorem mem_foldl_clearNode (nodes : List ι) :
    x ∈ (nodes.foldl (fun s i => s.clearNode m i) s m).sharers ↔
      x ∈ (s m).sharers ∧ x ∉ nodes := by
  induction nodes generalizing s with
  | nil => simp
  | cons i nodes ih =>
    rw [List.foldl_cons, ih]
    simp only [clearNode_sharers, if_true, Finset.mem_erase, List.mem_cons]
    tauto

theorem foldl_clearNode_owner (nodes : List ι) :
    (nodes.foldl (fun s i => s.clearNode m i) s m).owner = some x ↔
      (s m).owner = some x ∧ x ∉ nodes := by
  induction nodes generalizing s with
  | nil => simp
  | cons i nodes ih =>
    rw [List.foldl_cons, ih]
    by_cases hi : (s m).owner = some i
    · simp only [clearNode_owner, hi, and_self, if_true, List.mem_cons, Option.some.injEq]
      grind
    · simp only [clearNode_owner, hi, and_false, if_false, List.mem_cons]
      grind

end Copies

/-- What a state lets a module do with its block: nothing, read it, or have it for itself. The
state `Owned` is never reached. -/
def grade : BlockState → ℕ
  | BlockInvalid => 0
  | BlockShared | BlockNonCoherent => 1
  | BlockExclusive | BlockModified => 2
  | BlockOwned => 3

@[simp] theorem grade_eq_zero {state : BlockState} : grade state = 0 ↔ state = BlockInvalid := by
  cases state <;> simp [grade]

@[simp] theorem grade_invalid : grade BlockInvalid = 0 := rfl

theorem grade_eq_two {state : BlockState} :
    grade state = 2 ↔ state = BlockModified ∨ state = BlockExclusive := by
  cases state <;> simp [grade]

theorem exists_takeData {state : BlockState} (h : state ≠ BlockInvalid) :
    ∃ next, takeData state = some next ∧ grade next = grade state := by
  cases state <;> simp [takeData, grade] at h ⊢

theorem exists_ownReply {state : BlockState} (h : state ≠ BlockInvalid) :
    ∃ reply, ownReply state = some reply ∧ reply ≠ ReplyNone := by
  cases state <;> simp [ownReply] at h ⊢

/-- A module that holds its block alone can only be above one that does so too. -/
theorem exists_writeBack {state low : BlockState} (hstate : grade state ≤ 2)
    (hlow : low ≠ BlockInvalid) (hvalid : state ≠ BlockInvalid)
    (halone : grade state = 2 → grade low = 2) :
    ∃ next, writeBack state low = some next ∧ grade next = grade low := by
  cases state <;> cases low <;> simp [writeBack, grade] at *

theorem assert_eq {p : Prop} [Decidable p] (hp : p) : assert p = some () := by simp [assert, hp]

variable (h : Hierarchy A ι) (a : A)

structure CoherentAt (s : Copies ι) (x : ι) : Prop where
  sharers : ∀ c, c ∈ (s x).sharers ↔ h.low a c = some x ∧ grade (s c).state ≠ 0
  owner : ∀ c, (s x).owner = some c ↔ h.low a c = some x ∧ grade (s c).state = 2
  alone : ∀ c, (s x).owner = some c → (s x).sharers = {c}
  exclusive : ∀ c, (s x).owner = some c → grade (s x).state = 2
  present : ∀ c ∈ (s x).sharers, grade (s x).state ≠ 0
  notOwned : grade (s x).state ≤ 2
  main : h.mainMemory x = true → grade (s x).state ≠ 1
  served : grade (s x).state ≠ 0 → h.mainMemory x = true ∨ ∃ t, h.low a x = some t

def CoherentIn (r : ι) (s : Copies ι) : Prop :=
  ∀ x, Below (h.low a) x r → CoherentAt h a s x

def Coherent (s : Copies ι) : Prop := ∀ x, CoherentAt h a s x

structure Served (r : ι) (s t : Copies ι) : Prop where
  coherent : CoherentIn h a r t
  outside : ∀ x, ¬ Below (h.low a) x r → t x = s x

variable {h a} {s t : Copies ι} {x m r : ι} {state : BlockState}

theorem not_main_of_low (hm : h.low a m = some x) : h.mainMemory m ≠ true := by
  intro hmain
  simp [h.main_low a m hmain] at hm

theorem CoherentAt.not_shared (hx : CoherentAt h a s x) (hs : (s x).sharers = ∅) :
    ¬ (s x).isBlockSharedOrOwned := by
  have howner : (s x).owner = none := by
    cases ho : (s x).owner with
    | none => rfl
    | some c => simp [hx.alone c ho] at hs
  simp [Entry.isBlockSharedOrOwned, hs, howner]

theorem CoherentAt.sharers_of_invalid (hx : CoherentAt h a s x)
    (hi : (s x).state = BlockInvalid) : (s x).sharers = ∅ := by
  apply Finset.eq_empty_of_forall_notMem
  intro c hc
  exact hx.present c hc (by simp [hi])

theorem CoherentAt.owner_of_sharers (hx : CoherentAt h a s x) (hs : (s x).sharers = ∅) :
    (s x).owner = none := by
  have := hx.not_shared hs
  simp only [Entry.isBlockSharedOrOwned, not_or, not_not] at this
  exact this.2

/-- The condition on a module reads its own entry and the states above it, up to their grades. -/
theorem CoherentAt.congr (hx : CoherentAt h a s x) (howner : (t x).owner = (s x).owner)
    (hsharers : (t x).sharers = (s x).sharers) (hgrade : grade (t x).state = grade (s x).state)
    (habove : ∀ c, h.low a c = some x → grade (t c).state = grade (s c).state) :
    CoherentAt h a t x := by
  constructor
  case sharers =>
    intro c
    rw [hsharers, hx.sharers c]
    exact and_congr_right fun hc => by rw [habove c hc]
  case owner =>
    intro c
    rw [howner, hx.owner c]
    exact and_congr_right fun hc => by rw [habove c hc]
  case alone => simpa only [howner, hsharers] using hx.alone
  case exclusive => simpa only [howner, hgrade] using hx.exclusive
  case present => simpa only [hsharers, hgrade] using hx.present
  case notOwned => simpa only [hgrade] using hx.notOwned
  case main => simpa only [hgrade] using hx.main
  case served => simpa only [hgrade] using hx.served

theorem CoherentAt.of_eq (hx : CoherentAt h a s x) (heq : t x = s x)
    (habove : ∀ c, h.low a c = some x → t c = s c) : CoherentAt h a t x := by
  apply hx.congr
  · rw [heq]
  · rw [heq]
  · rw [heq]
  · intro c hc
    rw [habove c hc]

theorem CoherentIn.child (hm : CoherentIn h a m s) {c : ι} (hc : h.low a c = some m) :
    CoherentIn h a c s := by
  intro x hx
  exact hm x (hx.trans (below_of_parent hc))

theorem CoherentIn.of_eq (hr : CoherentIn h a r s)
    (heq : ∀ x, Below (h.low a) x r → t x = s x) : CoherentIn h a r t := by
  intro x hx
  apply (hr x hx).of_eq (heq x hx)
  intro c hc
  exact heq c ((below_of_parent hc).trans hx)

theorem Served.coherentAt (hserved : Served h a r s t) (hx : CoherentAt h a s x)
    (hout : ¬ Below (h.low a) x r) (hlow : h.low a r ≠ some x) : CoherentAt h a t x := by
  apply hx.of_eq (hserved.outside x hout)
  intro c hc
  apply hserved.outside
  intro hbelow
  rw [eq_root_of_child hout hc hbelow] at hc
  exact hlow hc

/-- What a request leaves coherent in its own part stays so elsewhere, when the grade of the
module it starts from does not change. -/
theorem Served.all_coherent (hserved : Served h a r s t) (hs : Coherent h a s)
    (hgrade : grade (t r).state = grade (s r).state) : Coherent h a t := by
  intro x
  by_cases hx : Below (h.low a) x r
  · exact hserved.coherent x hx
  · have heq := hserved.outside x hx
    apply (hs x).congr (by rw [heq]) (by rw [heq]) (by rw [heq])
    intro c hc
    by_cases hbelow : Below (h.low a) c r
    · rw [eq_root_of_child hx hc hbelow, hgrade]
    · rw [hserved.outside c hbelow]

/-- The rest of the modules above, when one of those next to it has served a request. -/
theorem Served.within {o : ι} (hserved : Served h a o s t) (hs : CoherentIn h a m s)
    (hlow : h.low a o = some m) (hx : Below (h.low a) x m) (hne : x ≠ m) :
    CoherentAt h a t x := by
  by_cases hxo : Below (h.low a) x o
  · exact hserved.coherent x hxo
  · apply hserved.coherentAt (hs x hx) hxo
    rw [hlow]
    exact fun heq => hne (Option.some.inj heq).symm

/-- A module serves a request by one to the module above it and a change of its own entry. -/
theorem Served.lift {o : ι} {u : Copies ι} (hserved : Served h a o s t) (hs : CoherentIn h a m s)
    (hlow : h.low a o = some m) (hsame : ∀ x, x ≠ m → u x = t x) (hm : CoherentAt h a u m) :
    Served h a m s u := by
  constructor
  · intro x hx
    by_cases hxm : x = m
    · exact hxm ▸ hm
    · apply (hserved.within hs hlow hx hxm).of_eq (hsame x hxm)
      intro c hc
      apply hsame
      rintro rfl
      exact not_below_child (h.leveled a) hc hx
  · intro x hx
    have hxm : x ≠ m := by
      rintro rfl
      exact hx (Below.refl x)
    rw [hsame x hxm]
    apply hserved.outside
    intro hxo
    exact hx (hxo.trans (below_of_parent hlow))

/-! ### Requests to the modules above -/

variable {request : ι → Copies ι → Option (Reply × Copies ι)} {nodes : List ι}

structure Taken (h : Hierarchy A ι) (a : A) (nodes : List ι) (s t : Copies ι) : Prop where
  coherent : ∀ c ∈ nodes, CoherentIn h a c t
  invalid : ∀ c ∈ nodes, (t c).state = BlockInvalid
  outside : ∀ x, (∀ c ∈ nodes, ¬ Below (h.low a) x c) → t x = s x

/-- Requests to several modules above one do not get in each other's way. -/
theorem exists_sendAll (hnodes : ∀ c ∈ nodes, h.low a c = some m)
    (hrequest : ∀ c ∈ nodes, ∀ s, CoherentIn h a c s →
      ∃ answer, request c s = some answer ∧ Taken h a [c] s answer.2)
    (hs : ∀ c ∈ nodes, CoherentIn h a c s) (reply : Reply) :
    ∃ answer, sendAll request nodes reply s = some answer ∧ Taken h a nodes s answer.2 := by
  induction nodes generalizing s reply with
  | nil => exact ⟨(reply, s), rfl, by simp, by simp, fun _ _ => rfl⟩
  | cons c nodes ih =>
    simp only [List.forall_mem_cons] at hnodes hrequest hs
    obtain ⟨first, hfirst, htaken⟩ := hrequest.1 s hs.1
    have happart : ∀ d ∈ nodes, d ≠ c → ∀ x, Below (h.low a) x d → ¬ Below (h.low a) x c := by
      intro d hd hne x hxd hxc
      exact hne (eq_of_below_both (h.leveled a) (hnodes.2 d hd) hnodes.1 hxd hxc)
    have hrest : ∀ d ∈ nodes, CoherentIn h a d first.2 := by
      intro d hd
      by_cases hne : d = c
      · exact hne ▸ htaken.coherent c (by simp)
      · apply (hs.2 d hd).of_eq
        intro x hx
        exact htaken.outside x (by simpa using happart d hd hne x hx)
    obtain ⟨answer, hanswer, hall⟩ := ih hnodes.2 hrequest.2 hrest
      (reply.setReplyIfHigher first.1)
    refine ⟨answer, by simp [sendAll, hfirst, hanswer], ?_, ?_, ?_⟩
    · intro d hd
      by_cases hmem : d ∈ nodes
      · exact hall.coherent d hmem
      · obtain rfl : d = c := by simpa [hmem] using hd
        apply (htaken.coherent d (by simp)).of_eq
        intro x hx
        apply hall.outside
        intro e he hxe
        exact happart e he (fun heq => hmem (heq ▸ he)) x hxe hx
    · intro d hd
      by_cases hmem : d ∈ nodes
      · exact hall.invalid d hmem
      · obtain rfl : d = c := by simpa [hmem] using hd
        have hkept : answer.2 d = first.2 d := by
          apply hall.outside
          intro e he hde
          exact happart e he (fun heq => hmem (heq ▸ he)) d hde (Below.refl d)
        rw [hkept]
        exact htaken.invalid d (by simp)
    · intro x hx
      simp only [List.forall_mem_cons] at hx
      rw [hall.outside x hx.2]
      exact htaken.outside x (by simpa using hx.1)

variable [DecidableEq ι]

theorem CoherentAt.setBlock_of_grade (hx : CoherentAt h a s x)
    (hstate : grade state = grade (s m).state) : CoherentAt h a (s.setBlock m state) x := by
  apply hx.congr (by simp) (by simp)
  · by_cases hm : x = m <;> simp [hm, hstate]
  · intro c hc
    by_cases hm : c = m <;> simp [hm, hstate]

theorem CoherentAt.setBlock_of_apart (hx : CoherentAt h a s x) (hm : x ≠ m)
    (hlow : h.low a m ≠ some x) : CoherentAt h a (s.setBlock m state) x := by
  apply hx.of_eq (Copies.setBlock_of_ne state hm)
  intro c hc
  apply Copies.setBlock_of_ne
  rintro rfl
  exact hlow hc

theorem CoherentAt.setBlock_self (hx : CoherentAt h a s x) (hle : grade state ≤ 2)
    (hnone : grade state = 0 → (s x).sharers = ∅) (howner : grade state ≠ 2 → (s x).owner = none)
    (hmain : h.mainMemory x = true → grade state ≠ 1)
    (hserved : grade state ≠ 0 → h.mainMemory x = true ∨ ∃ t, h.low a x = some t) :
    CoherentAt h a (s.setBlock x state) x := by
  have habove : ∀ c, h.low a c = some x → c ≠ x := by
    intro c hc
    exact ne_of_below_child (h.leveled a) hc (Below.refl c)
  constructor
  case sharers =>
    intro c
    simp only [Copies.setBlock_sharers, Copies.setBlock_state, hx.sharers c]
    exact and_congr_right fun hc => by rw [if_neg (habove c hc)]
  case owner =>
    intro c
    simp only [Copies.setBlock_owner, Copies.setBlock_state, hx.owner c]
    exact and_congr_right fun hc => by rw [if_neg (habove c hc)]
  case alone => simpa using hx.alone
  case exclusive =>
    intro c hc
    rw [Copies.setBlock_owner] at hc
    by_contra htwo
    simp [howner (by simpa using htwo)] at hc
  case present =>
    intro c hc hzero
    rw [Copies.setBlock_sharers] at hc
    simp [hnone (by simpa using hzero)] at hc
  case notOwned => simpa using hle
  case main => simpa using hmain
  case served => simpa using hserved

/-- A block goes from a module with none above it that has a copy. -/
theorem CoherentAt.setBlock_invalid (hx : CoherentAt h a s x) (hs : (s x).sharers = ∅) :
    CoherentAt h a (s.setBlock x BlockInvalid) x :=
  hx.setBlock_self (by simp) (fun _ => hs) (fun _ => hx.owner_of_sharers hs) (by simp) (by simp)

/-! ### Copies that a module calls back -/

section

variable (hnodes : ∀ c ∈ nodes, h.low a c = some m)
  (htaken : Taken h a nodes (nodes.foldl (fun s i => s.clearNode m i) s) t)

include hnodes htaken

theorem Taken.root : t m = nodes.foldl (fun s i => s.clearNode m i) s m := by
  apply htaken.outside
  intro c hc hbelow
  exact ne_of_below_child (h.leveled a) (hnodes c hc) hbelow rfl

theorem Taken.kept {c : ι} (hc : h.low a c = some m) (hout : c ∉ nodes)
    (hx : Below (h.low a) x c) : t x = s x := by
  rw [htaken.outside x, Copies.foldl_clearNode_of_ne (ne_of_below_child (h.leveled a) hc hx)]
  intro d hd hxd
  exact hout (eq_of_below_both (h.leveled a) hc (hnodes d hd) hx hxd ▸ hd)

theorem Taken.root_state : (t m).state = (s m).state := by
  rw [htaken.root hnodes, Copies.foldl_clearNode_state]

theorem Taken.root_sharers (c : ι) : c ∈ (t m).sharers ↔ c ∈ (s m).sharers ∧ c ∉ nodes := by
  rw [htaken.root hnodes, Copies.mem_foldl_clearNode]

theorem Taken.root_owner (c : ι) : (t m).owner = some c ↔ (s m).owner = some c ∧ c ∉ nodes := by
  rw [htaken.root hnodes, Copies.foldl_clearNode_owner]

theorem Taken.child_state {c : ι} (hc : h.low a c = some m) :
    (t c).state = if c ∈ nodes then BlockInvalid else (s c).state := by
  by_cases hin : c ∈ nodes
  · rw [if_pos hin, htaken.invalid c hin]
  · rw [if_neg hin, htaken.kept hnodes hc hin (Below.refl c)]

theorem Taken.coherentAt (hm : CoherentAt h a s m) : CoherentAt h a t m := by
  have hstate := htaken.root_state hnodes
  have hsharers := htaken.root_sharers hnodes
  have howner := htaken.root_owner hnodes
  constructor
  case sharers =>
    intro c
    rw [hsharers, hm.sharers c]
    by_cases hin : c ∈ nodes <;> by_cases hc : h.low a c = some m <;>
      simp [hin, hc, htaken.child_state hnodes]
  case owner =>
    intro c
    rw [howner, hm.owner c]
    by_cases hin : c ∈ nodes <;> by_cases hc : h.low a c = some m <;>
      simp [hin, hc, htaken.child_state hnodes]
  case alone =>
    intro c hc
    rw [howner] at hc
    ext d
    rw [hsharers, hm.alone c hc.1, Finset.mem_singleton, and_iff_left_iff_imp]
    rintro rfl
    exact hc.2
  case exclusive =>
    intro c hc
    rw [hstate]
    exact hm.exclusive c ((howner c).mp hc).1
  case present =>
    intro c hc
    rw [hstate]
    exact hm.present c ((hsharers c).mp hc).1
  case notOwned => simpa only [hstate] using hm.notOwned
  case main => simpa only [hstate] using hm.main
  case served => simpa only [hstate] using hm.served

theorem Taken.served (hs : CoherentIn h a m s) : Served h a m s t := by
  constructor
  · intro x hx
    by_cases hxm : x = m
    · exact hxm ▸ htaken.coherentAt hnodes (hs m (Below.refl m))
    · obtain ⟨c, hc, hxc⟩ := exists_child_of_below hx hxm
      by_cases hin : c ∈ nodes
      · exact htaken.coherent c hin x hxc
      · exact (hs.child hc).of_eq (fun y hy => htaken.kept hnodes hc hin hy) x hxc
  · intro x hx
    rw [htaken.outside x, Copies.foldl_clearNode_of_ne]
    · rintro rfl
      exact hx (Below.refl x)
    · intro c hc hxc
      exact hx (hxc.trans (below_of_parent (hnodes c hc)))

end

/-- The modules asked lose their copies. Data that comes back does not change the grade of the
block that takes it. -/
theorem exists_invalidate (except_module : Option ι)
    (hrequest : ∀ c, h.low a c = some m → ∀ s, CoherentIn h a c s →
      ∃ answer, request c s = some answer ∧ Taken h a [c] s answer.2)
    (hs : CoherentIn h a m s) :
    ∃ t, invalidate request (h.high m) m except_module s = some t ∧ Served h a m s t ∧
      grade (t m).state = grade (s m).state ∧ (∀ c ∈ (t m).sharers, some c = except_module) ∧
      ∀ c, some c = except_module → h.low a c = some m → ∀ x, Below (h.low a) x c → t x = s x := by
  have hm : CoherentAt h a s m := hs m (Below.refl m)
  obtain ⟨nodes, heq⟩ : ∃ nodes, otherSharers (h.high m) m except_module s = nodes := ⟨_, rfl⟩
  have hmem : ∀ c, c ∈ nodes ↔ c ∈ (s m).sharers ∧ some c ≠ except_module := by
    intro c
    simp only [← heq, otherSharers, List.mem_filter, decide_eq_true_eq, and_iff_right_iff_imp]
    intro hc
    exact h.low_high a c m ((hm.sharers c).mp hc.1).1
  have hnodes : ∀ c ∈ nodes, h.low a c = some m := by
    intro c hc
    exact ((hm.sharers c).mp ((hmem c).mp hc).1).1
  have hcleared : ∀ c ∈ nodes, CoherentIn h a c (nodes.foldl (fun s i => s.clearNode m i) s) := by
    intro c hc
    apply (hs.child (hnodes c hc)).of_eq
    intro x hx
    apply Copies.foldl_clearNode_of_ne
    rintro rfl
    exact not_below_child (h.leveled a) (hnodes c hc) hx
  obtain ⟨answer, hanswer, htaken⟩ := exists_sendAll hnodes
    (fun c hc => hrequest c (hnodes c hc)) hcleared ReplyNone
  have hserved := htaken.served hnodes hs
  have hsharers : ∀ c ∈ (answer.2 m).sharers, some c = except_module := by
    intro c hc
    have := (htaken.root_sharers hnodes c).mp hc
    by_contra hne
    exact this.2 ((hmem c).mpr ⟨this.1, hne⟩)
  have hexcept : ∀ c, some c = except_module → h.low a c = some m →
      ∀ x, Below (h.low a) x c → answer.2 x = s x := by
    intro c hc hlow x hx
    exact htaken.kept hnodes hlow (fun hin => ((hmem c).mp hin).2 hc) hx
  by_cases hdata : answer.1 = ReplyAckData
  · have hvalid : (s m).state ≠ BlockInvalid := by
      intro hi
      have hnil : nodes = [] := by
        apply List.eq_nil_iff_forall_not_mem.mpr
        intro c hc
        simp [hmem, hm.sharers_of_invalid hi] at hc
      simp [hnil, sendAll] at hanswer
      simp [← hanswer] at hdata
    obtain ⟨state, htake, hgrade⟩ := exists_takeData hvalid
    have hsame : grade state = grade (answer.2 m).state := by
      rw [hgrade, htaken.root_state hnodes]
    refine ⟨answer.2.setBlock m state, ?_, ⟨?_, ?_⟩, by simpa using hgrade,
      by simpa using hsharers, ?_⟩
    · simp [invalidate, heq, hanswer, hdata, htake]
    · exact fun x hx => (hserved.coherent x hx).setBlock_of_grade hsame
    · intro x hx
      rw [Copies.setBlock_of_ne, hserved.outside x hx]
      rintro rfl
      exact hx (Below.refl x)
    · intro c hc hlow x hx
      rw [Copies.setBlock_of_ne, hexcept c hc hlow x hx]
      rintro rfl
      exact not_below_child (h.leveled a) hlow hx
  · refine ⟨answer.2, ?_, hserved, by rw [htaken.root_state hnodes], hsharers, hexcept⟩
    simp [invalidate, heq, hanswer, hdata]

end MMLMStore.ModuleHierarchy
