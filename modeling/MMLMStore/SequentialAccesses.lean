import MMLMStore.ModuleLevels
import MMLMStore.RequestsBelow

/-!
# Accesses one after the other

Every access finds what it needs on its way down, so no check in its chain fails, and it leaves
the copies of all blocks coherent: a module that holds a block for itself shares it with no module
but those above and below it, whatever the accesses before were.
-/
namespace MMLMStore.ModuleHierarchy

open CacheReplacement ParentTrees
open BlockState

variable {A ι : Type}

/-- Non-coherent stores enter at caches with no modules above. -/
def Access.Suits (access : Access A ι) (h : Hierarchy A ι) : Prop :=
  h.Serves access.address access.module ∧ (access.kind = .nc_store →
    h.mainMemory access.module ≠ true ∧ ∀ c, h.low access.address c ≠ some access.module)

/-- An access leaves its module with the block it came for. -/
def Access.Done (access : Access A ι) (σ : A → Copies ι) : Prop :=
  match access.kind with
  | .load => (σ access.address access.module).state ≠ BlockInvalid
  | .store => (σ access.address access.module).state = BlockModified
  | .nc_store => (σ access.address access.module).state = BlockNonCoherent

/-- Directories name the copies next to them, a module has what those above it have, and no module
holds a block beside one that has it for itself, unless one sends its requests to the other. -/
structure Consistent (h : Hierarchy A ι) (σ : A → Copies ι) : Prop where
  sharers : ∀ a x c, c ∈ (σ a x).sharers ↔
    h.low a c = some x ∧ (σ a c).state ≠ BlockInvalid
  owner : ∀ a x c, (σ a x).owner = some c ↔
    h.low a c = some x ∧ ((σ a c).state = BlockModified ∨ (σ a c).state = BlockExclusive)
  inclusive : ∀ a x c, h.low a c = some x → (σ a c).state ≠ BlockInvalid →
    (σ a x).state ≠ BlockInvalid
  alone : ∀ a r x m, Below (h.low a) m r → Below (h.low a) x r →
    ((σ a m).state = BlockModified ∨ (σ a m).state = BlockExclusive) →
    (σ a x).state ≠ BlockInvalid → Below (h.low a) x m ∨ Below (h.low a) m x

inductive SanityError
  | notInLowerModule
  | notOwner
  | notOnlySharer
  | notSharer
  deriving DecidableEq, Repr

/-- The check of a block of one module. No entry is locked between two accesses. -/
def checkBlock [DecidableEq ι] (h : Hierarchy A ι) (σ : A → Copies ι) (module : ι) (a : A) :
    Except SanityError Unit :=
  if h.mainMemory module ∨ (σ a module).state = BlockInvalid then
    .ok ()
  else
    match h.low a module with
    | none => .error .notInLowerModule
    | some lower =>
      if (σ a lower).state = BlockInvalid then
        .error .notInLowerModule
      else if (σ a module).state = BlockExclusive ∨ (σ a module).state = BlockModified then
        if (σ a lower).owner ≠ some module then .error .notOwner
        else if (σ a lower).sharers.card ≠ 1 then .error .notOnlySharer
        else if module ∉ (σ a lower).sharers then .error .notSharer
        else .ok ()
      else
        .ok ()

def SanityCheck [DecidableEq ι] (h : Hierarchy A ι) (modules : List ι) (blocks : List A)
    (σ : A → Copies ι) : Except SanityError Unit :=
  modules.forM fun module => blocks.forM (checkBlock h σ module)

variable {h : Hierarchy A ι} {a : A} {σ : A → Copies ι} {s : Copies ι} {m x : ι}

section

variable [DecidableEq A] [DecidableEq ι] {victim : ι → Option A}

theorem exists_load (hσ : AllCoherent h σ) (hserves : h.Serves a m) :
    ∃ τ, load h victim a m σ = some τ ∧ AllCoherent h τ ∧ (τ a m).state ≠ BlockInvalid := by
  obtain ⟨found, hfound, hf⟩ := exists_findAndLock victim a m hσ
  by_cases hvalid : found.1 ≠ BlockInvalid
  · refine ⟨found.2, by simp [load, hfound, hvalid], hf.coherent, ?_⟩
    rwa [← hf.state]
  · rw [not_not] at hvalid
    have hmain : h.mainMemory m ≠ true := by
      intro hmain
      simpa [hvalid] using hf.main hmain
    obtain ⟨low, hlow, hserved⟩ := hserves.low hmain
    obtain ⟨answer, hanswer, hpending, -, -⟩ := exists_readRequestUpdown victim
      (h.height + 1) false (by omega) hf.coherent hlow hserved (by rw [← hf.state, hvalid])
    let state := if answer.1 then BlockShared else BlockExclusive
    refine ⟨Function.update answer.2 a ((answer.2 a).setBlock m state), ?_, hpending state ?_, ?_⟩
    · simp [load, hfound, hvalid, hlow, hanswer, state]
    · cases hcase : answer.1 <;> simp [state, hcase, grade]
    · cases hcase : answer.1 <;> simp [state, hcase]

theorem exists_store (hσ : AllCoherent h σ) (hserves : h.Serves a m) :
    ∃ τ, store h victim a m σ = some τ ∧ AllCoherent h τ ∧ (τ a m).state = BlockModified := by
  obtain ⟨found, hfound, hf⟩ := exists_findAndLock victim a m hσ
  by_cases htwo : found.1 = BlockModified ∨ found.1 = BlockExclusive
  · have hset : Coherent h a ((found.2 a).setBlock m BlockModified) := by
      intro x
      apply (hf.coherent a x).setBlock_of_grade
      rw [← hf.state, grade_eq_two.mpr htwo]
      rfl
    exact ⟨Function.update found.2 a ((found.2 a).setBlock m BlockModified),
      by simp [store, hfound, htwo], hf.coherent.update_self hset, by simp⟩
  · have hmain : h.mainMemory m ≠ true := by
      intro hmain
      exact htwo (grade_eq_two.mp (hf.main hmain))
    obtain ⟨low, hlow, hserved⟩ := hserves.low hmain
    obtain ⟨τ, hτ, hpending, -⟩ := exists_writeRequestUpdown victim (h.height + 1)
      (by omega) hf.coherent hlow hserved
    exact ⟨_, by simp [store, hfound, htwo, hlow, hτ], hpending BlockModified rfl, by simp⟩

/-- The module below forgets an owner that no longer has its block for itself. -/
theorem exists_messageClearOwner (victim : ι → Option A) {target : ι} (hσ : AllCoherent h σ)
    (hlow : h.low a m = some target) (htwo : grade (σ a m).state = 2)
    (hnone : (σ a m).owner = none) :
    ∃ τ, messageClearOwner h victim a target σ = some τ ∧ Pending h a m 1 τ := by
  have hne : m ≠ target := ne_of_below_child (h.leveled a) hlow (Below.refl m)
  have howner : (σ a target).owner = some m := ((hσ a target).owner m).mpr ⟨hlow, htwo⟩
  have hthere : (σ a target).state ≠ BlockInvalid := by
    intro hi
    simpa [hi] using (hσ a target).exclusive m howner
  refine ⟨Function.update σ a ((σ a).setOwner target none),
    by simp [messageClearOwner, findAndLock_hit hthere], ?_⟩
  intro state hstate
  have hself : Served h a m (σ a) (σ a) := ⟨fun x _ => hσ a x, fun _ _ => rfl⟩
  have hset : CoherentAt h a ((σ a).setBlock m state) m :=
    (hσ a m).setBlock_self (by omega) (by omega) (fun _ => hnone)
      (fun hmain => absurd hmain (not_main_of_low hlow)) (fun _ => .inr ⟨target, hlow⟩)
  have hcomm : ((σ a).setOwner target none).setBlock m state =
      ((σ a).setBlock m state).setOwner target none := by
    simp only [Copies.setBlock, Copies.setOwner]
    rw [Function.update_comm hne]
    simp [hne, hne.symm]
  have hcoh : Coherent h a (((σ a).setOwner target none).setBlock m state) := by
    rw [hcomm]
    intro x
    by_cases hx : x = target
    · subst hx
      exact (hσ a x).demote howner (hself.setBlock hset) (by simpa using hstate)
    have hat : CoherentAt h a ((σ a).setBlock m state) x := by
      by_cases hxm : x = m
      · exact hxm ▸ hset
      · apply (hσ a x).setBlock_of_apart hxm
        rw [hlow]
        exact fun heq => hx (Option.some.inj heq).symm
    apply hat.congr <;> simp [hx]
  simpa using hσ.update_self hcoh

theorem exists_nc_store (hσ : AllCoherent h σ) (hserves : h.Serves a m)
    (hmain : h.mainMemory m ≠ true) (htop : ∀ c, h.low a c ≠ some m) :
    ∃ τ, nc_store h victim a m σ = some τ ∧ AllCoherent h τ ∧
      (τ a m).state = BlockNonCoherent := by
  obtain ⟨found, hfound, hf⟩ := exists_findAndLock victim a m hσ
  obtain ⟨low, hlow, hserved⟩ := hserves.low hmain
  have hread : ∀ τ, AllCoherent h τ → (τ a m).state = BlockInvalid → ∃ answer,
      readRequestUpdown h victim a (h.height + 1) m low true τ = some answer ∧
        Pending h a m 1 answer.2 := by
    intro τ hτ hi
    obtain ⟨answer, hanswer, hpending, -, hnc⟩ := exists_readRequestUpdown victim
      (h.height + 1) true (by omega) hτ hlow hserved hi
    rw [hnc rfl, if_pos rfl] at hpending
    exact ⟨answer, hanswer, hpending⟩
  have hkept : grade found.1 = 1 → Pending h a m 1 found.2 := by
    intro hone state hstate
    apply hf.coherent.update_self
    intro x
    apply (hf.coherent a x).setBlock_of_grade
    rw [hstate, ← hf.state, hone]
  have hdone : ∀ τ, Pending h a m 1 τ →
      AllCoherent h (Function.update τ a ((τ a).setBlock m BlockNonCoherent)) :=
    fun τ hpending => hpending BlockNonCoherent rfl
  cases hstate : found.1 with
  | BlockInvalid =>
    obtain ⟨answer, hanswer, hpending⟩ := hread found.2 hf.coherent (by rw [← hf.state, hstate])
    exact ⟨_, by simp [nc_store, ncStoreAction, hfound, hstate, hmain, hlow, hanswer],
      hdone answer.2 hpending, by simp⟩
  | BlockShared =>
    exact ⟨_, by simp [nc_store, ncStoreAction, hfound, hstate],
      hdone found.2 (hkept (by rw [hstate]; rfl)), by simp⟩
  | BlockNonCoherent =>
    exact ⟨_, by simp [nc_store, ncStoreAction, hfound, hstate],
      hdone found.2 (hkept (by rw [hstate]; rfl)), by simp⟩
  | BlockExclusive =>
    have hnone : (found.2 a m).owner = none := by
      cases ho : (found.2 a m).owner with
      | none => rfl
      | some c => exact absurd ((hf.coherent a m).owner c |>.mp ho).1 (htop c)
    obtain ⟨τ, hτ, hpending⟩ := exists_messageClearOwner victim hf.coherent hlow
      (by rw [← hf.state, hstate]; rfl) hnone
    exact ⟨_, by simp [nc_store, ncStoreAction, hfound, hstate, hmain, hlow, hτ],
      hdone τ hpending, by simp⟩
  | BlockModified =>
    obtain ⟨s, hs, hcoh, hgone⟩ := exists_evict m (hf.coherent a)
    obtain ⟨answer, hanswer, hpending⟩ := hread (Function.update found.2 a s)
      (hf.coherent.update_self hcoh) (by simpa using hgone)
    exact ⟨_, by simp [nc_store, ncStoreAction, hfound, hstate, hs, hmain, hlow, hanswer],
      hdone answer.2 hpending, by simp⟩
  | BlockOwned =>
    have hle := (hf.coherent a m).notOwned
    rw [← hf.state, hstate] at hle
    simp [grade] at hle

theorem exists_perform {access : Access A ι} (hσ : AllCoherent h σ) (hsuits : access.Suits h) :
    ∃ τ, perform h access σ = some τ ∧ AllCoherent h τ ∧ access.Done τ := by
  cases hkind : access.kind with
  | load => simpa only [perform, Access.Done, hkind] using exists_load hσ hsuits.1
  | store => simpa only [perform, Access.Done, hkind] using exists_store hσ hsuits.1
  | nc_store =>
    obtain ⟨hmain, htop⟩ := hsuits.2 hkind
    simpa only [perform, Access.Done, hkind] using exists_nc_store hσ hsuits.1 hmain htop

theorem exists_performAll {accesses : List (Access A ι)} (hσ : AllCoherent h σ)
    (hsuits : ∀ access ∈ accesses, access.Suits h) :
    ∃ τ, performAll h accesses σ = some τ ∧ AllCoherent h τ ∧
      ∀ access ∈ accesses.getLast?, access.Done τ := by
  induction accesses generalizing σ with
  | nil => exact ⟨σ, rfl, hσ, by simp⟩
  | cons access accesses ih =>
    rw [List.forall_mem_cons] at hsuits
    obtain ⟨next, hnext, hcoh, hdone⟩ := exists_perform hσ hsuits.1
    obtain ⟨τ, hτ, hall, hlast⟩ := ih hcoh hsuits.2
    refine ⟨τ, by simp [performAll, hnext, hτ], hall, ?_⟩
    cases accesses with
    | nil =>
      obtain rfl : next = τ := by simpa [performAll] using hτ
      simpa using hdone
    | cons second rest => simpa using hlast

end

theorem emptyCaches_coherent : AllCoherent h emptyCaches := by
  intro a x
  constructor <;> simp [emptyCaches, Entry.empty]

/-! ### What coherence means for two modules -/

theorem Coherent.valid_of_below (hs : Coherent h a s) (hx : (s x).state ≠ BlockInvalid)
    (hbelow : Below (h.low a) x m) : (s m).state ≠ BlockInvalid := by
  induction hbelow with
  | refl => exact hx
  | @tail y z _ hyz ih =>
    have hmem : y ∈ (s z).sharers := ((hs z).sharers y).mpr ⟨hyz, by simpa using ih⟩
    simpa using (hs z).present y hmem

/-- A module that has its block for itself has it so from every module below. -/
theorem Coherent.alone_of_below (hs : Coherent h a s) (hx : grade (s x).state = 2)
    (hbelow : Below (h.low a) x m) : grade (s m).state = 2 := by
  induction hbelow with
  | refl => exact hx
  | @tail y z _ hyz ih => exact (hs z).exclusive y (((hs z).owner y).mpr ⟨hyz, ih⟩)

theorem Coherent.comparable (hs : Coherent h a s) (hm : grade (s m).state = 2)
    (hx : (s x).state ≠ BlockInvalid) {r : ι} (hmr : Below (h.low a) m r)
    (hxr : Below (h.low a) x r) : Below (h.low a) x m ∨ Below (h.low a) m x := by
  induction hmr with
  | refl => exact .inl hxr
  | @tail y z hmy hyz ih =>
    by_cases hne : x = z
    · exact .inr (hne ▸ hmy.tail hyz)
    · obtain ⟨c, hc, hxc⟩ := exists_child_of_below hxr hne
      have howner : (s z).owner = some y :=
        ((hs z).owner y).mpr ⟨hyz, hs.alone_of_below hm hmy⟩
      have hmem : c ∈ (s z).sharers :=
        ((hs z).sharers c).mpr ⟨hc, by simpa using hs.valid_of_below hx hxc⟩
      rw [(hs z).alone y howner, Finset.mem_singleton] at hmem
      exact ih (hmem ▸ hxc)

theorem AllCoherent.consistent (hσ : AllCoherent h σ) : Consistent h σ := by
  constructor
  case sharers =>
    intro a x c
    simpa using (hσ a x).sharers c
  case owner =>
    intro a x c
    rw [(hσ a x).owner c, grade_eq_two]
  case inclusive =>
    intro a x c hc hvalid
    exact (hσ a).valid_of_below hvalid (below_of_parent hc)
  case alone =>
    intro a r x m hm hx halone hvalid
    exact (hσ a).comparable (grade_eq_two.mpr halone) hvalid hm hx

theorem AllCoherent.checkBlock_eq [DecidableEq ι] (hσ : AllCoherent h σ) (module : ι) (a : A) :
    checkBlock h σ module a = .ok () := by
  by_cases hskip : h.mainMemory module = true ∨ (σ a module).state = BlockInvalid
  · simp [checkBlock, hskip]
  have hvalid : (σ a module).state ≠ BlockInvalid := fun hi => hskip (.inr hi)
  obtain ⟨lower, hlower⟩ : ∃ t, h.low a module = some t := by
    apply ((hσ a module).served (by simpa using hvalid)).resolve_left
    exact fun hmain => hskip (.inl hmain)
  have hthere : (σ a lower).state ≠ BlockInvalid :=
    (hσ a).valid_of_below hvalid (below_of_parent hlower)
  by_cases halone : (σ a module).state = BlockExclusive ∨ (σ a module).state = BlockModified
  · have howner : (σ a lower).owner = some module :=
      ((hσ a lower).owner module).mpr ⟨hlower, grade_eq_two.mpr halone.symm⟩
    have hsharers := (hσ a lower).alone module howner
    simp [checkBlock, hskip, hlower, hthere, howner, hsharers]
  · simp [checkBlock, hskip, hlower, hthere, halone]

variable [DecidableEq A] [DecidableEq ι]

/-- No assertion fails in any sequence of accesses, and the copies stay consistent. -/
theorem consistent_run (accesses : List (Access A ι))
    (hsuits : ∀ access ∈ accesses, access.Suits h) :
    ∃ σ, performAll h accesses emptyCaches = some σ ∧ Consistent h σ ∧
      ∀ access ∈ accesses.getLast?, access.Done σ := by
  obtain ⟨σ, hrun, hcoh, hdone⟩ := exists_performAll emptyCaches_coherent hsuits
  exact ⟨σ, hrun, hcoh.consistent, hdone⟩

/-- Between two accesses the check of the copies finds nothing to report. -/
theorem sanityCheck_run (accesses : List (Access A ι))
    (hsuits : ∀ access ∈ accesses, access.Suits h) :
    ∃ σ, performAll h accesses emptyCaches = some σ ∧
      ∀ modules blocks, SanityCheck h modules blocks σ = .ok () := by
  obtain ⟨σ, hrun, hcoh, -⟩ := exists_performAll emptyCaches_coherent hsuits
  refine ⟨σ, hrun, fun modules blocks => ?_⟩
  apply ModuleLevels.forM_ok.mpr
  intro module _
  exact ModuleLevels.forM_ok.mpr fun a _ => hcoh.checkBlock_eq module a

def threeCaches : Hierarchy (Fin 1024) ℕ where
  blockSize := 32
  tag a := 32 * a
  low _ m := if m < 2 then some 2 else if m = 2 then some 3 else none
  mainMemory m := m == 3
  high m := if m = 2 then [0, 1] else if m = 3 then [2] else []
  level m := if m < 2 then 0 else if m = 2 then 1 else 2
  height := 2
  blockSize_power := ⟨5, rfl⟩
  blockSize_int := by norm_num
  tag_aligned a := dvd_mul_right 32 _
  tag_inj a b hab := by
    have hval : 32 * (a : ℕ) = 32 * b := hab
    omega
  tag_ends a := by omega
  main_low := by simp
  low_high := by
    intro a m t
    grind
  leveled := by
    intro a x y
    grind
  level_le := by
    intro m
    grind

def contended : List (Access (Fin 1024) ℕ) :=
  [⟨.load, 0, 1, fun _ => none⟩, ⟨.store, 1, 1, fun _ => none⟩,
    ⟨.nc_store, 0, 1, fun _ => some 2⟩]

theorem threeCaches_serves (a : Fin 1024) (m : ℕ) (hm : m ≤ 3) : threeCaches.Serves a m := by
  have hfirst : threeCaches.low a 0 = some 2 := rfl
  have hsecond : threeCaches.low a 1 = some 2 := rfl
  have hthird : threeCaches.low a 2 = some 3 := rfl
  refine ⟨3, rfl, ?_⟩
  interval_cases m
  · exact (below_of_parent hfirst).trans (below_of_parent hthird)
  · exact (below_of_parent hsecond).trans (below_of_parent hthird)
  · exact below_of_parent hthird
  · exact Below.refl 3

theorem contended_suits : ∀ access ∈ contended, access.Suits threeCaches := by
  simp only [contended, List.forall_mem_cons]
  refine ⟨⟨threeCaches_serves _ _ (by simp), by simp⟩, ⟨threeCaches_serves _ _ (by simp), by simp⟩,
    ⟨threeCaches_serves _ _ (by simp), fun _ => ⟨by simp [threeCaches], fun c => ?_⟩⟩, by simp⟩
  simp only [threeCaches]
  grind

theorem consistent_contended :
    ∃ σ, performAll threeCaches contended emptyCaches = some σ ∧ Consistent threeCaches σ ∧
      ∀ access ∈ contended.getLast?, access.Done σ :=
  consistent_run contended contended_suits

theorem sanityCheck_contended :
    ∃ σ, performAll threeCaches contended emptyCaches = some σ ∧
      ∀ modules blocks, SanityCheck threeCaches modules blocks σ = .ok () :=
  sanityCheck_run contended contended_suits

end MMLMStore.ModuleHierarchy
