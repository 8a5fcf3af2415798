import MMLMStore.RequestsAbove

/-!
# Requests to the module below

A module that misses asks the one below it for the block, which may itself have to ask further
down. The request comes back with what the module may do with its copy, and the entry below is in
line with that already.
-/
namespace MMLMStore.ModuleHierarchy

open CacheReplacement ParentTrees
open BlockState Reply

variable {A ι : Type} [DecidableEq ι] {h : Hierarchy A ι} {a : A} {s t : Copies ι}
  {m x module target : ι} {state : BlockState}

theorem Copies.setBlock_eq_self (hs : (s m).state = state) : s.setBlock m state = s := by
  simp [Copies.setBlock, ← hs]

theorem Copies.setOwner_eq_self {owner : Option ι} (hs : (s m).owner = owner) :
    s.setOwner m owner = s := by
  simp [Copies.setOwner, ← hs]

/-! ### Entries that a requester joins -/

/-- A module that has read a block beside others, or that may not write it. -/
theorem CoherentAt.joinShared (ht : CoherentAt h a s target) (hlow : h.low a m = some target)
    (hvalid : (s target).state ≠ BlockInvalid) (howner : (s target).owner = none)
    (hgrade : grade state = 1) :
    CoherentAt h a ((s.setSharer target m).setBlock m state) target := by
  have hne : target ≠ m := (ne_of_below_child (h.leveled a) hlow (Below.refl m)).symm
  constructor
  case sharers =>
    intro c
    by_cases hc : c = m <;> simp [hc, hlow, ht.sharers, -grade_eq_zero, hgrade]
  case owner =>
    intro c
    have hnot : ¬ (h.low a c = some target ∧ grade (s c).state = 2) := by
      simp [← ht.owner c, howner]
    by_cases hc : c = m
    · simp [hc, howner, hgrade]
    · simpa [hc, howner] using hnot
  case alone => simp [howner]
  case exclusive => simp [howner]
  case present =>
    intro c _
    simpa [hne] using hvalid
  case notOwned => simpa [hne] using ht.notOwned
  case main => simpa [hne] using ht.main
  case served => simpa [hne] using ht.served

/-- A module that has a block for itself now. -/
theorem CoherentAt.joinAlone (ht : CoherentAt h a s target) (hlow : h.low a m = some target)
    (hsharers : ∀ c ∈ (s target).sharers, c = m) (htwo : grade (s target).state = 2)
    (hgrade : grade state = 2) : CoherentAt h a
      (((s.setSharer target m).setOwner target (some m)).setBlock m state) target := by
  have hne : target ≠ m := (ne_of_below_child (h.leveled a) hlow (Below.refl m)).symm
  have honly : insert m (s target).sharers = {m} := by
    ext c
    simp only [Finset.mem_insert, Finset.mem_singleton, or_iff_left_iff_imp]
    exact hsharers c
  have hnone : ∀ c, c ≠ m → h.low a c = some target → grade (s c).state = 0 := by
    intro c hc hl
    by_contra hstate
    exact hc (hsharers c ((ht.sharers c).mpr ⟨hl, hstate⟩))
  constructor
  case sharers =>
    intro c
    by_cases hc : c = m
    · simp [hc, hlow, -grade_eq_zero, hgrade]
    · simpa [hc, honly] using hnone c hc
  case owner =>
    intro c
    by_cases hc : c = m
    · simp [hc, hlow, hgrade]
    · have := hnone c hc
      simp only [Copies.setBlock_owner, Copies.setOwner_owner, if_true, Option.some.injEq,
        Copies.setBlock_state, Copies.setOwner_state, Copies.setSharer_state, hc, if_false]
      refine ⟨fun heq => absurd heq.symm hc, fun hs => ?_⟩
      have hzero := this hs.1
      omega
  case alone =>
    intro c hc
    obtain rfl : m = c := by simpa using hc
    simpa using honly
  case exclusive => simp [hne, htwo]
  case present => simp [hne, -grade_eq_zero, htwo]
  case notOwned => simp [hne, htwo]
  case main => simp [hne, htwo]
  case served => simpa [hne] using ht.served

/-- The new state of the requester matters to the module below it alone. -/
theorem Coherent.join (state : BlockState) (owner : Option ι) (hs : Coherent h a s)
    (hlow : h.low a m = some target)
    (hgrade : grade state = 1 ∧ (s m).owner = none ∨ grade state = 2)
    (htarget : CoherentAt h a
      (((s.setSharer target m).setOwner target owner).setBlock m state) target) :
    Coherent h a (((s.setSharer target m).setOwner target owner).setBlock m state) := by
  have hne : m ≠ target := ne_of_below_child (h.leveled a) hlow (Below.refl m)
  intro x
  by_cases hx : x = target
  · exact hx ▸ htarget
  have hentry : CoherentAt h a ((s.setSharer target m).setOwner target owner) x := by
    apply (hs x).congr <;> simp [hx]
  by_cases hxm : x = m
  · subst hxm
    apply hentry.setBlock_self
    · omega
    · omega
    · intro htwo
      simpa [hne] using (hgrade.resolve_right htwo).2
    · exact fun hc => absurd hc (not_main_of_low hlow)
    · exact fun _ => .inr ⟨target, hlow⟩
  · apply hentry.setBlock_of_apart hxm
    rw [hlow]
    exact fun heq => hx (Option.some.inj heq).symm

theorem exists_askOwner (hs : Coherent h a s) (hlow : h.low a module = some target)
    (hi : (s module).state = BlockInvalid) :
    ∃ t, askOwner h module target s = some t ∧ Coherent h a (t.setOwner target none) ∧
      t target = s target ∧ ∀ x, Below (h.low a) x module → t x = s x := by
  cases ho : (s target).owner with
  | none =>
    exact ⟨s, by simp [askOwner, ho], by rwa [Copies.setOwner_eq_self ho], rfl, fun _ _ => rfl⟩
  | some o =>
    have hthere := ((hs target).owner o).mp ho
    have hne : o ≠ module := by
      rintro rfl
      simp [hi] at hthere
    obtain ⟨answer, hanswer, hserved, hstate, -⟩ := exists_readRequestDownup (h.level target)
      (h.leveled a _ _ hthere.1) (not_main_of_low hthere.1) (fun x _ => hs x) hthere.2
    refine ⟨answer.2, by simp [askOwner, ho, hne, hanswer], ?_,
      hserved.outside target (not_below_child (h.leveled a) hthere.1), ?_⟩
    · intro x
      by_cases hx : x = target
      · subst hx
        exact (hs x).demote ho hserved (by rw [hstate]; rfl)
      have hat : CoherentAt h a answer.2 x := by
        by_cases hxo : Below (h.low a) x o
        · exact hserved.coherent x hxo
        · apply hserved.coherentAt (hs x) hxo
          rw [hthere.1]
          exact fun heq => hx (Option.some.inj heq).symm
      apply hat.congr <;> simp [hx]
    · intro x hx
      apply hserved.outside
      intro hxo
      exact hne (eq_of_below_both (h.leveled a) hthere.1 hlow hxo hx)

/-- A block is not shared only where nothing speaks against giving it to the requester alone. -/
theorem readRequestUpdownFinish_cases (state : BlockState) (nc_write shared : Bool)
    (howner : (s target).owner ≠ some module) :
    ∃ isShared, readRequestUpdownFinish module target state nc_write shared s = (isShared,
        if isShared then (s.setOwner target none).setSharer target module
        else ((s.setOwner target none).setSharer target module).setOwner target (some module)) ∧
      (nc_write = true → isShared = true) ∧ (isShared = false → shared = false ∧
        grade state ≠ 1 ∧ ∀ c ∈ (s target).sharers, c = module) := by
  refine ⟨decide (1 < (insert module (s target).sharers).card) || nc_write || shared ||
    decide (state = BlockOwned ∨ state = BlockNonCoherent ∨ state = BlockShared), ?_,
    by simp +contextual, ?_⟩
  · simp [readRequestUpdownFinish, howner]
  intro hfalse
  simp only [Bool.or_eq_false_iff, decide_eq_false_iff_not, not_lt, not_or] at hfalse
  refine ⟨hfalse.1.2, ?_, ?_⟩
  · cases state <;> simp [grade] at hfalse ⊢
  · intro c hc
    apply Finset.card_le_one.mp hfalse.1.1.1 c _ module _ <;> simp [hc]

theorem exists_readRequestUpdownFinish (state : BlockState) (nc_write shared : Bool)
    (hs : Coherent h a (s.setOwner target none)) (howner : (s target).owner ≠ some module)
    (hlow : h.low a module = some target) (hi : (s module).state = BlockInvalid)
    (hvalid : (s target).state ≠ BlockInvalid)
    (halone : shared = false → grade state ≠ 1 → grade (s target).state = 2) :
    ∃ finished, readRequestUpdownFinish module target state nc_write shared s = finished ∧
      (∀ next, grade next = (if finished.1 then 1 else 2) →
        Coherent h a (finished.2.setBlock module next)) ∧
      (∀ x, x ≠ target → finished.2 x = s x) ∧ (nc_write = true → finished.1 = true) := by
  obtain ⟨isShared, hfinish, hnc, hfalse⟩ :=
    readRequestUpdownFinish_cases state nc_write shared howner
  refine ⟨_, hfinish, ?_, ?_, hnc⟩
  · intro next hnext
    have hmodule : (s.setOwner target none module).owner = none := by
      apply (hs module).owner_of_sharers
      exact (hs module).sharers_of_invalid (by simpa using hi)
    cases isShared with
    | true =>
      have hsame : ((s.setOwner target none).setSharer target module).setOwner target none =
          (s.setOwner target none).setSharer target module := Copies.setOwner_eq_self (by simp)
      have hjoin := (hs target).joinShared hlow (by simpa using hvalid) (by simp) hnext
      rw [← hsame] at hjoin
      have hall := hs.join next none hlow (.inl ⟨hnext, hmodule⟩) hjoin
      rwa [hsame] at hall
    | false =>
      obtain ⟨hshared, hstate, hsharers⟩ := hfalse rfl
      apply hs.join next (some module) hlow (.inr hnext)
      apply (hs target).joinAlone hlow _ _ hnext
      · simpa using hsharers
      · simpa using halone hshared hstate
  · intro x hx
    cases isShared <;> simp [Copies.setOwner_of_ne _ hx, Copies.setSharer_of_ne hx]

/-! ### The way down -/

variable [DecidableEq A] {σ : A → Copies ι} {victim : ι → Option A}

def AllCoherent (h : Hierarchy A ι) (σ : A → Copies ι) : Prop := ∀ a, Coherent h a (σ a)

/-- The copies are coherent once the block of a module, whose request has come back, has a state of
the given grade. -/
def Pending (h : Hierarchy A ι) (a : A) (module : ι) (g : ℕ) (σ : A → Copies ι) : Prop :=
  ∀ state, grade state = g → AllCoherent h (Function.update σ a ((σ a).setBlock module state))

/-- Every request for a block reaches a main memory. -/
def Hierarchy.Serves (h : Hierarchy A ι) (a : A) (m : ι) : Prop :=
  ∃ r, h.mainMemory r = true ∧ Below (h.low a) m r

omit [DecidableEq A] [DecidableEq ι] in
theorem Hierarchy.Serves.low (hserves : h.Serves a m) (hmain : h.mainMemory m ≠ true) :
    ∃ t, h.low a m = some t ∧ h.Serves a t := by
  obtain ⟨r, hr, hbelow⟩ := hserves
  rcases below_iff.mp hbelow with rfl | ⟨t, ht, htr⟩
  · exact absurd hr hmain
  · exact ⟨t, ht, r, hr, htr⟩

omit [DecidableEq ι] in
theorem AllCoherent.update (hσ : AllCoherent h (Function.update σ a s)) (ht : Coherent h a t) :
    AllCoherent h (Function.update σ a t) := by
  intro b
  by_cases hb : b = a
  · subst hb
    simpa using ht
  · simpa [hb] using hσ b

omit [DecidableEq ι] in
theorem AllCoherent.update_self (hσ : AllCoherent h σ) (ht : Coherent h a t) :
    AllCoherent h (Function.update σ a t) :=
  AllCoherent.update (s := σ a) (by simpa using hσ) ht

theorem exists_makeRoom (victim : ι → Option A) (hσ : AllCoherent h σ)
    (hi : (σ a m).state = BlockInvalid) :
    ∃ τ, makeRoom h victim m σ = some (BlockInvalid, τ) ∧ AllCoherent h τ ∧ τ a = σ a := by
  cases hv : victim m with
  | none => exact ⟨σ, by simp [makeRoom, hv], hσ, rfl⟩
  | some v =>
    by_cases hempty : (σ v m).state = BlockInvalid
    · exact ⟨σ, by simp [makeRoom, hv, hempty], hσ, rfl⟩
    have hne : a ≠ v := by
      rintro rfl
      exact hempty hi
    obtain ⟨s, hs, hcoh, hgone⟩ := exists_evict m (hσ v)
    refine ⟨Function.update σ v s, ?_, hσ.update_self hcoh, by simp [hne]⟩
    have hassert : (s m).state = BlockInvalid ∨ (s m).state = BlockShared ∨
        (s m).state = BlockExclusive := .inl hgone
    simp [makeRoom, hv, hempty, hs, hgone, assert_eq, Copies.setBlock_eq_self hgone]

/-- What `find_and_lock` finds. Only a main memory gets the block by it. -/
structure Found (h : Hierarchy A ι) (a : A) (m : ι) (σ : A → Copies ι)
    (found : BlockState × (A → Copies ι)) : Prop where
  coherent : AllCoherent h found.2
  state : found.1 = (found.2 a m).state
  other : ∀ x, x ≠ m → found.2 a x = σ a x
  cache : h.mainMemory m ≠ true → found.2 a m = σ a m
  main : h.mainMemory m = true → grade found.1 = 2

theorem findAndLock_hit (hm : (σ a m).state ≠ BlockInvalid) :
    findAndLock h victim a m σ = some ((σ a m).state, σ) := by
  simp [findAndLock, hm]

theorem exists_findAndLock (victim : ι → Option A) (a : A) (m : ι) (hσ : AllCoherent h σ) :
    ∃ found, findAndLock h victim a m σ = some found ∧ Found h a m σ found := by
  by_cases hm : (σ a m).state ≠ BlockInvalid
  · refine ⟨_, findAndLock_hit hm, hσ, rfl, fun _ _ => rfl, fun _ => rfl, ?_⟩
    intro hmain
    have hle := (hσ a m).notOwned
    have hne := (hσ a m).main hmain
    have hzero : grade (σ a m).state ≠ 0 := by simpa using hm
    dsimp only
    omega
  rw [not_not] at hm
  have hempty := (hσ a m).sharers_of_invalid hm
  obtain ⟨τ, hτ, hcoh, hsame⟩ := exists_makeRoom victim hσ hm
  by_cases hmain : h.mainMemory m = true
  · have hset : Coherent h a ((τ a).setBlock m BlockExclusive) := by
      intro x
      rw [hsame]
      by_cases hx : x = m
      · subst hx
        exact (hσ a x).setBlock_self (by simp [grade]) (by simp [grade]) (by simp [grade])
          (by simp [grade]) (fun _ => .inl hmain)
      · apply (hσ a x).setBlock_of_apart hx
        simp [h.main_low a m hmain]
    refine ⟨(BlockExclusive, Function.update τ a ((τ a).setBlock m BlockExclusive)), ?_,
      hcoh.update_self hset, by simp, ?_, fun hc => absurd hmain hc, fun _ => rfl⟩
    · simp [findAndLock, hm, assert_eq ((hσ a m).not_shared hempty), hτ, hmain]
    · intro x hx
      simp [Copies.setBlock_of_ne _ hx, hsame]
  · refine ⟨(BlockInvalid, τ), ?_, hcoh, by simp [hsame, hm], by simp [hsame], by simp [hsame],
      fun hc => absurd hc hmain⟩
    simp [findAndLock, hm, assert_eq ((hσ a m).not_shared hempty), hτ, hmain]

theorem exists_readRequestUpdown (victim : ι → Option A) (fuel : ℕ) (nc_write : Bool)
    (hfuel : h.height < fuel + h.level target) (hσ : AllCoherent h σ)
    (hlow : h.low a module = some target) (hserves : h.Serves a target)
    (hi : (σ a module).state = BlockInvalid) :
    ∃ answer, readRequestUpdown h victim a fuel module target nc_write σ = some answer ∧
      Pending h a module (if answer.1 then 1 else 2) answer.2 ∧
      (∀ x, Below (h.low a) x module → answer.2 a x = σ a x) ∧
      (nc_write = true → answer.1 = true) := by
  induction fuel generalizing module target nc_write σ with
  | zero =>
    have := h.level_le target
    omega
  | succ fuel ih =>
    have hne : ∀ x, Below (h.low a) x module → x ≠ target := fun x hx =>
      ne_of_below_child (h.leveled a) hlow hx
    obtain ⟨found, hfound, hf⟩ := exists_findAndLock victim a target hσ
    have hmodule : (found.2 a module).state = BlockInvalid := by
      rw [hf.other module (hne module (Below.refl module)), hi]
    by_cases hvalid : found.1 ≠ BlockInvalid
    · obtain ⟨s, hs, hcoh, htarget, hkept⟩ := exists_askOwner (hf.coherent a) hlow hmodule
      have howner : (s target).owner ≠ some module := by
        intro ho
        rw [htarget] at ho
        have := ((hf.coherent a target).owner module).mp ho
        simp [hmodule] at this
      obtain ⟨finished, hfinish, hnext, hother, hnc⟩ := exists_readRequestUpdownFinish
        found.1 nc_write false hcoh howner hlow
        (by rw [hkept module (Below.refl module), hmodule]) (by rwa [htarget, ← hf.state]) (by
          intro _ hone
          have hle := (hf.coherent a target).notOwned
          have hzero : grade found.1 ≠ 0 := by simpa using hvalid
          rw [htarget, ← hf.state]
          rw [← hf.state] at hle
          omega)
      refine ⟨(finished.1, Function.update found.2 a finished.2), ?_, ?_, ?_, hnc⟩
      · simp [readRequestUpdown, hfound, hvalid, hs, hfinish]
      · intro state hstate
        simpa using hf.coherent.update_self (hnext state hstate)
      · intro x hx
        simp [hother x (hne x hx), hkept x hx, hf.other x (hne x hx)]
    · rw [not_not] at hvalid
      have hmain : h.mainMemory target ≠ true := by
        intro hmain
        simpa [hvalid] using hf.main hmain
      have htarget : (found.2 a target).state = BlockInvalid := by rw [← hf.state, hvalid]
      have hempty := (hf.coherent a target).sharers_of_invalid htarget
      obtain ⟨low, hlower, hserved⟩ := hserves.low hmain
      have hlevel := h.leveled a _ _ hlower
      obtain ⟨answer, hanswer, hpending, hkept, -⟩ := ih false (by omega) hf.coherent hlower hserved
        htarget
      have hgrade : grade (if answer.1 then BlockShared else BlockExclusive) =
          if answer.1 then 1 else 2 := by
        cases answer.1 <;> rfl
      have hset := hpending _ hgrade
      have hnone : (answer.2 a target).owner = none := by
        rw [hkept target (Below.refl target)]
        exact (hf.coherent a target).owner_of_sharers hempty
      have hcoh := hset a
      rw [Function.update_self] at hcoh
      have hdown : ∀ x, Below (h.low a) x module → answer.2 a x = σ a x := by
        intro x hx
        rw [hkept x (hx.trans (below_of_parent hlow)), hf.other x (hne x hx)]
      obtain ⟨finished, hfinish, hnext, hother, hnc⟩ := exists_readRequestUpdownFinish
        (s := (answer.2 a).setBlock target (if answer.1 then BlockShared else BlockExclusive))
        found.1 nc_write answer.1 (by rwa [Copies.setOwner_eq_self (by simpa using hnone)])
        (by simp [hnone]) hlow
        (by simp [hne module (Below.refl module), hdown module (Below.refl module), hi])
        (by cases answer.1 <;> simp) (by cases answer.1 <;> simp [grade])
      refine ⟨(finished.1, Function.update answer.2 a finished.2), ?_, ?_, ?_, hnc⟩
      · rw [hvalid] at hfinish
        simp [readRequestUpdown, hfound, hvalid, hlower, hanswer, hfinish,
          assert_eq ((hf.coherent a target).not_shared hempty)]
      · intro state hstate
        simpa using hset.update (hnext state hstate)
      · intro x hx
        simp [hother x (hne x hx), Copies.setBlock_of_ne _ (hne x hx), hdown x hx]

/-- The module below, once the other copies above it are gone and it may grant a block. -/
theorem exists_grant (hσ : AllCoherent h (Function.update σ a (s.setBlock target BlockExclusive)))
    (hlow : h.low a module = some target) (hsharers : ∀ c ∈ (s target).sharers, c = module) :
    ∃ t, ((s.setSharer target module).setOwner target (some module)).setBlock target
        BlockExclusive = t ∧ (insert module (s target).sharers).card = 1 ∧
      (∀ x, x ≠ target → t x = s x) ∧ Pending h a module 2 (Function.update σ a t) := by
  refine ⟨_, rfl, ?_, ?_, ?_⟩
  · have honly : insert module (s target).sharers = {module} := by
      ext c
      simp only [Finset.mem_insert, Finset.mem_singleton, or_iff_left_iff_imp]
      exact hsharers c
    simp [honly]
  · intro x hx
    simp [Copies.setBlock_of_ne _ hx, Copies.setOwner_of_ne _ hx, Copies.setSharer_of_ne hx]
  · intro state hstate
    have hcoh := hσ a
    rw [Function.update_self] at hcoh
    have hjoin := hcoh.join state (some module) hlow (.inr hstate)
      ((hcoh target).joinAlone hlow (by simpa using hsharers) (by simp [grade]) hstate)
    have hsame : ((s.setSharer target module).setOwner target (some module)).setBlock target
        BlockExclusive = ((s.setBlock target BlockExclusive).setSharer target module).setOwner
          target (some module) := by
      simp [Copies.setBlock, Copies.setSharer, Copies.setOwner]
    rw [hsame]
    simpa using hσ.update hjoin

theorem exists_writeRequestUpdown (victim : ι → Option A) (fuel : ℕ)
    (hfuel : h.height < fuel + h.level target) (hσ : AllCoherent h σ)
    (hlow : h.low a module = some target) (hserves : h.Serves a target) :
    ∃ τ, writeRequestUpdown h victim a fuel module target σ = some τ ∧ Pending h a module 2 τ ∧
      ∀ x, Below (h.low a) x module → τ a x = σ a x := by
  induction fuel generalizing module target σ with
  | zero =>
    have := h.level_le target
    omega
  | succ fuel ih =>
    have hne : ∀ x, Below (h.low a) x module → x ≠ target := fun x hx =>
      ne_of_below_child (h.leveled a) hlow hx
    obtain ⟨found, hfound, hf⟩ := exists_findAndLock victim a target hσ
    obtain ⟨s, hs, hserved, hgrade, hsharers, hkept⟩ := exists_invalidate
      (some module) (writeRequestDownup_above target)
      (fun x _ => hf.coherent a x)
    have halone : AllCoherent h (Function.update found.2 a s) :=
      hf.coherent.update_self (hserved.all_coherent (hf.coherent a) hgrade)
    have hdown : ∀ x, Below (h.low a) x module → s x = σ a x := by
      intro x hx
      rw [hkept module rfl hlow x hx, hf.other x (hne x hx)]
    have honly : ∀ c ∈ (s target).sharers, c = module := by
      intro c hc
      simpa using hsharers c hc
    by_cases htwo : found.1 = BlockModified ∨ found.1 = BlockExclusive
    · have hset : AllCoherent h (Function.update found.2 a (s.setBlock target BlockExclusive)) := by
        apply halone.update
        intro x
        have hx := halone a x
        rw [Function.update_self] at hx
        apply hx.setBlock_of_grade
        rw [hgrade, ← hf.state, grade_eq_two.mpr htwo]
        rfl
      obtain ⟨t, ht, hcard, hother, hpending⟩ := exists_grant hset hlow honly
      refine ⟨Function.update found.2 a t, ?_, hpending, ?_⟩
      · simp [writeRequestUpdown, hfound, hs, htwo, ht, assert_eq hcard]
      · intro x hx
        simp [hother x (hne x hx), hdown x hx]
    · have hmain : h.mainMemory target ≠ true := by
        intro hmain
        exact htwo (grade_eq_two.mp (hf.main hmain))
      obtain ⟨low, hlower, hserved⟩ := hserves.low hmain
      have hlevel := h.leveled a _ _ hlower
      obtain ⟨τ, hτ, hpending, hbelow⟩ := ih (by omega) halone hlower hserved
      have hroot : τ a target = s target := by simpa using hbelow target (Below.refl target)
      obtain ⟨t, ht, hcard, hother, hdone⟩ := exists_grant (hpending BlockExclusive rfl) hlow
        (by rwa [hroot])
      refine ⟨Function.update τ a t, ?_, hdone, ?_⟩
      · simp [writeRequestUpdown, hfound, hs, htwo, hlower, hτ, ht, assert_eq hcard]
      · intro x hx
        have := hbelow x (hx.trans (below_of_parent hlow))
        simp [hother x (hne x hx), this, hdown x hx]

end MMLMStore.ModuleHierarchy
