import MMLMStore.HierarchyCoherence

/-!
# Requests to modules above

A module that holds a block gives up its copy, or keeps a shared one, and sees to the copies above
it first. An eviction hands the block back to the module below.
-/
namespace MMLMStore.ModuleHierarchy

open CacheReplacement ParentTrees
open BlockState Reply

variable {A ι : Type} [DecidableEq ι] {h : Hierarchy A ι} {a : A} {s t : Copies ι} {m x r : ι}
  {state : BlockState}

theorem Served.setBlock (hserved : Served h a r s t)
    (hr : CoherentAt h a (t.setBlock r state) r) : Served h a r s (t.setBlock r state) := by
  constructor
  · intro x hx
    by_cases hxr : x = r
    · exact hxr ▸ hr
    · apply (hserved.coherent x hx).setBlock_of_apart hxr
      intro hlow
      exact not_below_child (h.leveled a) hlow hx
  · intro x hx
    rw [Copies.setBlock_of_ne, hserved.outside x hx]
    rintro rfl
    exact hx (Below.refl x)

theorem exists_writeRequestDownup (fuel : ℕ) {module : ι} (hfuel : h.level m < fuel)
    (hlow : h.low a m = some module) (hs : CoherentIn h a m s) :
    ∃ answer, writeRequestDownup h fuel module m s = some answer ∧ Taken h a [m] s answer.2 := by
  induction fuel generalizing module m s with
  | zero => simp at hfuel
  | succ fuel ih =>
    have hm : CoherentAt h a s m := hs m (Below.refl m)
    by_cases hi : (s m).state = BlockInvalid
    · exact ⟨(ReplyAck, s), by simp [writeRequestDownup, hi], by simpa using hs, by simpa using hi,
        fun _ _ => rfl⟩
    have hrequest : ∀ c, h.low a c = some m → ∀ s, CoherentIn h a c s →
        ∃ answer, writeRequestDownup h fuel m c s = some answer ∧ Taken h a [c] s answer.2 := by
      intro c hc s hs
      have hlevel := h.leveled a _ _ hc
      exact ih (by omega) hc hs
    obtain ⟨t, ht, hserved, hgrade, hsharers, -⟩ :=
      exists_invalidate (some module) hrequest hs
    have hat : CoherentAt h a t m := hserved.coherent m (Below.refl m)
    -- the requester lies below, so it is not one of the sharers
    have hnone : (t m).sharers = ∅ := by
      apply Finset.eq_empty_of_forall_notMem
      intro c hc
      obtain rfl : c = module := by simpa using hsharers c hc
      have hup := h.leveled a _ _ ((hat.sharers c).mp hc).1
      have hdown := h.leveled a _ _ hlow
      omega
    obtain ⟨reply, hreply, -⟩ := exists_ownReply hi
    have hdone := hserved.setBlock (hat.setBlock_invalid hnone)
    refine ⟨(reply, t.setBlock m BlockInvalid), ?_, ?_, by simp, ?_⟩
    · simp [writeRequestDownup, hi, ht, hreply, assert_eq (hat.not_shared hnone)]
    · simpa using hdone.coherent
    · intro x hx
      exact hdone.outside x (by simpa using hx)

theorem writeRequestDownup_above (m : ι) : ∀ c, h.low a c = some m → ∀ s, CoherentIn h a c s →
    ∃ answer, writeRequestDownup h (h.level m) m c s = some answer ∧ Taken h a [c] s answer.2 :=
  fun _ hc _ hs => exists_writeRequestDownup _ (h.leveled a _ _ hc) hc hs

/-- The owner of a block has come down to a shared copy, so the entry names no owner now. -/
theorem CoherentAt.demote {o : ι} (hx : CoherentAt h a s x) (ho : (s x).owner = some o)
    (hserved : Served h a o s t) (hgrade : grade (t o).state = 1) :
    CoherentAt h a (t.setOwner x none) x := by
  have hthere := (hx.owner o).mp ho
  have hroot : t x = s x := hserved.outside x (not_below_child (h.leveled a) hthere.1)
  have hother : ∀ c, h.low a c = some x → c ≠ o → t c = s c := by
    intro c hc hco
    apply hserved.outside
    intro hbelow
    exact hco (eq_of_below_sibling (h.leveled a) hc hthere.1 hbelow)
  constructor
  case sharers =>
    intro c
    simp only [Copies.setOwner_sharers, Copies.setOwner_state, hroot, hx.sharers c]
    apply and_congr_right
    intro hc
    by_cases hco : c = o
    · simp [hco, hgrade, hthere.2]
    · rw [hother c hc hco]
  case owner =>
    intro c
    simp only [Copies.setOwner_owner, if_true, Copies.setOwner_state, reduceCtorEq, false_iff,
      not_and]
    intro hc
    by_cases hco : c = o
    · simp [hco, hgrade]
    · rw [hother c hc hco]
      intro htwo
      have := (hx.owner c).mpr ⟨hc, htwo⟩
      rw [ho, Option.some.injEq] at this
      exact hco this.symm
  case alone => simp
  case exclusive => simp
  case present => simpa [hroot] using hx.present
  case notOwned => simpa [hroot] using hx.notOwned
  case main => simpa [hroot] using hx.main
  case served => simpa [hroot] using hx.served

theorem Copies.setBlock_setOwner (s : Copies ι) (m : ι) (state : BlockState) (owner : Option ι) :
    (s.setBlock m state).setOwner m owner = (s.setOwner m owner).setBlock m state := by
  simp [Copies.setBlock, Copies.setOwner]

/-- A `read_request` leaves the module it goes to with a shared block, if with any. -/
theorem exists_readRequestDownup (fuel : ℕ) (hfuel : h.level m < fuel)
    (hmain : h.mainMemory m ≠ true) (hs : CoherentIn h a m s) (hgrade : grade (s m).state = 2) :
    ∃ answer, readRequestDownup fuel m s = some answer ∧ Served h a m s answer.2 ∧
      (answer.2 m).state = BlockShared ∧ answer.1 ≠ ReplyNone := by
  induction fuel generalizing m s with
  | zero => simp at hfuel
  | succ fuel ih =>
    have hm : CoherentAt h a s m := hs m (Below.refl m)
    have hvalid : (s m).state ≠ BlockInvalid := by
      intro hi
      simp [hi] at hgrade
    have hassert : (s m).state ≠ BlockShared ∧ (s m).state ≠ BlockNonCoherent := by
      constructor <;> intro hi <;> simp [hi, grade] at hgrade
    obtain ⟨reply, hreply, hsome⟩ := exists_ownReply hvalid
    cases ho : (s m).owner with
    | none =>
      have hself : Served h a m s s := ⟨hs, fun _ _ => rfl⟩
      have hset : CoherentAt h a (s.setBlock m BlockShared) m :=
        hm.setBlock_self (by simp [grade]) (by simp [grade]) (fun _ => ho)
          (fun hc => absurd hc hmain) (fun _ => hm.served (by simp [hgrade]))
      refine ⟨(reply, s.setBlock m BlockShared), ?_, hself.setBlock hset, by simp, hsome⟩
      simp [readRequestDownup, hvalid, ho, hreply, assert_eq hassert]
    | some o =>
      have hthere := (hm.owner o).mp ho
      have hlevel := h.leveled a _ _ hthere.1
      obtain ⟨answer, hanswer, hserved, hstate, hnone⟩ := ih (by omega)
        (not_main_of_low hthere.1) (hs.child hthere.1) hthere.2
      have hset : CoherentAt h a ((answer.2.setBlock m BlockShared).setOwner m none) m := by
        rw [Copies.setBlock_setOwner]
        apply (hm.demote ho hserved (by rw [hstate]; rfl)).setBlock_self
        · simp [grade]
        · simp [grade]
        · simp
        · exact fun hc => absurd hc hmain
        · exact fun _ => hm.served (by simp [hgrade])
      have hsame : ∀ x, x ≠ m →
          (answer.2.setBlock m BlockShared).setOwner m none x = answer.2 x := by
        intro x hx
        rw [Copies.setOwner_of_ne _ hx, Copies.setBlock_of_ne _ hx]
      refine ⟨(answer.1, (answer.2.setBlock m BlockShared).setOwner m none), ?_,
        hserved.lift hs hthere.1 hsame hset, by simp, hnone⟩
      cases hcase : answer.1 with
      | ReplyNone => exact absurd hcase hnone
      | ReplyAck => simp [readRequestDownup, hvalid, ho, hanswer, hcase, assert_eq hassert]
      | ReplyAckData => simp [readRequestDownup, hvalid, ho, hanswer, hcase, assert_eq hassert]

theorem CoherentAt.clearNode_of_ne (hx : CoherentAt h a s x) (hm : x ≠ m) (i : ι) :
    CoherentAt h a (s.clearNode m i) x := by
  apply hx.congr <;> simp [hm]

theorem CoherentAt.drop {c : ι} (hx : CoherentAt h a s x) (hc : h.low a c = some x) :
    CoherentAt h a ((s.clearNode x c).setBlock c BlockInvalid) x := by
  have hne : x ≠ c := (ne_of_below_child (h.leveled a) hc (Below.refl c)).symm
  constructor
  case sharers =>
    intro d
    by_cases hd : d = c <;> simp [hd, hx.sharers]
  case owner =>
    intro d
    by_cases hd : d = c
    · by_cases ho : (s x).owner = some c <;> simp [hd, ho]
    · by_cases ho : (s x).owner = some c
      · have hnot : ¬ (h.low a d = some x ∧ grade (s d).state = 2) := by
          rw [← hx.owner d, ho, Option.some.injEq]
          exact fun heq => hd heq.symm
        simpa [hd, ho] using hnot
      · simp [hd, ho, hx.owner]
  case alone =>
    intro d ho
    by_cases hc : (s x).owner = some c
    · simp [hc] at ho
    · simp only [Copies.setBlock_owner, Copies.clearNode_owner, hc, and_false, if_false] at ho
      have hdc : d ≠ c := by
        rintro rfl
        exact hc ho
      simp [hx.alone d ho, hdc.symm]
  case exclusive =>
    intro d ho
    by_cases hc : (s x).owner = some c
    · simp [hc] at ho
    · simp only [Copies.setBlock_owner, Copies.clearNode_owner, hc, and_false, if_false] at ho
      simpa [hne] using hx.exclusive d ho
  case present =>
    intro d hd
    have hmem : d ∈ (s x).sharers := by
      simp only [Copies.setBlock_sharers, Copies.clearNode_sharers, if_true] at hd
      exact Finset.mem_of_mem_erase hd
    simpa [hne] using hx.present d hmem
  case notOwned => simpa [hne] using hx.notOwned
  case main => simpa [hne] using hx.main
  case served => simpa [hne] using hx.served

theorem exists_evict (m : ι) (hs : Coherent h a s) :
    ∃ t, evict h a m s = some t ∧ Coherent h a t ∧ (t m).state = BlockInvalid := by
  have hassert : (s m).state ≠ BlockInvalid ∨ ¬ (s m).isBlockSharedOrOwned := by
    by_cases hi : (s m).state = BlockInvalid
    · exact .inr ((hs m).not_shared ((hs m).sharers_of_invalid hi))
    · exact .inl hi
  obtain ⟨above, habove, hserved, hgrade, hsharers, -⟩ :=
    exists_invalidate none (writeRequestDownup_above m) (fun x _ => hs x)
  have hcoh : Coherent h a above := hserved.all_coherent hs hgrade
  have hempty : (above m).sharers = ∅ := by
    apply Finset.eq_empty_of_forall_notMem
    intro c hc
    simpa using hsharers c hc
  have hgone : CoherentAt h a (above.setBlock m BlockInvalid) m :=
    (hcoh m).setBlock_invalid hempty
  by_cases hmain : h.mainMemory m = true
  · refine ⟨above.setBlock m BlockInvalid, ?_, ?_, by simp⟩
    · simp [evict, assert_eq hassert, habove, hmain]
    · intro x
      by_cases hx : x = m
      · exact hx ▸ hgone
      · apply (hcoh x).setBlock_of_apart hx
        simp [h.main_low a m hmain]
  by_cases hi : (above m).state = BlockInvalid
  · exact ⟨above, by simp [evict, assert_eq hassert, habove, hmain, hi], hcoh, hi⟩
  obtain ⟨target, hlow⟩ : ∃ t, h.low a m = some t := by
    rcases (hcoh m).served (by simpa using hi) with hc | hc
    · exact absurd hc hmain
    · exact hc
  have hne : m ≠ target := ne_of_below_child (h.leveled a) hlow (Below.refl m)
  have hmem : m ∈ (above target).sharers := ((hcoh target).sharers m).mpr ⟨hlow, by simpa using hi⟩
  have hthere : (above target).state ≠ BlockInvalid := by
    simpa using (hcoh target).present m hmem
  obtain ⟨state, hback, hsame⟩ := exists_writeBack (hcoh m).notOwned hthere hi (fun htwo =>
    (hcoh target).exclusive m (((hcoh target).owner m).mpr ⟨hlow, htwo⟩))
  refine ⟨((above.setBlock target state).clearNode target m).setBlock m BlockInvalid, ?_, ?_,
    by simp⟩
  · have hleft : ¬ Entry.isBlockSharedOrOwned
        (((above.setBlock target state).clearNode target m).setBlock m BlockInvalid m) := by
      have howner := (hcoh m).owner_of_sharers hempty
      simp [Entry.isBlockSharedOrOwned, hne, hempty, howner]
    simp [evict, assert_eq hassert, habove, hmain, hi, hlow, assert_eq hthere, hback,
      assert_eq hleft]
  · have hset : Coherent h a (above.setBlock target state) :=
      fun x => (hcoh x).setBlock_of_grade hsame
    intro x
    by_cases hx : x = target
    · exact hx ▸ (hset target).drop hlow
    have hcleared := (hset x).clearNode_of_ne hx m
    by_cases hxm : x = m
    · subst hxm
      exact hcleared.setBlock_invalid (by simpa [hx] using hempty)
    · apply hcleared.setBlock_of_apart hxm
      rw [hlow]
      exact fun heq => hx (Option.some.inj heq).symm

end MMLMStore.ModuleHierarchy
