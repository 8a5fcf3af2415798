import MMLMStore.SectionLifetime
import MMLMStore.TranslatedAccesses

/-!
# Blocks of a running program

The transformed program runs with its LMStore: every access to a section of the linker script goes
through the MMU to the directory. As long as active functions have different LMRef entries, the
directory holds exactly the blocks that the program has allocated and not given back.
-/
namespace MMLMStore.ResidentBlocks
open CodeShape IRExecution KeptFunctions LMStoreDecode LMStorePass LMStoreTables LinkedAddresses
  MmuTranslation ModuleIR SectionContents SectionLifetime StepRuns TranslatedAccesses

def isStore : Event → Bool
  | .store _ _ _ _ _ => true
  | _ => false

def IsPlaced (out : Output) (id : GlobalId) : Prop :=
  ∃ G ∈ out.M.globals, G.id = id ∧ ∃ line ∈ out.linkld, line.section_ = G.section_

instance (out : Output) (id : GlobalId) : Decidable (IsPlaced out id) :=
  inferInstanceAs (Decidable (∃ G ∈ out.M.globals, _))

/-- Virtual address of an access to a placed global. -/
def issued (out : Output) (address : GlobalId → ℕ) (e : Event) : Option Address :=
  (pointerOf e).bind fun p =>
    match p.object with
    | .globalVariable id =>
      if IsPlaced out id then some (BitVec.ofNat 32 (address id + p.offset).toNat) else none
    | _ => none

def perform (out : Output) (address : GlobalId → ℕ) (c : Machine) (e : Event) : Option Machine :=
  match issued out address e with
  | none => some c
  | some v => c.access (isStore e) v

/-- The machine after the accesses of some events, each done before the next. -/
def replay (out : Output) (address : GlobalId → ℕ) (events : List Event) (c : Machine) :
    Option Machine :=
  events.foldlM (perform out address) c

/-- Accesses to globals stay inside them, and only inserted loads read the words that allocate and
give back. -/
structure Proper (m : Module) (out : Output) (e : Event) : Prop where
  inside : ∀ p G, pointerOf e = some p → G ∈ out.M.globals → p.object = .globalVariable G.id →
    0 ≤ p.offset ∧ p.offset < out.M.getTypeAllocSize G.valueType
  place : ∀ p G, pointerOf e = some p → G ∈ out.M.globals → p.object = .globalVariable G.id →
    IsPlaced out G.id → (∃ X, Owns m X ∧ G.section_ = sectionName X.name .MemAccess) ∨
      ∃ X, IsAlloc X e ∨ IsDealloc X e

/-- Blocks of active functions have LMRef entries of their own. -/
def Separate (m : Module) (out : Output) (s : State) : Prop :=
  ∀ a ∈ s.stack, ∀ b ∈ s.stack, ∀ X ∈ allocatedBy m a, ∀ Y ∈ allocatedBy m b, X ≠ Y →
    ownerIndex out X ≠ ownerIndex out Y

instance (m : Module) (out : Output) (s : State) : Decidable (Separate m out s) :=
  inferInstanceAs (Decidable (∀ a ∈ s.stack, ∀ b ∈ s.stack, ∀ X ∈ allocatedBy m a,
    ∀ Y ∈ allocatedBy m b, X ≠ Y → ownerIndex out X ≠ ownerIndex out Y))

/-- What a step of the program has to keep to: no function is active twice, active blocks have
entries of their own, accesses are in place, and a section is accessed only while a function that
allocates it is active. -/
structure WellBehaved (m : Module) (out : Output) (s : State) (e : Event) : Prop where
  noRecursion : NoRecursion s
  separate : Separate m out s
  proper : Proper m out e
  progress : ∀ X, Owns m X → Accesses out.M X e → InProgress m X s

def blockAt (address : GlobalId → ℕ) (X : Owner) : Decoded :=
  DecodeAddress (virtText (address (.allocaIns X)))

structure HasBlock (address : GlobalId → ℕ) (X : Owner) (d : LMDir_t) : Prop where
  valid : d.state ≠ .BlockInvalid
  BlockID : d.BlockID = (blockAt address X).BlockID
  BlockSize : d.BlockSize = (blockAt address X).BlockSize

/-- Allocations find their entry free, accesses and deallocations find the owner's block in it. -/
structure Answered (m : Module) (out : Output) (address : GlobalId → ℕ) (c : Machine)
    (e : Event) : Prop where
  alloc : ∀ X, IsAlloc X e → ∃ v d, issued out address e = some v ∧ c.found v = some d ∧
    d.state = .BlockInvalid
  access : ∀ X, Owns m X → Accesses out.M X e → ∃ v d, issued out address e = some v ∧
    c.found v = some d ∧ HasBlock address X d
  dealloc : ∀ X, IsDealloc X e → ∃ v d, issued out address e = some v ∧ c.found v = some d ∧
    HasBlock address X d

/-- The directory has the blocks that are held, and no others. -/
structure Mirrors (out : Output) (address : GlobalId → ℕ) (past : List Event) (c : Machine) :
    Prop where
  sized : c.Sized
  held : ∀ X, Held past X → ∀ d ∈ c.lmstore.LMDir[ownerIndex out X]?, HasBlock address X d
  free : ∀ i, ∀ d ∈ c.lmstore.LMDir[i]?, d.state ≠ .BlockInvalid →
    ∃ X, Held past X ∧ ownerIndex out X = i

/-! Code under execution. -/

/-- The code that remains of an activation is code of its function. -/
def Contained (stack : List Activation) : Prop :=
  ∀ fr, Activation.code fr ∈ stack → ∀ I ∈ fr.code, I ∈ fr.function.instructions

theorem contained_enter {M : Module} {stack : List Activation} (h : Contained stack)
    (activation : ℕ) (name : String) (args : List Word) (returnTo : Option InstId) :
    Contained (activationOf M activation name args returnTo :: stack) := by
  intro fr hfr I hI
  rcases List.mem_cons.mp hfr with hfr | hfr
  · unfold activationOf at hfr
    split at hfr
    · cases hfr
    · rename_i F hF
      cases hblocks : F.blocks with
      | nil => simp [hblocks] at hfr
      | cons entry rest =>
        simp only [hblocks, Activation.code.injEq] at hfr
        subst hfr
        exact List.mem_flatten.mpr ⟨entry, by simp [hblocks], hI⟩
  · exact h fr hfr I hI

theorem contained_leave {stack : List Activation} (h : Contained stack) (value : Option Word)
    (returnTo : Option InstId) : Contained (leave value returnTo stack) := by
  unfold leave
  split
  · rename_i w id fr below
    intro fr' hfr'
    rcases List.mem_cons.mp hfr' with hfr' | hfr'
    · cases hfr'
      exact h fr List.mem_cons_self
    · exact h fr' (List.mem_cons_of_mem _ hfr')
  · exact h

theorem phis_subset {fr : Frame} {BB : List Instruction}
    {x : List (InstId × Word) × List Instruction} (h : phis fr BB = some x) : x.2 ⊆ BB := by
  induction BB generalizing x with
  | nil =>
    cases h
    exact List.Subset.refl _
  | cons I rest ih =>
    rw [phis] at h
    split at h
    · simp only [Option.bind_eq_bind, Option.bind_eq_some_iff, Option.some.injEq] at h
      obtain ⟨k, -, w, -, y, hy, rfl⟩ := h
      exact fun J hJ => List.mem_cons_of_mem _ (ih hy hJ)
    · cases h
      exact List.Subset.refl _

theorem contained_moves {M : Module} {stack stack' : List Activation} {e : Event}
    (h : Contained stack) (hmoves : Moves M stack e stack') : Contained stack' := by
  have hcons : ∀ {a b : Activation} {rest : List Activation}, Contained (a :: rest) →
      (∀ fr, b = .code fr → ∀ I ∈ fr.code, I ∈ fr.function.instructions) →
      Contained (b :: rest) := by
    intro a b rest hall hb fr hfr
    rcases List.mem_cons.mp hfr with hfr | hfr
    · exact hb fr hfr.symm
    · exact hall fr (List.mem_cons_of_mem _ hfr)
  have htail : ∀ {a : Activation} {rest : List Activation}, Contained (a :: rest) →
      Contained rest := fun hall fr hfr => hall fr (List.mem_cons_of_mem _ hfr)
  cases hmoves with
  | @advance fr fr' rest I code e hcode hret hperforms hactivation hfunction hcode' =>
    refine hcons h fun f hf J hJ => ?_
    cases hf
    rw [hfunction]
    exact h fr List.mem_cons_self J (by rw [hcode]; exact List.mem_cons_of_mem _ (hcode' ▸ hJ))
  | @call fr rest I code callee hcode hcall activation name args =>
    refine contained_enter (hcons h fun f hf J hJ => ?_) _ _ _ _
    cases hf
    exact h fr List.mem_cons_self J (by rw [hcode]; exact List.mem_cons_of_mem _ hJ)
  | ret hcode hret value => exact contained_leave (htail h) _ _
  | @branch fr rest I code BB targets target x hcode hbr htarget hBB hphis =>
    refine hcons h fun f hf J hJ => ?_
    cases hf
    exact List.mem_flatten.mpr ⟨BB, List.mem_of_getElem? hBB, phis_subset hphis hJ⟩
  | environmentStore p w => exact h
  | callBack activation name args => exact contained_enter h _ _ _ _
  | finish w => exact contained_leave (htail h) _ _

/-! Blocks that are held. -/

theorem phase_subset {owners held : List Owner} {code : List Instruction}
    (h : Phase owners held code) : held ⊆ owners := by
  intro X hX
  cases h with
  | entering howners hloads hbody =>
    rw [howners]
    exact List.mem_append_left _ hX
  | leaving count howners hloads hret hrest =>
    rw [howners]
    exact List.mem_append_right _ hX

theorem phase_nodup {owners held : List Owner} {code : List Instruction}
    (h : Phase owners held code) (hnodup : owners.Nodup) : held.Nodup := by
  cases h with
  | entering howners hloads hbody => exact (List.nodup_append.mp (howners ▸ hnodup)).1
  | leaving count howners hloads hret hrest =>
    exact (List.nodup_append.mp (howners ▸ hnodup)).2.1

theorem allocated_of_held {m M : Module} {past : List Event} {stack : List Activation} {X : Owner}
    (h : Accounted m M past stack) (hX : Held past X) : ∃ a ∈ stack, X ∈ allocatedBy m a := by
  obtain ⟨held, hstacked, hheld⟩ := h
  rcases (hheld X).mp hX with hX | ⟨a, ha, hX⟩
  · cases stack with
    | nil =>
      rw [Stacked] at hstacked
      simp [hstacked] at hX
    | cons a rest =>
      cases a with
      | code fr => exact ⟨_, List.mem_cons_self, phase_subset hstacked.2.1 hX⟩
      | environment returnTo => simp [hstacked.1] at hX
  · exact ⟨a, List.mem_of_mem_tail ha, hX⟩

theorem index_ne_of_held {m : Module} {out : Output} {past : List Event} {s : State} {X Y : Owner}
    (h : Accounted m out.M past s.stack) (hseparate : Separate m out s)
    (hX : ∃ a ∈ s.stack, X ∈ allocatedBy m a) (hY : Held past Y) (hne : X ≠ Y) :
    ownerIndex out X ≠ ownerIndex out Y := by
  obtain ⟨a, ha, hX⟩ := hX
  obtain ⟨b, hb, hY⟩ := allocated_of_held h hY
  exact hseparate a ha b hb X hX Y hY hne

/-- A step that executes an inserted load: who executes it, and where the load stands. -/
structure Marks (m M : Module) (X : Owner) (stack : List Activation) (id : InstId)
    (global : GlobalId) (e : Event) : Prop where
  allocated : ∃ a ∈ stack, X ∈ allocatedBy m a
  code : ∃ F ∈ M.functions, X ∈ ownersFor m F.name ∧ ∃ name globalName,
    insertedLoad id name global globalName ∈ F.instructions
  event : ∃ activation name w, e = .load activation name id ⟨.globalVariable global, 0⟩ w

theorem id_of_alloc {fr : Frame} {I : Instruction} {e : Event} {X : Owner} (h : Performs fr I e)
    (he : IsAlloc X e) : I.id = .AI X := by
  obtain ⟨activation, name, p, w, rfl⟩ := he
  generalize hid : InstId.AI X = id at h
  cases h with
  | load hload hp => rfl

theorem id_of_dealloc {fr : Frame} {I : Instruction} {e : Event} {X : Owner}
    (h : Performs fr I e) (he : IsDealloc X e) : ∃ count, I.id = .DI X count := by
  obtain ⟨activation, name, count, p, w, rfl⟩ := he
  generalize hid : InstId.DI X count = id at h
  cases h with
  | load hload hp => exact ⟨count, hid.symm⟩

section Moves

variable {m M : Module} {past : List Event} {stack stack' : List Activation} {e : Event}
  {X : Owner} (haccounted : Accounted m M past stack) (hcontained : Contained stack)
  (hmoves : Moves M stack e stack') (hnodup : (stack.filterMap functionName).Nodup)

include haccounted hcontained hmoves hnodup

theorem marks_of_alloc (he : IsAlloc X e) :
    Marks m M X stack (.AI X) (.allocaIns X) e ∧ ¬ Held past X := by
  obtain ⟨held, hstacked, hheld⟩ := haccounted
  cases hmoves with
  | @advance fr fr' rest I code e hcode hret hperforms hactivation hfunction hcode' =>
    obtain ⟨hmem, hphase, hwaiting⟩ := hstacked
    have hid := id_of_alloc hperforms he
    have hI : I ∈ fr.function.instructions :=
      hcontained fr List.mem_cons_self I (by rw [hcode]; exact List.mem_cons_self)
    rw [hcode] at hphase
    cases next_of_phase hphase with
    | source hsource hret' hentry hheldOwners hbody =>
      rw [hid] at hsource
      cases hsource
    | @alloc Y name globalName hload hnext =>
      subst hload
      obtain rfl : Y = X := by simpa [insertedLoad] using hid
      have hY := phase_subset hnext (List.mem_append_right _ List.mem_cons_self)
      have hfresh : Y ∉ held := by
        intro hheldY
        have hheldNodup := phase_nodup hnext (ownersFor_nodup m fr.function.name)
        exact (List.nodup_append.mp hheldNodup).2.2 Y hheldY Y List.mem_cons_self rfl
      obtain ⟨w, rfl⟩ := event_of_insertedLoad hperforms
      refine ⟨⟨⟨_, List.mem_cons_self, hY⟩, ⟨fr.function, hmem, hY, name, globalName, hI⟩,
        ⟨_, _, w, rfl⟩⟩, fun hpast => ?_⟩
      rcases (hheld Y).mp hpast with hpast | hpast
      · exact hfresh hpast
      · exact not_allocated_below hnodup hY hpast
    | dealloc hload hheldX hsuffix hnext => simp [hload, insertedLoad] at hid
    | ret hret' hheldNil => exact absurd hret' hret
  | _ => simp [IsAlloc] at he

/-- A deallocation load is of a block that its function holds. -/
theorem marks_of_dealloc (he : IsDealloc X e) :
    (∃ count, Marks m M X stack (.DI X count) (.deallocaIns X count) e) ∧ Held past X := by
  obtain ⟨held, hstacked, hheld⟩ := haccounted
  cases hmoves with
  | @advance fr fr' rest I code e hcode hret hperforms hactivation hfunction hcode' =>
    obtain ⟨hmem, hphase, hwaiting⟩ := hstacked
    obtain ⟨count, hid⟩ := id_of_dealloc hperforms he
    have hI : I ∈ fr.function.instructions :=
      hcontained fr List.mem_cons_self I (by rw [hcode]; exact List.mem_cons_self)
    rw [hcode] at hphase
    cases next_of_phase hphase with
    | source hsource hret' hentry hheldOwners hbody =>
      rw [hid] at hsource
      cases hsource
    | alloc hload hnext => simp [hload, insertedLoad] at hid
    | @dealloc Y count' name globalName held' hload hheldY hsuffix hnext =>
      subst hload
      obtain ⟨rfl, rfl⟩ : Y = X ∧ count' = count := by simpa [insertedLoad] using hid
      have hY : Y ∈ held := by simp [hheldY]
      have howner := phase_subset hphase hY
      obtain ⟨w, rfl⟩ := event_of_insertedLoad hperforms
      exact ⟨⟨count', ⟨⟨_, List.mem_cons_self, howner⟩,
        ⟨fr.function, hmem, howner, name, globalName, hI⟩, ⟨_, _, w, rfl⟩⟩⟩,
        (hheld Y).mpr (.inl hY)⟩
    | ret hret' hheldNil => exact absurd hret' hret
  | _ => simp [IsDealloc] at he

end Moves

/-! Accesses that the machine serves. -/

section Machine

variable {m : SourceModule} {out : Output} (h : runOnModule m.toModule = some out)
  (hglobal : GlobalSized m.toModule) {address : GlobalId → ℕ} (hlinked : Linked out address)

include h hglobal hlinked

/-- An access inside a global of an owner's section has the owner's entry in its address. -/
theorem exists_issued {e : Event} {p : Pointer} {G : GlobalVariable} {X : Owner}
    {kind : SectionKind} (hp : pointerOf e = some p) (hG : G ∈ out.M.globals)
    (hobject : p.object = .globalVariable G.id) (hsection : G.section_ = sectionName X.name kind)
    (hX : Owns m.toModule X) (hkind : kind ∈ usedKinds) (hstart : 0 ≤ p.offset)
    (hfinish : p.offset < out.M.getTypeAllocSize G.valueType) :
    ∃ v, issued out address e = some v ∧ v.toNat = address G.id + p.offset.toNat ∧
      v.toNat / 2 ^ 16 = operation kind * 256 + ownerIndex out X := by
  obtain ⟨text, hline, -⟩ := exists_line h hglobal hX hkind
  have hplaced : IsPlaced out G.id := ⟨G, hG, rfl, _, hline, hsection.symm⟩
  have hdiv := address_div h hglobal hlinked hX hkind hG hsection
    (show p.offset.toNat < out.M.getTypeAllocSize G.valueType by omega)
  have hindex := ownerIndex_lt h X
  have hop : operation kind < 128 := by cases kind <;> decide
  have hnat : ((address G.id : ℤ) + p.offset).toNat = address G.id + p.offset.toNat := by omega
  have hvalue : (BitVec.ofNat 32 (address G.id + p.offset.toNat)).toNat =
      address G.id + p.offset.toNat := by
    rw [BitVec.toNat_ofNat]
    exact Nat.mod_eq_of_lt (by omega)
  refine ⟨BitVec.ofNat 32 (address G.id + p.offset.toNat), ?_, hvalue, ?_⟩
  · simp [issued, hp, hobject, hplaced, hnat]
  · rw [hvalue]
    exact hdiv

variable {past : List Event} {c : Machine} (hmirrors : Mirrors out address past c)

include hmirrors

theorem exists_perform {e : Event} {p : Pointer} {G : GlobalVariable} {X : Owner}
    {kind : SectionKind} (hp : pointerOf e = some p) (hG : G ∈ out.M.globals)
    (hobject : p.object = .globalVariable G.id) (hsection : G.section_ = sectionName X.name kind)
    (hX : Owns m.toModule X) (hkind : kind ∈ usedKinds) (hstart : 0 ≤ p.offset)
    (hfinish : p.offset < out.M.getTypeAllocSize G.valueType) :
    ∃ c' v d, perform out address c e = some c' ∧ issued out address e = some v ∧
      c'.Sized ∧ c.lmstore.LMDir[ownerIndex out X]? = some d ∧ c.found v = some d ∧
      c'.lmstore.LMDir = c.lmstore.LMDir.set (ownerIndex out X) (served kind (isStore e)
        c.lmstore.LMBIndex (DecodeAddress (virtText (address G.id + p.offset.toNat))) d) := by
  obtain ⟨v, hissued, hvalue, hdiv⟩ := exists_issued h hglobal hlinked hp hG hobject hsection hX
    hkind hstart hfinish
  obtain ⟨c', d, haccess, hsized, hd, hfound, hdir⟩ := exists_access hmirrors.sized
    (ownerIndex_lt h X) hdiv hkind (isStore e)
  rw [hvalue] at hdir
  exact ⟨c', v, d, by simp [perform, hissued, haccess], hissued, hsized, hd, hfound, hdir⟩

variable (hsize : m.getTypeAllocSize (.integer 32) = 4) {stack : List Activation}

include hsize

theorem exists_mark {e : Event} {X : Owner} {kind : SectionKind} {id : InstId} {global : GlobalId}
    (hmarks : Marks m.toModule out.M X stack id global e) (hkind : kind ∈ usedKinds)
    (hword : IsWord out.M X kind global) :
    ∃ c' v d, perform out address c e = some c' ∧ issued out address e = some v ∧
      c'.Sized ∧ c.lmstore.LMDir[ownerIndex out X]? = some d ∧ c.found v = some d ∧
      c'.lmstore.LMDir = c.lmstore.LMDir.set (ownerIndex out X)
        (served kind false c.lmstore.LMBIndex (DecodeAddress (virtText (address global))) d) := by
  obtain ⟨F, hF, hX, -⟩ := hmarks.code
  obtain ⟨activation, name, w, rfl⟩ := hmarks.event
  obtain ⟨G, hG, rfl, hsection, htype⟩ := hword
  have hbytes : out.M.getTypeAllocSize G.valueType = 4 := by
    rw [htype, runOnModule_layout h, hsize]
  have hperform := exists_perform h hglobal hlinked hmirrors
    (e := .load activation name id ⟨.globalVariable G.id, 0⟩ w) rfl hG rfl hsection ⟨F.name, hX⟩
    hkind le_rfl (by rw [hbytes]; norm_num)
  simpa [isStore] using hperform

end Machine

/-! Steps of the program. -/

section Steps

variable {m : SourceModule} {out : Output} (h : runOnModule m.toModule = some out)
  (hglobal : GlobalSized m.toModule) (hsize : m.getTypeAllocSize (.integer 32) = 4)
  {address : GlobalId → ℕ} (hlinked : Linked out address) {past : List Event} {c : Machine}
  (hmirrors : Mirrors out address past c) {s : State} {stack' : List Activation} {e : Event}
  (haccounted : Accounted m.toModule out.M past s.stack) (hcontained : Contained s.stack)
  (hmoves : Moves out.M s.stack e stack') (hrec : NoRecursion s)
  (hseparate : Separate m.toModule out s)

include h hglobal hsize hlinked hmirrors haccounted hcontained hmoves hrec hseparate

theorem mirrors_alloc {X : Owner} (he : IsAlloc X e) :
    ∃ c' v d, perform out address c e = some c' ∧ Mirrors out address (past ++ [e]) c' ∧
      issued out address e = some v ∧ c.found v = some d ∧ d.state = .BlockInvalid := by
  obtain ⟨hmarks, hfresh⟩ := marks_of_alloc haccounted hcontained hmoves hrec he
  obtain ⟨F, hF, hX, name, globalName, hload⟩ := hmarks.code
  have hword := (isWord_of_insertedLoad h hF hX hload).1 (by simp [isAI])
  obtain ⟨c', v, d, hperform, hissued, hsized, hd, hfound, hdir⟩ :=
    exists_mark h hglobal hlinked hmirrors hsize hmarks (by decide) hword
  have hother : ∀ Y, Held past Y → ownerIndex out X ≠ ownerIndex out Y := by
    intro Y hY
    apply index_ne_of_held haccounted hseparate hmarks.allocated hY
    rintro rfl
    exact hfresh hY
  have hheld : ∀ Y, Held (past ++ [e]) Y ↔ Y = X ∨ Held past Y := by
    intro Y
    obtain ⟨activation, f, w, rfl⟩ := hmarks.event
    rw [held_concat]
    simp [IsAlloc, IsDealloc, eq_comm]
  have hlt : ownerIndex out X < c.lmstore.LMDir.length := (List.getElem?_eq_some_iff.mp hd).1
  refine ⟨c', v, d, hperform, ⟨hsized, fun Y hY e' he' => ?_, fun i e' he' hvalid => ?_⟩, hissued,
    hfound, ?_⟩
  · rw [hdir] at he'
    rcases (hheld Y).mp hY with rfl | hY
    · rw [List.getElem?_set_self hlt, Option.mem_some_iff] at he'
      subst he'
      exact ⟨by simp [served], rfl, rfl⟩
    · rw [List.getElem?_set_ne (hother Y hY)] at he'
      exact hmirrors.held Y hY e' he'
  · rw [hdir] at he'
    by_cases hi : ownerIndex out X = i
    · exact ⟨X, (hheld X).mpr (.inl rfl), hi⟩
    · rw [List.getElem?_set_ne hi] at he'
      obtain ⟨Y, hY, hindex⟩ := hmirrors.free i e' he' hvalid
      exact ⟨Y, (hheld Y).mpr (.inr hY), hindex⟩
  · by_contra hvalid
    obtain ⟨Y, hY, hindex⟩ := hmirrors.free _ d hd hvalid
    exact hother Y hY hindex.symm

theorem mirrors_dealloc {X : Owner} (he : IsDealloc X e) :
    ∃ c' v d, perform out address c e = some c' ∧ Mirrors out address (past ++ [e]) c' ∧
      issued out address e = some v ∧ c.found v = some d ∧ HasBlock address X d := by
  obtain ⟨⟨count, hmarks⟩, hX⟩ := marks_of_dealloc haccounted hcontained hmoves hrec he
  obtain ⟨F, hF, howner, name, globalName, hload⟩ := hmarks.code
  have hword := (isWord_of_insertedLoad h hF howner hload).2 (by simp [isDI])
  obtain ⟨c', v, d, hperform, hissued, hsized, hd, hfound, hdir⟩ :=
    exists_mark h hglobal hlinked hmirrors hsize hmarks (by decide) hword
  have hheld : ∀ Y, Held (past ++ [e]) Y ↔ Held past Y ∧ X ≠ Y := by
    intro Y
    obtain ⟨activation, f, w, rfl⟩ := hmarks.event
    rw [held_concat]
    simp [IsAlloc, IsDealloc]
  have hlt : ownerIndex out X < c.lmstore.LMDir.length := (List.getElem?_eq_some_iff.mp hd).1
  refine ⟨c', v, d, hperform, ⟨hsized, fun Y hY e' he' => ?_, fun i e' he' hvalid => ?_⟩, hissued,
    hfound, hmirrors.held X hX d hd⟩
  · obtain ⟨hY, hne⟩ := (hheld Y).mp hY
    have hindex := index_ne_of_held haccounted hseparate hmarks.allocated hY hne
    rw [hdir, List.getElem?_set_ne hindex] at he'
    exact hmirrors.held Y hY e' he'
  · rw [hdir] at he'
    by_cases hi : ownerIndex out X = i
    · subst hi
      rw [List.getElem?_set_self hlt, Option.mem_some_iff] at he'
      subst he'
      exact absurd rfl hvalid
    · rw [List.getElem?_set_ne hi] at he'
      obtain ⟨Y, hY, hindex⟩ := hmirrors.free i e' he' hvalid
      refine ⟨Y, (hheld Y).mpr ⟨hY, ?_⟩, hindex⟩
      rintro rfl
      exact hi hindex

omit hsize hseparate in
theorem mirrors_access (hproper : Proper m.toModule out e) {X : Owner} (hX : Owns m.toModule X)
    (he : Accesses out.M X e) (hheldX : Held past X) :
    ∃ c' v d, perform out address c e = some c' ∧ Mirrors out address (past ++ [e]) c' ∧
      issued out address e = some v ∧ c.found v = some d ∧ HasBlock address X d := by
  obtain ⟨p, G, hp, hG, hobject, hsection⟩ := he
  obtain ⟨hstart, hfinish⟩ := hproper.inside p G hp hG hobject
  obtain ⟨c', v, d, hperform, hissued, hsized, hd, hfound, hdir⟩ :=
    exists_perform h hglobal hlinked hmirrors hp hG hobject hsection hX (by decide) hstart hfinish
  have hmarker : ∀ {owner : Owner} {id : InstId} {global : GlobalId},
      Marks m.toModule out.M owner s.stack id global e →
      (global = .allocaIns owner ∨ ∃ count, global = .deallocaIns owner count) → False := by
    intro owner id global hmarks hid
    obtain ⟨activation, name, w, rfl⟩ := hmarks.event
    obtain rfl : ⟨.globalVariable global, 0⟩ = p := by simpa [pointerOf] using hp
    obtain rfl : global = G.id := by simpa using hobject
    exact not_accesses_marker h hG hid X hsection
  have hheld : ∀ Y, Held (past ++ [e]) Y ↔ Held past Y := by
    intro Y
    apply held_concat_of_not
    · intro halloc
      exact hmarker (marks_of_alloc haccounted hcontained hmoves hrec halloc).1 (.inl rfl)
    · intro hdealloc
      obtain ⟨count, hmarks⟩ := (marks_of_dealloc haccounted hcontained hmoves hrec hdealloc).1
      exact hmarker hmarks (.inr ⟨count, rfl⟩)
  have hlt : ownerIndex out X < c.lmstore.LMDir.length := (List.getElem?_eq_some_iff.mp hd).1
  have hkeeps : ∀ Y, HasBlock address Y d → HasBlock address Y (served .MemAccess (isStore e)
      c.lmstore.LMBIndex (DecodeAddress (virtText (address G.id + p.offset.toNat))) d) := by
    intro Y hY
    cases isStore e
    · exact hY
    · exact ⟨by simp [served], hY.BlockID, hY.BlockSize⟩
  refine ⟨c', v, d, hperform, ⟨hsized, fun Y hY e' he' => ?_, fun i e' he' hvalid => ?_⟩, hissued,
    hfound, hmirrors.held X hheldX d hd⟩
  · rw [hheld] at hY
    rw [hdir] at he'
    by_cases hindex : ownerIndex out X = ownerIndex out Y
    · rw [← hindex, List.getElem?_set_self hlt, Option.mem_some_iff] at he'
      subst he'
      exact hkeeps Y (hmirrors.held Y hY d (hindex ▸ hd))
    · rw [List.getElem?_set_ne hindex] at he'
      exact hmirrors.held Y hY e' he'
  · simp only [hheld]
    rw [hdir] at he'
    by_cases hi : ownerIndex out X = i
    · exact ⟨X, hheldX, hi⟩
    · rw [List.getElem?_set_ne hi] at he'
      exact hmirrors.free i e' he' hvalid

theorem mirrors_step (hproper : Proper m.toModule out e)
    (hprogress : ∀ X, Owns m.toModule X → Accesses out.M X e → InProgress m.toModule X s) :
    ∃ c', perform out address c e = some c' ∧ Mirrors out address (past ++ [e]) c' ∧
      Answered m.toModule out address c e := by
  have haccess : ∀ X, Owns m.toModule X → Accesses out.M X e → ∃ c' v d,
      perform out address c e = some c' ∧ Mirrors out address (past ++ [e]) c' ∧
        issued out address e = some v ∧ c.found v = some d ∧ HasBlock address X d := by
    intro X hX he
    have hheld := (held_iff_inProgress h haccounted hmoves he).mpr (hprogress X hX he)
    exact mirrors_access h hglobal hlinked hmirrors haccounted hcontained hmoves hrec hproper hX
      he hheld
  have halloc : ∀ X, IsAlloc X e → _ := fun X he => mirrors_alloc h hglobal hsize hlinked hmirrors
    haccounted hcontained hmoves hrec hseparate he
  have hdealloc : ∀ X, IsDealloc X e → _ := fun X he => mirrors_dealloc h hglobal hsize hlinked
    hmirrors haccounted hcontained hmoves hrec hseparate he
  have hanswered : Answered m.toModule out address c e := by
    constructor
    case alloc =>
      intro X he
      obtain ⟨-, v, d, -, -, hissued, hfound, hstate⟩ := halloc X he
      exact ⟨v, d, hissued, hfound, hstate⟩
    case access =>
      intro X hX he
      obtain ⟨-, v, d, -, -, hissued, hfound, hblock⟩ := haccess X hX he
      exact ⟨v, d, hissued, hfound, hblock⟩
    case dealloc =>
      intro X he
      obtain ⟨-, v, d, -, -, hissued, hfound, hblock⟩ := hdealloc X he
      exact ⟨v, d, hissued, hfound, hblock⟩
  by_cases hmark : ∃ X, IsAlloc X e ∨ IsDealloc X e
  · obtain ⟨X, he | he⟩ := hmark
    · obtain ⟨c', -, -, hperform, hnext, -⟩ := halloc X he
      exact ⟨c', hperform, hnext, hanswered⟩
    · obtain ⟨c', -, -, hperform, hnext, -⟩ := hdealloc X he
      exact ⟨c', hperform, hnext, hanswered⟩
  cases hissued : issued out address e with
  | some v =>
    obtain ⟨p, hp, hv⟩ := Option.bind_eq_some_iff.mp hissued
    split at hv
    · rename_i global hobject
      split_ifs at hv with hplaced
      obtain ⟨G, hG, rfl, -⟩ := show IsPlaced out global from hplaced
      obtain ⟨X, hX, hsection⟩ := (hproper.place p G hp hG hobject hplaced).resolve_right hmark
      obtain ⟨c', -, -, hperform, hnext, -⟩ := haccess X hX ⟨p, G, hp, hG, hobject, hsection⟩
      exact ⟨c', hperform, hnext, hanswered⟩
    · cases hv
  | none =>
    have hheld : ∀ Y, Held (past ++ [e]) Y ↔ Held past Y := fun Y =>
      held_concat_of_not (fun he => hmark ⟨Y, .inl he⟩) (fun he => hmark ⟨Y, .inr he⟩)
    refine ⟨c, by simp [perform, hissued],
      ⟨hmirrors.sized, fun Y hY => ?_, fun i d hd hvalid => ?_⟩, hanswered⟩
    · exact hmirrors.held Y ((hheld Y).mp hY)
    · simp only [hheld]
      exact hmirrors.free i d hd hvalid

end Steps

theorem replay_concat (out : Output) (address : GlobalId → ℕ) (past : List Event) (e : Event)
    (start : Machine) : replay out address (past ++ [e]) start =
      (replay out address past start).bind fun c => perform out address c e := by
  simp [replay, List.foldlM_append]

theorem mirrors_new (out : Output) (address : GlobalId → ℕ)
    {BlockSize LMRefSize LMDirSize NumberOfBlocks lmsStoreSize : ℕ} (href : 64 ≤ LMRefSize)
    (hdir : 64 ≤ LMDirSize) : Mirrors out address []
      (Machine.new BlockSize LMRefSize LMDirSize NumberOfBlocks lmsStoreSize) where
  sized := sized_new href hdir
  held := fun X hX => absurd hX (not_held_nil X)
  free := fun _ _ hd hvalid => absurd (invalid_new (List.mem_of_getElem? hd)) hvalid

theorem contained_initial (M : Module) (memory : Memory) (args : List Word) :
    Contained (initial M memory args).stack :=
  contained_enter (by simp [Contained]) 0 "main" args none

/-- The LMStore of a running program: no access fails, every allocation finds its entry free, and
every access and deallocation finds the block of the section's owner. When the program has ended,
no block is left. The assertions of the handlers are not among what cannot fail. -/
theorem resident_run {m : SourceModule} {out : Output} (h : runOnModule m.toModule = some out)
    (hsize : m.getTypeAllocSize (.integer 32) = 4) (hglobal : GlobalSized m.toModule)
    {address : GlobalId → ℕ} (hlinked : Linked out address)
    {BlockSize LMRefSize LMDirSize NumberOfBlocks lmsStoreSize : ℕ} (href : 64 ≤ LMRefSize)
    (hdir : 64 ≤ LMDirSize) (memory : Memory) (args : List Word)
    {run : List ((Choice × Event) × State)}
    (hrun : IsRun (Steps out.M) (initial out.M memory args) run)
    (hsteps : ∀ x ∈ history [] (initial out.M memory args) run,
      WellBehaved m.toModule out x.2.1 x.2.2.1.2) :
    (∀ x ∈ history [] (initial out.M memory args) run, ∃ c,
      replay out address (x.1.map Prod.snd)
        (Machine.new BlockSize LMRefSize LMDirSize NumberOfBlocks lmsStoreSize) = some c ∧
      Answered m.toModule out address c x.2.2.1.2) ∧
    ∃ c, replay out address (run.map fun x => x.1.2)
        (Machine.new BlockSize LMRefSize LMDirSize NumberOfBlocks lmsStoreSize) = some c ∧
      ((final (initial out.M memory args) run).stack = [] →
        ∀ d ∈ c.lmstore.LMDir, d.state = .BlockInvalid) := by
  let start := Machine.new BlockSize LMRefSize LMDirSize NumberOfBlocks lmsStoreSize
  let R (past : List (Choice × Event)) (s : State) : Prop :=
    Accounted m.toModule out.M (past.map Prod.snd) s.stack ∧ Contained s.stack ∧
      ∃ c, replay out address (past.map Prod.snd) start = some c ∧
        Mirrors out address (past.map Prod.snd) c
  have hshape : ∀ F ∈ out.M.functions, Shaped (ownersFor m.toModule F.name) F.blocks :=
    fun F hF => shaped_function h hF
  have hstep : ∀ past s a t, R past s → Steps out.M s a t →
      WellBehaved m.toModule out s a.2 → R (past ++ [a]) t := by
    intro past s a t ⟨haccounted, hcontained, c, hreplay, hmirrors⟩ hstep hbehaved
    have hmoves := (steps_cases hstep).1
    obtain ⟨c', hperform, hnext, -⟩ := mirrors_step h hglobal hsize hlinked hmirrors haccounted
      hcontained hmoves hbehaved.noRecursion hbehaved.separate hbehaved.proper hbehaved.progress
    simp only [R, List.map_append, List.map_cons, List.map_nil]
    refine ⟨accounted_moves hshape haccounted hmoves hbehaved.noRecursion,
      contained_moves hcontained hmoves, c', ?_, hnext⟩
    rw [replay_concat, hreplay, Option.bind_some, hperform]
  have hfirst : R [] (initial out.M memory args) :=
    ⟨accounted_initial hshape memory args, contained_initial _ _ _, start, rfl,
      mirrors_new out address href hdir⟩
  obtain ⟨hall, haccounted, -, c, hreplay, hmirrors⟩ := history_run hstep hrun hfirst hsteps
  refine ⟨fun x hx => ?_, c, by simpa [Function.comp_def] using hreplay, fun hend d hd => ?_⟩
  · obtain ⟨⟨haccounted, hcontained, c, hreplay, hmirrors⟩, hstep⟩ := hall x hx
    have hbehaved := hsteps x hx
    obtain ⟨-, -, -, hanswered⟩ := mirrors_step h hglobal hsize hlinked hmirrors haccounted
      hcontained (steps_cases hstep).1 hbehaved.noRecursion hbehaved.separate hbehaved.proper
      hbehaved.progress
    exact ⟨c, hreplay, hanswered⟩
  · by_contra hvalid
    obtain ⟨i, hi⟩ := List.getElem?_of_mem hd
    obtain ⟨X, hX, -⟩ := hmirrors.free i d hi hvalid
    obtain ⟨a, ha, -⟩ := allocated_of_held haccounted hX
    simp [hend] at ha

/-! A program that stores to a variable, calls a function and reads the variable back. -/

def keeper : SourceModule where
  globals := []
  functions := [
    { name := "main"
      args := []
      blocks := [[⟨.source 0, "x", .alloca (.integer 32), []⟩,
        ⟨.source 1, "", .store, [.constantData 4 5, .instruction (.source 0) "x"]⟩,
        ⟨.source 2, "", .call (some "f"), []⟩,
        ⟨.source 3, "v", .load 4, [.instruction (.source 0) "x"]⟩,
        ⟨.source 4, "", .ret, []⟩]] },
    { name := "f"
      args := []
      blocks := [[⟨.source 0, "", .ret, []⟩]] }]
  aliases := []
  getTypeAllocSize := packedSize
  LastUnique := 0
  symbols_nodup := by decide
  globals_source := globals_source_nil
  functions_wellFormed := by decide

def keeperOutput : Output := (runOnModule keeper.toModule).get (by decide +kernel)

theorem keeper_run : runOnModule keeper.toModule = some keeperOutput :=
  (Option.some_get _).symm

/-- The global block has LMRef index 0 and the block of `main` has 2. -/
def keeperAddress : GlobalId → ℕ
  | .relocated .M _ => 0x72000000
  | .relocated (.function _) _ => 0x72020000
  | .allocaIns .M => 0x71006404
  | .allocaIns (.function _) => 0x71020104
  | .deallocaIns .M _ => 0x73006404
  | .deallocaIns (.function _) _ => 0x73020104
  | .source _ => 0x1000
  | .ryan_seraj => 0x1000

theorem keeper_linked : Linked keeperOutput keeperAddress where
  fits := by decide +kernel
  start := by decide +kernel
  finish := by decide +kernel

def keeperStart : State := initial keeperOutput.M (fun _ => .data 0) []

def keeperSteps : List ((Choice × Event) × State) :=
  follow keeperOutput.M keeperStart (List.replicate 10 (.run [] 0))

def isMark : Event → Bool
  | .load _ _ (.AI _) _ _ => true
  | .load _ _ (.DI _ _) _ _ => true
  | _ => false

theorem marker_of_isMark {e : Event} (h : isMark e = true) : ∃ X, IsAlloc X e ∨ IsDealloc X e := by
  unfold isMark at h
  split at h
  · exact ⟨_, .inl ⟨_, _, _, _, rfl⟩⟩
  · exact ⟨_, .inr ⟨_, _, _, _, _, rfl⟩⟩
  · cases h

theorem owner_of_keeper {X : Owner} (h : Owns keeper.toModule X) :
    X ∈ [Owner.M, .function "main"] := by
  obtain ⟨name, hX⟩ := h
  have hall : ∀ F ∈ keptFunctions keeper.toModule, codeOwners keeper.toModule F ⊆
      [Owner.M, .function "main"] := by decide +kernel
  unfold ownersFor at hX
  split at hX
  · rename_i F hfind
    exact hall F (List.mem_of_find?_eq_some hfind) hX
  · cases hX

theorem keeper_wellBehaved : ∀ x ∈ history [] keeperStart keeperSteps,
    WellBehaved keeper.toModule keeperOutput x.2.1 x.2.2.1.2 := by
  have hrec : ∀ x ∈ history [] keeperStart keeperSteps, NoRecursion x.2.1 := by decide +kernel
  have hseparate : ∀ x ∈ history [] keeperStart keeperSteps,
      Separate keeper.toModule keeperOutput x.2.1 := by decide +kernel
  have hinside : ∀ x ∈ history [] keeperStart keeperSteps, ∀ p ∈ pointerOf x.2.2.1.2,
      ∀ G ∈ keeperOutput.M.globals, p.object = .globalVariable G.id →
        0 ≤ p.offset ∧ p.offset < keeperOutput.M.getTypeAllocSize G.valueType := by decide +kernel
  have hplace : ∀ x ∈ history [] keeperStart keeperSteps, ∀ p ∈ pointerOf x.2.2.1.2,
      ∀ G ∈ keeperOutput.M.globals, p.object = .globalVariable G.id →
        G.section_ = sectionName "main" .MemAccess ∨ isMark x.2.2.1.2 = true := by decide +kernel
  have hactive : ∀ x ∈ history [] keeperStart keeperSteps, ∀ X ∈ [Owner.M, .function "main"],
      ∃ a ∈ x.2.1.stack, X ∈ allocatedBy keeper.toModule a := by decide +kernel
  have howns : Owns keeper.toModule (.function "main") := ⟨"main", by decide +kernel⟩
  intro x hx
  refine ⟨hrec x hx, hseparate x hx,
    ⟨fun p G hp hG => hinside x hx p hp G hG, fun p G hp hG hobject _ => ?_⟩, ?_⟩
  · rcases hplace x hx p hp G hG hobject with hsection | hmark
    · exact .inl ⟨_, howns, hsection⟩
    · exact .inr (marker_of_isMark hmark)
  · intro X hX _
    obtain ⟨a, ha, hXa⟩ := hactive x hx X (owner_of_keeper hX)
    cases a with
    | code fr => exact ⟨fr, ha, hXa⟩
    | environment returnTo => cases hXa

theorem resident_keeper :
    (∀ x ∈ history [] keeperStart keeperSteps, ∃ c,
      replay keeperOutput keeperAddress (x.1.map Prod.snd) (Machine.new 64 64 64 64 16384) =
        some c ∧ Answered keeper.toModule keeperOutput keeperAddress c x.2.2.1.2) ∧
    ∃ c, replay keeperOutput keeperAddress (keeperSteps.map fun x => x.1.2)
        (Machine.new 64 64 64 64 16384) = some c ∧
      ((final keeperStart keeperSteps).stack = [] → ∀ d ∈ c.lmstore.LMDir,
        d.state = .BlockInvalid) :=
  resident_run keeper_run (by decide +kernel) (by decide +kernel) keeper_linked le_rfl le_rfl _ _
    (isRun_follow _ _ _) keeper_wellBehaved

end MMLMStore.ResidentBlocks
