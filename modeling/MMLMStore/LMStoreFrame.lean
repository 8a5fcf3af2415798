import MMLMStore.LMStoreBounds

/-!
# Frame of the directory operations

Each operation changes the directory entry that its address names, and an allocation or
deallocation does nothing at an address of another kind. `allocateBlock` tests the operation code of
the address, `deallocateBlock` does not, and `setBlockState` lets one code pass that the decoder
does not know.
-/
namespace MMLMStore.LMStoreFrame
open LMStoreBounds LMStoreDecode LMStoreTables

def outcome (mem_map : MemMap) (s : LMStore) : Call → Option (Option Bool × LMStore)
  | .setBlockState address state => (setBlockState mem_map s address state).map fun t => (none, t)
  | .allocateBlock address => (allocateBlock mem_map s address).map fun x => (some x.1, x.2)
  | .deallocateBlock address => (deallocateBlock mem_map s address).map fun x => (some x.1, x.2)

/-- Nothing changes but one directory entry and the storage index. -/
structure ChangesOnly (s t : LMStore) (entry : Option ℕ) : Prop where
  rest : t = { s with LMDir := t.LMDir, LMBIndex := t.LMBIndex }
  others : ∀ j, entry ≠ some j → t.LMDir[j]? = s.LMDir[j]?

/-- The entry that may change is that of the index written in the address. -/
def ChangesNamed (mem_map : MemMap) (s t : LMStore) (address : ℕ) : Prop :=
  ∀ v ∈ PhyToVirt mem_map address, ChangesOnly s t (dirIndex s (writtenIndex v))

def HasCode (mem_map : MemMap) (address : ℕ) (codes : List (List Char)) : Prop :=
  ∃ v ∈ PhyToVirt mem_map address, addrPrefix v.text ∈ codes

/-- Without one of its operation codes a call returns false and changes nothing. -/
def Refuses (mem_map : MemMap) (s : LMStore) (address : ℕ) (codes : List (List Char))
    (x : Option Bool × LMStore) : Prop :=
  ¬ HasCode mem_map address codes → x = (some false, s)

def Behaves (mem_map : MemMap) (s : LMStore) (x : Option Bool × LMStore) : Call → Prop
  | .setBlockState address _ => ChangesNamed mem_map s x.2 address
  | .allocateBlock address => ChangesNamed mem_map s x.2 address ∧
      Refuses mem_map s address [['7', '1'], ['7', '4']] x
  | .deallocateBlock address => ChangesNamed mem_map s x.2 address ∧
      Refuses mem_map s address [['7', '3'], ['7', '5']] x

/-- A deallocation has its operation code. A state is set with one that the decoder knows, or entry
zero is the one written, or it has the state. -/
def Suits (mem_map : MemMap) (s : LMStore) : Call → Prop
  | .setBlockState address state => ∀ v ∈ PhyToVirt mem_map address,
      addrPrefix v.text = ['7', '6'] → dirIndex s (writtenIndex v) = dirIndex s 0 ∨
        ∀ i ∈ dirIndex s 0, ∀ e ∈ s.LMDir[i]?, e.state = state
  | .allocateBlock _ => True
  | .deallocateBlock address => ∀ v ∈ PhyToVirt mem_map address,
      addrPrefix v.text ∈ [['7', '3'], ['7', '5']]

/-! What the operations change. -/

theorem ChangesOnly.refl (s : LMStore) (entry : Option ℕ) : ChangesOnly s s entry :=
  ⟨rfl, fun _ _ => rfl⟩

theorem ChangesOnly.set (s : LMStore) (i index : ℕ) (e : LMDir_t) :
    ChangesOnly s { s with LMDir := s.LMDir.set i e, LMBIndex := index } (some i) :=
  ⟨rfl, fun _ hj => List.getElem?_set_ne fun hij => hj (congrArg some hij)⟩

/-- An operation that the LMStore serves finds the entry of the written index. -/
theorem dirIndex_writtenIndex {s : LMStore} {v : VirtAddr} {i : ℕ} {e : LMDir_t}
    (hentry : entryOf s v = some (i, e)) (hoperation : addrPrefix v.text ∈
      [['7', '1'], ['7', '2'], ['7', '3'], ['7', '4'], ['7', '5']]) :
    dirIndex s (writtenIndex v) = some i := by
  rw [← LMRefIndex_of_operation hoperation]
  exact (entryOf_eq_some.mp hentry).1

theorem changesNamed_of_entry {mem_map : MemMap} {s : LMStore} {address : ℕ} {v : VirtAddr} {i : ℕ}
    {e : LMDir_t} (hv : PhyToVirt mem_map address = some v) (hentry : entryOf s v = some (i, e))
    (hoperation : addrPrefix v.text ∈ [['7', '1'], ['7', '2'], ['7', '3'], ['7', '4'], ['7', '5']])
    (index : ℕ) (e' : LMDir_t) :
    ChangesNamed mem_map s { s with LMDir := s.LMDir.set i e', LMBIndex := index } address := by
  intro w hw
  obtain rfl := Option.some.inj (hv.symm.trans hw)
  rw [dirIndex_writtenIndex hentry hoperation]
  exact .set s i index e'

theorem changesNamed_refl (mem_map : MemMap) (s : LMStore) (address : ℕ) :
    ChangesNamed mem_map s s address := fun _ _ => .refl s _

theorem allocateBlock_behaves {mem_map : MemMap} {s t : LMStore} {address : ℕ} {r : Bool}
    (h : allocateBlock mem_map s address = some (r, t)) :
    ChangesNamed mem_map s t address ∧
      Refuses mem_map s address [['7', '1'], ['7', '4']] (some r, t) := by
  rcases allocateBlock_cases h with ⟨rfl, rfl, -⟩ | ⟨-, v, i, e, hv, hcode, hentry, rfl⟩
  · exact ⟨changesNamed_refl mem_map t address, fun _ => rfl⟩
  · refine ⟨changesNamed_of_entry hv hentry ?_ _ _, fun hnot => absurd ⟨v, hv, ?_⟩ hnot⟩
    · rcases hcode with hcode | hcode <;> rw [hcode] <;> decide
    · rcases hcode with hcode | hcode <;> rw [hcode] <;> decide

theorem deallocateBlock_behaves_iff {mem_map : MemMap} {s t : LMStore} {address : ℕ} {r : Bool}
    (h : deallocateBlock mem_map s address = some (r, t)) :
    (ChangesNamed mem_map s t address ∧
      Refuses mem_map s address [['7', '3'], ['7', '5']] (some r, t)) ↔
    ∀ v ∈ PhyToVirt mem_map address, addrPrefix v.text ∈ [['7', '3'], ['7', '5']] := by
  rcases deallocateBlock_cases h with ⟨rfl, rfl, hnone⟩ | ⟨rfl, v, i, e, freed, hv, hentry, -, rfl⟩
  · rw [hnone]
    exact iff_of_true ⟨changesNamed_refl mem_map t address, fun _ => rfl⟩ nofun
  · constructor
    · rintro ⟨-, hrefuses⟩ w hw
      by_contra hcode
      have hnot : ¬ HasCode mem_map address [['7', '3'], ['7', '5']] := by
        rintro ⟨u, hu, hcode'⟩
        rw [Option.some.inj (hu.symm.trans hw)] at hcode'
        exact hcode hcode'
      have hfalse := congrArg Prod.fst (hrefuses hnot)
      cases hfalse
    · intro hcode
      have hdealloc := hcode v hv
      have hsubset : [['7', '3'], ['7', '5']] ⊆
          [['7', '1'], ['7', '2'], ['7', '3'], ['7', '4'], ['7', '5']] := by decide
      exact ⟨changesNamed_of_entry hv hentry (hsubset hdealloc) _ _,
        fun hnot => absurd ⟨v, hv, hdealloc⟩ hnot⟩

theorem setBlockState_behaves_iff {mem_map : MemMap} {s t : LMStore} {address : ℕ}
    {state : BlockState} (h : setBlockState mem_map s address state = some t) :
    ChangesNamed mem_map s t address ↔
    ∀ v ∈ PhyToVirt mem_map address, addrPrefix v.text = ['7', '6'] →
      dirIndex s (writtenIndex v) = dirIndex s 0 ∨
        ∀ i ∈ dirIndex s 0, ∀ e ∈ s.LMDir[i]?, e.state = state := by
  rcases setBlockState_cases h with ⟨rfl, hcode⟩ | ⟨v, i, e, hv, hcode, hentry, rfl⟩
  · refine iff_of_true (changesNamed_refl mem_map t address) fun v hv hsix => ?_
    exact absurd (by rw [hsix]; decide) (hcode v hv)
  · by_cases hsix : addrPrefix v.text = ['7', '6']
    · -- the decoder leaves the index at zero
      have hzero : (DecodeAddress v.text).LMRefIndex = 0 := by
        rw [LMRefIndex_eq, second_digit hsix]
        rfl
      obtain ⟨hindex, hget⟩ := entryOf_eq_some.mp hentry
      rw [hzero] at hindex
      constructor
      · intro hnamed w hw _
        obtain rfl := Option.some.inj (hv.symm.trans hw)
        by_cases hsame : dirIndex s (writtenIndex v) = dirIndex s 0
        · exact Or.inl hsame
        · refine Or.inr fun j hj f hf => ?_
          obtain rfl : i = j := Option.some.inj (hindex.symm.trans hj)
          have hkept := (hnamed v hv).others i (by rwa [hindex] at hsame)
          have hlt : i < s.LMDir.length := (List.getElem?_eq_some_iff.mp hget).1
          rw [List.getElem?_set_self hlt, hget] at hkept
          rw [Option.some.inj (hf.symm.trans hget), ← Option.some.inj hkept]
      · intro hsuits w hw
        obtain rfl := Option.some.inj (hv.symm.trans hw)
        rcases hsuits v hv hsix with hsame | hstate
        · rw [hsame, hindex]
          exact .set s i s.LMBIndex _
        · have hunchanged : s.LMDir.set i { e with state := state } = s.LMDir := by
            obtain ⟨hlt, hgetElem⟩ := List.getElem?_eq_some_iff.mp hget
            rw [← hstate i hindex e hget, ← hgetElem]
            exact List.set_getElem_self hlt
          rw [hunchanged]
          exact .refl s _
    · have hoperation : addrPrefix v.text ∈
          [['7', '1'], ['7', '2'], ['7', '3'], ['7', '4'], ['7', '5']] := by
        simp only [List.mem_cons, List.not_mem_nil, or_false] at hcode ⊢
        tauto
      refine iff_of_true (changesNamed_of_entry hv hentry hoperation s.LMBIndex _) ?_
      intro w hw hcode'
      rw [Option.some.inj (hw.symm.trans hv)] at hcode'
      exact absurd hcode' hsix

/-- A call keeps to the entry of its address, and refuses addresses of another kind, exactly when
it is an allocation, a deallocation at an address of its own kind, or sets a state with a code that
the decoder knows. -/
theorem behaves_iff {mem_map : MemMap} {s : LMStore} {c : Call} {x : Option Bool × LMStore}
    (h : outcome mem_map s c = some x) : Behaves mem_map s x c ↔ Suits mem_map s c := by
  cases c with
  | setBlockState address state =>
    obtain ⟨t, ht, rfl⟩ := Option.map_eq_some_iff.mp h
    exact setBlockState_behaves_iff ht
  | allocateBlock address =>
    obtain ⟨⟨r, t⟩, ht, rfl⟩ := Option.map_eq_some_iff.mp h
    exact iff_of_true (allocateBlock_behaves ht) trivial
  | deallocateBlock address =>
    obtain ⟨⟨r, t⟩, ht, rfl⟩ := Option.map_eq_some_iff.mp h
    exact deallocateBlock_behaves_iff ht

/-- A deallocation of the block of LMRef index 1. -/
theorem behaves_deallocation : ∃ x,
    outcome (fun _ => some (translated 0x73010010 (by norm_num))) (.new 64 4 4 4 64)
      (.deallocateBlock 0) = some x ∧
    Behaves (fun _ => some (translated 0x73010010 (by norm_num))) (.new 64 4 4 4 64) x
      (.deallocateBlock 0) := by
  refine ⟨(some true, .new 64 4 4 4 64), by decide +kernel, ?_⟩
  refine (behaves_iff (by decide +kernel)).mpr fun v hv => ?_
  rw [← Option.some.inj hv]
  decide

/-- A deallocation at the address of an access returns true and invalidates its entry. -/
theorem behaves_fails :
    ¬ ∀ (mem_map : MemMap) (s : LMStore) (c : Call) (x : Option Bool × LMStore),
      outcome mem_map s c = some x → Behaves mem_map s x c := by
  intro h
  let mem_map : MemMap := fun _ => some (translated 0x72010000 (by norm_num))
  have hbehaves := h mem_map (.new 64 4 4 4 64) (.deallocateBlock 0)
    (some true, .new 64 4 4 4 64) (by decide +kernel)
  have hcode : ¬ HasCode mem_map 0 [['7', '3'], ['7', '5']] := by
    rintro ⟨v, hv, hcode⟩
    rw [← Option.some.inj hv] at hcode
    revert hcode
    decide
  have hfalse := congrArg Prod.fst (hbehaves.2 hcode)
  cases hfalse

end MMLMStore.LMStoreFrame
