import MMLMStore.IRExecution

/-!
# Memory of a module whose variables have moved

Two modules of which the second keeps some variables elsewhere: a global of the first in another
global, and a local variable, whose objects the first makes anew at each execution of its alloca, in
one global for all of them. Values of the two correspond byte by byte, with pointers moved to where
the object is kept; a byte without a value in the first may be anything in the second, and so may
one whose place was taken by a store to another object of its variable.
-/
namespace MMLMStore.RelocatedMemory

open ModuleIR IRExecution

def IsSource : GlobalId → Prop
  | .source _ => True
  | _ => False

instance : DecidablePred IsSource
  | .source _ => isTrue trivial
  | .ryan_seraj | .relocated _ _ | .allocaIns _ | .deallocaIns _ _ => isFalse not_false

/-- The globals that variables are moved to. A local variable is named by its function and its
alloca. -/
structure Plan where
  globals : GlobalId → Option GlobalId
  locals : String → InstId → Option GlobalId

/-- No two variables are moved to one place, and none to a global of the source. -/
structure Plan.Apart (plan : Plan) : Prop where
  globals : ∀ id id' g, plan.globals id = some g → plan.globals id' = some g → id = id'
  locals : ∀ f id f' id' g, plan.locals f id = some g → plan.locals f' id' = some g →
    f = f' ∧ id = id'
  disjoint : ∀ id f id' g, plan.globals id = some g → plan.locals f id' ≠ some g
  globals_new : ∀ id g, plan.globals id = some g → ¬IsSource g
  locals_new : ∀ f id g, plan.locals f id = some g → ¬IsSource g

/-- The function and the alloca that made each object on the stack, in their order. -/
abbrev Makers := List (String × InstId)

def Plan.moved (plan : Plan) (makers : Makers) (n : ℕ) : Option GlobalId :=
  makers[n]?.bind fun x => plan.locals x.1 x.2

def Plan.place (plan : Plan) (makers : Makers) : Object → Object
  | .globalVariable id => .globalVariable ((plan.globals id).getD id)
  | .stack n => (plan.moved makers n).elim (.stack n) .globalVariable
  | .function name => .function name
  | .environment n => .environment n

def Known (makers : Makers) : Object → Prop
  | .globalVariable id => IsSource id
  | .stack n => n < makers.length
  | .function _ => True
  | .environment _ => True

/-- The objects made on the stack, and the ranges that have been stored to, the latest first. -/
structure Trail where
  makers : Makers
  stores : List (Pointer × ℕ)

namespace Trail

def new : Trail := ⟨[], []⟩

def store (g : Trail) (p : Pointer) (size : ℕ) : Trail :=
  { g with stores := (p, size) :: g.stores }

def push (g : Trail) (x : String × InstId) : Trail := { g with makers := g.makers ++ [x] }

end Trail

/-- A range of bytes reaches an address. -/
def Hits (x : Pointer × ℕ) (q : Pointer) : Prop :=
  q.object = x.1.object ∧ x.1.offset ≤ q.offset ∧ q.offset < x.1.offset + x.2

instance (x : Pointer × ℕ) : DecidablePred (Hits x) :=
  fun _ => inferInstanceAs (Decidable (_ ∧ _))

/-- The object is not one that its variable has left for a newer one. -/
def Current (plan : Plan) (makers : Makers) : Object → Prop
  | .stack n => ∀ x ∈ makers[n]?, (plan.locals x.1 x.2).isSome = true → x ∉ makers.drop (n + 1)
  | _ => True

instance (makers : Makers) : DecidablePred (Known makers)
  | .globalVariable id => inferInstanceAs (Decidable (IsSource id))
  | .stack n => inferInstanceAs (Decidable (n < makers.length))
  | .function _ | .environment _ => isTrue trivial

instance (plan : Plan) (makers : Makers) : DecidablePred (Current plan makers)
  | .stack n => inferInstanceAs (Decidable (∀ x ∈ makers[n]?,
      (plan.locals x.1 x.2).isSome = true → x ∉ makers.drop (n + 1)))
  | .globalVariable _ | .function _ | .environment _ => isTrue trivial

def Plan.placePointer (plan : Plan) (makers : Makers) (p : Pointer) : Pointer :=
  ⟨plan.place makers p.object, p.offset⟩

def Overwrites (plan : Plan) (makers : Makers) (x : Pointer × ℕ) (q : Pointer) : Prop :=
  Hits (plan.placePointer makers x.1, x.2) (plan.placePointer makers q)

instance (plan : Plan) (makers : Makers) (x : Pointer × ℕ) :
    DecidablePred (Overwrites plan makers x) :=
  fun q => inferInstanceAs
    (Decidable (Hits (plan.placePointer makers x.1, x.2) (plan.placePointer makers q)))

/-- The byte was stored to in its object, but the last store to its place was to another object of
the variable. -/
def Stale (plan : Plan) (g : Trail) (q : Pointer) : Prop :=
  (∃ x ∈ g.stores, Hits x q) ∧
    ∃ x ∈ g.stores.find? (Overwrites plan g.makers · q), x.1.object ≠ q.object

instance (plan : Plan) (g : Trail) : DecidablePred (Stale plan g) :=
  fun q => inferInstanceAs (Decidable ((∃ x ∈ g.stores, Hits x q) ∧
    ∃ x ∈ g.stores.find? (Overwrites plan g.makers · q), x.1.object ≠ q.object))

variable {plan : Plan} {makers makers' : Makers} {o o' : Object} {p q : Pointer}

@[simp] theorem placePointer_add (d : ℤ) :
    plan.placePointer makers (p.add d) = (plan.placePointer makers p).add d := rfl

@[simp] theorem add_object (d : ℤ) : (p.add d).object = p.object := rfl

theorem moved_eq_some {n : ℕ} {g : GlobalId} :
    plan.moved makers n = some g ↔ ∃ x, makers[n]? = some x ∧ plan.locals x.1 x.2 = some g := by
  simp [Plan.moved, Option.bind_eq_some_iff]

/-- Only objects of one variable are kept in one place. -/
theorem place_eq (hplan : plan.Apart) (ho : Known makers o) (ho' : Known makers o')
    (h : plan.place makers o = plan.place makers o') :
    o = o' ∨ ∃ n k g, o = .stack n ∧ o' = .stack k ∧ plan.moved makers n = some g ∧
      plan.moved makers k = some g := by
  have hglobal : ∀ id n g, IsSource id → plan.moved makers n = some g →
      (plan.globals id).getD id ≠ g := by
    intro id n g hid hn heq
    obtain ⟨x, -, hx⟩ := moved_eq_some.mp hn
    cases hg : plan.globals id with
    | none =>
      rw [hg, Option.getD_none] at heq
      exact hplan.locals_new _ _ g hx (heq ▸ hid)
    | some g' =>
      rw [hg, Option.getD_some] at heq
      exact hplan.disjoint id _ _ g' hg (heq ▸ hx)
  cases o with
  | globalVariable id =>
    cases o' with
    | globalVariable id' =>
      left
      simp only [Plan.place, Object.globalVariable.injEq] at h
      cases hg : plan.globals id with
      | none =>
        cases hg' : plan.globals id' with
        | none => simpa [hg, hg'] using h
        | some g' =>
          simp only [hg, hg', Option.getD_none, Option.getD_some] at h
          exact absurd (h ▸ ho) (hplan.globals_new id' g' hg')
      | some g =>
        cases hg' : plan.globals id' with
        | none =>
          simp only [hg, hg', Option.getD_none, Option.getD_some] at h
          exact absurd (h ▸ ho') (hplan.globals_new id g hg)
        | some g' =>
          simp only [hg, hg', Option.getD_some] at h
          rw [hplan.globals id id' g hg (h ▸ hg')]
    | stack n =>
      simp only [Plan.place] at h
      cases hn : plan.moved makers n with
      | none => simp [hn] at h
      | some g =>
        rw [hn, Option.elim_some, Object.globalVariable.injEq] at h
        exact absurd h (hglobal id n g ho hn)
    | function name => simp [Plan.place] at h
    | environment n => simp [Plan.place] at h
  | stack n =>
    cases hn : plan.moved makers n with
    | none =>
      cases o' with
      | stack k =>
        cases hk : plan.moved makers k with
        | none => simpa [Plan.place, hn, hk] using h
        | some g => simp [Plan.place, hn, hk] at h
      | _ => simp [Plan.place, hn] at h
    | some g =>
      cases o' with
      | stack k =>
        cases hk : plan.moved makers k with
        | none => simp [Plan.place, hn, hk] at h
        | some g' =>
          simp only [Plan.place, hn, hk, Option.elim_some, Object.globalVariable.injEq] at h
          exact Or.inr ⟨n, k, g, rfl, rfl, hn, h ▸ hk⟩
      | globalVariable id =>
        simp only [Plan.place, hn, Option.elim_some, Object.globalVariable.injEq] at h
        exact absurd h.symm (hglobal id n g ho' hn)
      | _ => simp [Plan.place, hn] at h
  | function name =>
    cases o' with
    | function name' => simpa [Plan.place] using h
    | stack k => cases hk : plan.moved makers k <;> simp [Plan.place, hk] at h
    | _ => simp [Plan.place] at h
  | environment n =>
    cases o' with
    | environment n' => simpa [Plan.place] using h
    | stack k => cases hk : plan.moved makers k <;> simp [Plan.place, hk] at h
    | _ => simp [Plan.place] at h

theorem le_of_current (hplan : plan.Apart) {n k : ℕ} {g : GlobalId}
    (hn : Current plan makers (.stack n)) (hmoved : plan.moved makers n = some g)
    (hmoved' : plan.moved makers k = some g) : k ≤ n := by
  obtain ⟨x, hx, hxg⟩ := moved_eq_some.mp hmoved
  obtain ⟨y, hy, hyg⟩ := moved_eq_some.mp hmoved'
  obtain rfl : x = y := Prod.ext_iff.mpr (hplan.locals _ _ _ _ g hxg hyg)
  by_contra hlt
  refine hn x hx (by simp [hxg]) (List.mem_of_getElem? (i := k - (n + 1)) ?_)
  rw [List.getElem?_drop]
  rwa [show n + 1 + (k - (n + 1)) = k by omega]

/-- The newest objects of two variables are kept apart. -/
theorem place_inj (hplan : plan.Apart) (ho : Known makers o) (ho' : Known makers o')
    (hcurrent : Current plan makers o) (hcurrent' : Current plan makers o')
    (h : plan.place makers o = plan.place makers o') : o = o' := by
  rcases place_eq hplan ho ho' h with heq | ⟨n, k, g, rfl, rfl, hn, hk⟩
  · exact heq
  · rw [Nat.le_antisymm (le_of_current hplan hcurrent' hk hn)
      (le_of_current hplan hcurrent hn hk)]

/-! More objects on the stack. -/

theorem Known.mono (h : makers <+: makers') (ho : Known makers o) : Known makers' o := by
  cases o with
  | stack n => exact lt_of_lt_of_le ho h.length_le
  | _ => exact ho

theorem place_mono (h : makers <+: makers') (ho : Known makers o) :
    plan.place makers' o = plan.place makers o := by
  cases o with
  | stack n =>
    obtain ⟨more, rfl⟩ := h
    have hn : (makers ++ more)[n]? = makers[n]? := List.getElem?_append_left ho
    simp [Plan.place, Plan.moved, hn]
  | _ => rfl

theorem Current.of_append {x : String × InstId} (h : Current plan (makers ++ [x]) o)
    (ho : Known makers o) : Current plan makers o := by
  cases o with
  | stack n =>
    have hn : (makers ++ [x])[n]? = makers[n]? := List.getElem?_append_left ho
    intro y hy hmoved hmem
    refine h y (hn ▸ hy) hmoved ?_
    rw [List.drop_append_of_le_length ho]
    exact List.mem_append_left _ hmem
  | _ => trivial

/-! Words. -/

inductive PlacedByte (plan : Plan) (makers : Makers) : Byte → Byte → Prop
  | undef (b : Byte) : PlacedByte plan makers .undef b
  | data (n : ℕ) : PlacedByte plan makers (.data n) (.data n)
  | fragment {p : Pointer} (hp : Known makers p.object) (i : ℕ) :
      PlacedByte plan makers (.fragment p i) (.fragment (plan.placePointer makers p) i)

abbrev PlacedWord (plan : Plan) (makers : Makers) : Word → Word → Prop :=
  List.Forall₂ (PlacedByte plan makers)

variable {w w' : Word} {b b' : Byte}

theorem PlacedByte.mono (h : makers <+: makers') (hb : PlacedByte plan makers b b') :
    PlacedByte plan makers' b b' := by
  cases hb with
  | undef => exact .undef _
  | data n => exact .data n
  | @fragment p hp i =>
    have hplace : plan.placePointer makers p = plan.placePointer makers' p := by
      simp [Plan.placePointer, place_mono h hp]
    rw [hplace]
    exact .fragment (hp.mono h) i

theorem PlacedWord.mono (h : makers <+: makers') (hw : PlacedWord plan makers w w') :
    PlacedWord plan makers' w w' := hw.imp fun _ _ hb => hb.mono h

theorem placed_map {size : ℕ} {f g : ℕ → Byte} (h : ∀ i, PlacedByte plan makers (f i) (g i)) :
    PlacedWord plan makers ((List.range size).map f) ((List.range size).map g) :=
  List.forall₂_map_left_iff.mpr (List.forall₂_map_right_iff.mpr
    (List.forall₂_same.mpr fun i _ => h i))

theorem asPointer_eq_some : asPointer w = some p ↔ w = p.word := by
  constructor
  · intro h
    unfold asPointer at h
    split at h
    · split_ifs at h with hw
      rw [← Option.some.inj h]
      exact hw
    · cases h
  · rintro rfl
    simp [asPointer, Pointer.word, List.range_succ_eq_map]

theorem placed_word (hp : Known makers p.object) :
    PlacedWord plan makers p.word (plan.placePointer makers p).word :=
  placed_map fun i => .fragment hp i

theorem placed_word_of (hp : Known makers p.object) (h : plan.placePointer makers p = q) :
    PlacedWord plan makers p.word q.word := h ▸ placed_word hp

theorem PlacedWord.asPointer (hw : PlacedWord plan makers w w') (h : asPointer w = some p) :
    Known makers p.object ∧
      IRExecution.asPointer w' = some (plan.placePointer makers p) := by
  obtain rfl := asPointer_eq_some.mp h
  have hknown : Known makers p.object := by
    unfold Pointer.word at hw
    rw [List.range_succ_eq_map, List.map_cons] at hw
    cases hw with
    | cons hb _ =>
      cases hb with
      | fragment hp i => exact hp
  refine ⟨hknown, asPointer_eq_some.mpr ?_⟩
  have hfun : ∀ b c c', b ∈ p.word → PlacedByte plan makers b c → PlacedByte plan makers b c' →
      c = c' := by
    intro b c c' hb hc hc'
    obtain ⟨i, -, rfl⟩ := List.mem_map.mp hb
    cases hc
    cases hc'
    rfl
  have hunique : ∀ (l l' l'' : Word), (∀ b ∈ l, b ∈ p.word) → PlacedWord plan makers l l' →
      PlacedWord plan makers l l'' → l' = l'' := by
    intro l l' l'' hl h'
    induction h' generalizing l'' with
    | nil =>
      intro h''
      cases h''
      rfl
    | @cons b c l l' hb _ ih =>
      intro h''
      cases h'' with
      | cons hb' hrest =>
        rw [hfun b _ _ (hl b (by simp)) hb hb', ih _ (fun b hb => hl b (by simp [hb])) hrest]
  exact hunique p.word w' _ (fun b hb => hb) hw (placed_word hknown)

theorem PlacedWord.natOf {n : ℕ} (hw : PlacedWord plan makers w w')
    (h : IRExecution.natOf w = some n) : IRExecution.natOf w' = some n := by
  induction hw generalizing n with
  | nil => exact h
  | @cons b b' w w' hb _ ih =>
    cases hb with
    | undef => simp [IRExecution.natOf] at h
    | fragment hp i => simp [IRExecution.natOf] at h
    | data k =>
      simp only [IRExecution.natOf, Option.map_eq_some_iff] at h ⊢
      obtain ⟨j, hj, rfl⟩ := h
      exact ⟨j, ih hj, rfl⟩

theorem PlacedWord.intOf {z : ℤ} (hw : PlacedWord plan makers w w')
    (h : IRExecution.intOf w = some z) : IRExecution.intOf w' = some z := by
  unfold IRExecution.intOf at h ⊢
  cases hn : IRExecution.natOf w with
  | none => simp [hn] at h
  | some n =>
    rw [hn] at h
    rw [hw.natOf hn, ← hw.length_eq]
    exact h

theorem placed_wordOf (size : ℕ) (value : ℤ) :
    PlacedWord plan makers (wordOf size value) (wordOf size value) :=
  placed_map fun _ => .data _

/-! Memory. -/

/-- Every byte that is not stale has its value in the second module, and one of the stack that was
not stored to has none. -/
structure PlacedMemory (plan : Plan) (g : Trail) (memory memory' : Memory) : Prop where
  bytes : ∀ q, Known g.makers q.object → ¬Stale plan g q →
    PlacedByte plan g.makers (memory q) (memory' (plan.placePointer g.makers q))
  unstored : ∀ n d, (∀ x ∈ g.stores, ¬Hits x ⟨.stack n, d⟩) → memory ⟨.stack n, d⟩ = .undef
  known : ∀ x ∈ g.stores, Known g.makers x.1.object

variable {memory memory' : Memory} {g : Trail}

theorem PlacedMemory.read (h : PlacedMemory plan g memory memory')
    (hp : Known g.makers p.object) {size : ℕ} (hfresh : ∀ i < size, ¬Stale plan g (p.add i)) :
    PlacedWord plan g.makers (readBytes memory p size)
      (readBytes memory' (plan.placePointer g.makers p) size) := by
  refine List.forall₂_map_left_iff.mpr (List.forall₂_map_right_iff.mpr
    (List.forall₂_same.mpr fun i hi => ?_))
  exact h.bytes (p.add i) hp (hfresh i (List.mem_range.mp hi))

theorem written_eq (p : Pointer) (w : Word) (q : Pointer) : written p w q =
    if Hits (p, w.length) q then w[(q.offset - p.offset).toNat]? else none := by
  unfold written
  by_cases hhits : Hits (p, w.length) q
  · rw [if_pos hhits, if_pos ⟨hhits.1, hhits.2.1⟩]
  · rw [if_neg hhits]
    split_ifs with hstart
    · refine List.getElem?_eq_none ?_
      by_contra hlt
      refine hhits ⟨hstart.1, hstart.2, ?_⟩
      change q.offset < p.offset + w.length
      omega
    · rfl

theorem overwrites_of_hits {x : Pointer × ℕ} (h : Hits x q) : Overwrites plan makers x q := by
  obtain ⟨hobject, hrange⟩ := h
  exact ⟨congrArg (plan.place makers) hobject, hrange⟩

theorem stale_store_iff {size : ℕ} (h : ¬Overwrites plan g.makers (p, size) q) :
    Stale plan (g.store p size) q ↔ Stale plan g q := by
  have hhits : ¬Hits (p, size) q := fun hhits => h (overwrites_of_hits hhits)
  unfold Stale Trail.store
  simp [h, hhits]

theorem stale_overwritten_iff {size : ℕ} (h : Overwrites plan g.makers (p, size) q) :
    Stale plan (g.store p size) q ↔ p.object ≠ q.object ∧ ∃ x ∈ g.stores, Hits x q := by
  unfold Stale Trail.store
  rw [List.find?_cons_of_pos (by simpa using h)]
  by_cases hobject : p.object = q.object
  · simp [hobject]
  · have hhits : ¬Hits (p, size) q := fun hhits => hobject hhits.1.symm
    simp [hobject, hhits]

theorem PlacedMemory.write (hplan : plan.Apart) (h : PlacedMemory plan g memory memory')
    (hp : Known g.makers p.object) (hw : PlacedWord plan g.makers w w') :
    PlacedMemory plan (g.store p w.length) (writeBytes memory p w)
      (writeBytes memory' (plan.placePointer g.makers p) w') where
  bytes q hq hstale := by
    have hlen := hw.length_eq
    change PlacedByte plan g.makers ((written p w q).getD (memory q))
      ((written (plan.placePointer g.makers p) w' (plan.placePointer g.makers q)).getD _)
    rw [written_eq, written_eq, ← hlen]
    by_cases hover : Overwrites plan g.makers (p, w.length) q
    · rw [if_pos (show Hits (plan.placePointer g.makers p, w.length) _ from hover)]
      rw [stale_overwritten_iff hover, not_and] at hstale
      obtain ⟨hplace, hle, hlt⟩ := hover
      change plan.place g.makers q.object = plan.place g.makers p.object at hplace
      change p.offset ≤ q.offset at hle
      change q.offset < p.offset + w.length at hlt
      by_cases hobject : q.object = p.object
      · have hi : (q.offset - p.offset).toNat < w.length := by omega
        rw [if_pos (show Hits (p, w.length) q from ⟨hobject, hle, hlt⟩)]
        change PlacedByte plan g.makers _ ((w'[(q.offset - p.offset).toNat]?).getD _)
        rw [List.getElem?_eq_getElem hi, List.getElem?_eq_getElem (hlen ▸ hi)]
        exact (List.forall₂_iff_get.mp hw).2 _ hi (hlen ▸ hi)
      · -- another object of the variable: this one has no value here
        obtain ⟨o, d⟩ := q
        have hunstored := hstale (Ne.symm hobject)
        rcases place_eq hplan hq hp hplace with heq | ⟨n, k, g', rfl, -⟩
        · exact absurd heq hobject
        · rw [if_neg fun hhits => hobject hhits.1, Option.getD_none, h.unstored n d]
          · exact .undef _
          · intro x hx hhits
            exact hunstored ⟨x, hx, hhits⟩
    · rw [if_neg fun hhits => hover (overwrites_of_hits hhits),
        if_neg (show ¬Hits (plan.placePointer g.makers p, w.length) _ from hover)]
      rw [stale_store_iff hover] at hstale
      exact h.bytes q hq hstale
  unstored n d hno := by
    obtain ⟨hhits, hrest⟩ := List.forall_mem_cons.mp hno
    rw [writeBytes, written_eq, if_neg hhits, Option.getD_none]
    exact h.unstored n d hrest
  known := List.forall_mem_cons.mpr ⟨hp, h.known⟩

theorem overwrites_mono {x : Pointer × ℕ} (hmakers : makers <+: makers')
    (hx : Known makers x.1.object) (hq : Known makers q.object) :
    Overwrites plan makers' x q ↔ Overwrites plan makers x q := by
  unfold Overwrites Plan.placePointer
  rw [place_mono hmakers hx, place_mono hmakers hq]

theorem stale_push_iff {x : String × InstId} (hstores : ∀ y ∈ g.stores, Known g.makers y.1.object)
    (hq : Known g.makers q.object) : Stale plan (g.push x) q ↔ Stale plan g q := by
  have hfind : g.stores.find? (Overwrites plan (g.push x).makers · q) =
      g.stores.find? (Overwrites plan g.makers · q) := by
    apply List.find?_congr
    intro y hy
    exact decide_eq_decide.mpr (overwrites_mono (List.prefix_append _ _) (hstores y hy) hq)
  change (_ ∧ ∃ y ∈ g.stores.find? (Overwrites plan (g.push x).makers · q), _) ↔ _
  rw [hfind]
  exact Iff.rfl

theorem PlacedMemory.push (h : PlacedMemory plan g memory memory') (x : String × InstId) :
    PlacedMemory plan (g.push x) memory memory' where
  bytes q hq hstale := by
    have hprefix : g.makers <+: (g.push x).makers := List.prefix_append _ _
    by_cases hknown : Known g.makers q.object
    · rw [stale_push_iff h.known hknown] at hstale
      have := (h.bytes q hknown hstale).mono hprefix
      simpa [Plan.placePointer, place_mono hprefix hknown] using this
    · obtain ⟨o, d⟩ := q
      cases o with
      | stack n =>
        rw [h.unstored n d]
        · exact .undef _
        · intro y hy hhits
          have hobject : Known g.makers y.1.object := h.known y hy
          rw [← hhits.1] at hobject
          exact hknown hobject
      | globalVariable id => exact absurd hq hknown
      | function name => exact absurd trivial hknown
      | environment n => exact absurd trivial hknown
  unstored := h.unstored
  known y hy := (h.known y hy).mono (List.prefix_append _ _)

/-! Newest objects. -/

/-- No byte of a newest object is stale. -/
def CurrentFresh (plan : Plan) (g : Trail) : Prop :=
  ∀ q, Current plan g.makers q.object → ¬Stale plan g q

theorem currentFresh_new (plan : Plan) : CurrentFresh plan .new := by
  intro q _ hstale
  obtain ⟨x, hx, -⟩ := hstale.1
  cases hx

theorem CurrentFresh.store (hplan : plan.Apart) (h : CurrentFresh plan g)
    (hstores : ∀ y ∈ g.stores, Known g.makers y.1.object) (hp : Known g.makers p.object)
    (hcurrent : Current plan g.makers p.object) (size : ℕ) :
    CurrentFresh plan (g.store p size) := by
  intro q hcurrentq
  by_cases hover : Overwrites plan g.makers (p, size) q
  · rw [stale_overwritten_iff hover]
    intro hstale
    obtain ⟨hobject, y, hy, hhits⟩ := hstale
    have hq : Known g.makers q.object := hhits.1 ▸ hstores y hy
    exact hobject (place_inj hplan hq hp hcurrentq hcurrent hover.1).symm
  · rw [stale_store_iff hover]
    exact h q hcurrentq

theorem CurrentFresh.push (h : CurrentFresh plan g)
    (hstores : ∀ y ∈ g.stores, Known g.makers y.1.object) (x : String × InstId) :
    CurrentFresh plan (g.push x) := by
  intro q hcurrent hstale
  obtain ⟨y, hy, hhits⟩ := hstale.1
  have hknown : Known g.makers q.object := hhits.1 ▸ hstores y hy
  rw [stale_push_iff hstores hknown] at hstale
  exact h q (hcurrent.of_append hknown) hstale

end MMLMStore.RelocatedMemory
