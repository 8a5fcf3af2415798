import Mathlib

/-!
# First-fit colouring in name order

Vertices of a graph are coloured in ascending order. Each takes the least colour of `1` to `k - 1`
that no neighbour has, and stays at colour `0` when its neighbours have them all. Two vertices get
one colour exactly when they are twins, a relation on the ordered graph that mentions no colour.
-/
namespace MMLMStore.FirstFit

/-- Least colour from `1` to `k - 1` that passes a test. -/
def firstFree (k : ℕ) (safe : ℕ → Bool) : Option ℕ := (List.range' 1 (k - 1)).find? safe

theorem firstFree_eq_some {k i : ℕ} {safe : ℕ → Bool} (h : firstFree k safe = some i) :
    1 ≤ i ∧ i < k ∧ safe i = true ∧ ∀ j, 1 ≤ j → j < i → safe j = false := by
  unfold firstFree at h
  obtain ⟨hsafe, n, hn, rfl, hbefore⟩ := List.find?_eq_some_iff_getElem.mp h
  rw [List.length_range'] at hn
  simp only [List.getElem_range', Nat.one_mul] at hsafe hbefore ⊢
  refine ⟨by omega, by omega, hsafe, fun j hj hlt => ?_⟩
  have := hbefore (j - 1) (by omega)
  rw [show 1 + (j - 1) = j by omega] at this
  simpa using this

theorem firstFree_eq_none {k : ℕ} {safe : ℕ → Bool} (h : firstFree k safe = none) :
    ∀ j, 1 ≤ j → j < k → safe j = false := by
  intro j hj hlt
  have := List.find?_eq_none.mp h j (by rw [List.mem_range'_1]; omega)
  simpa using this

variable {α : Type*} [LinearOrder α]

def recolour (k : ℕ) (adj : α → Finset α) (c : α → ℕ) (v : α) : α → ℕ :=
  match firstFree k (fun i => decide (∀ u ∈ adj v, c u ≠ i)) with
  | some i => Function.update c v i
  | none => c

def sweep (k : ℕ) (adj : α → Finset α) (order : List α) (c : α → ℕ) : α → ℕ :=
  order.foldl (recolour k adj) c

/-- Colours on a set of vertices that follow the first-fit rule among smaller neighbours. -/
structure IsFirstFit (k : ℕ) (V : Finset α) (adj : α → Finset α) (c : α → ℕ) : Prop where
  lt : ∀ v ∈ V, c v ≠ 0 → c v < k
  free : ∀ v ∈ V, c v ≠ 0 → ∀ u ∈ adj v, u ∈ V → u < v → c u ≠ c v
  taken : ∀ v ∈ V, ∀ j, 1 ≤ j → j < k → (c v = 0 ∨ j < c v) →
    ∃ u ∈ adj v, u ∈ V ∧ u < v ∧ c u = j

variable {k : ℕ} {V : Finset α} {adj : α → Finset α} {c : α → ℕ}

theorem recolour_cases (k : ℕ) (adj : α → Finset α) (c : α → ℕ) (v : α) :
    (∃ i, 1 ≤ i ∧ i < k ∧ (∀ u ∈ adj v, c u ≠ i) ∧
      (∀ j, 1 ≤ j → j < i → ∃ u ∈ adj v, c u = j) ∧
      recolour k adj c v = Function.update c v i) ∨
    ((∀ j, 1 ≤ j → j < k → ∃ u ∈ adj v, c u = j) ∧ recolour k adj c v = c) := by
  unfold recolour
  cases h : firstFree k (fun i => decide (∀ u ∈ adj v, c u ≠ i)) with
  | none =>
    refine Or.inr ⟨fun j hj hlt => ?_, rfl⟩
    simpa using firstFree_eq_none h j hj hlt
  | some i =>
    obtain ⟨hi, hlt, hsafe, hbefore⟩ := firstFree_eq_some h
    refine Or.inl ⟨i, hi, hlt, by simpa using hsafe, fun j hj hji => ?_, rfl⟩
    simpa using hbefore j hj hji

theorem isFirstFit_recolour {v : α} (h : IsFirstFit k V adj c) (hzero : ∀ u ∉ V, c u = 0)
    (hv : ∀ u ∈ V, u < v) :
    IsFirstFit k (insert v V) adj (recolour k adj c v) ∧
      ∀ u ∉ insert v V, recolour k adj c v u = 0 := by
  have hnew : v ∉ V := fun hmem => lt_irrefl v (hv v hmem)
  -- a coloured neighbour is one of the earlier vertices
  have hearlier : ∀ u, c u ≠ 0 → u ∈ V ∧ u < v := by
    intro u hu
    have hmem : u ∈ V := by
      by_contra hout
      exact hu (hzero u hout)
    exact ⟨hmem, hv u hmem⟩
  have hsame : ∀ u ∈ V, recolour k adj c v u = c u := by
    intro u hu
    have hne : u ≠ v := fun heq => hnew (heq ▸ hu)
    rcases recolour_cases k adj c v with ⟨i, -, -, -, -, heq⟩ | ⟨-, heq⟩
    · rw [heq, Function.update_of_ne hne]
    · rw [heq]
  have hold : ∀ u ∈ V, ∀ w, w ∈ insert v V → w < u → w ∈ V := by
    intro u hu w hw hlt
    rcases Finset.mem_insert.mp hw with rfl | hw
    · exact absurd (hv u hu) (not_lt_of_gt hlt)
    · exact hw
  refine ⟨⟨fun u hu hne => ?_, fun u hu hne w hw hwV hlt => ?_, fun u hu j hj hjk hle => ?_⟩,
    fun u hu => ?_⟩
  · rcases Finset.mem_insert.mp hu with rfl | hu
    · rcases recolour_cases k adj c u with ⟨i, -, hi, -, -, heq⟩ | ⟨-, heq⟩
      · rwa [heq, Function.update_self]
      · rw [heq] at hne
        exact absurd (hzero u hnew) hne
    · rw [hsame u hu] at hne ⊢
      exact h.lt u hu hne
  · rcases Finset.mem_insert.mp hu with rfl | hu
    · have hwV : w ∈ V := (Finset.mem_insert.mp hwV).resolve_left hlt.ne
      rw [hsame w hwV]
      rcases recolour_cases k adj c u with ⟨i, -, -, hi, -, heq⟩ | ⟨-, heq⟩
      · rw [heq, Function.update_self]
        exact hi w hw
      · rw [heq] at hne
        exact absurd (hzero u hnew) hne
    · rw [hsame u hu] at hne ⊢
      rw [hsame w (hold u hu w hwV hlt)]
      exact h.free u hu hne w hw (hold u hu w hwV hlt) hlt
  · rcases Finset.mem_insert.mp hu with rfl | hu
    · have hex : ∃ w ∈ adj u, c w = j := by
        rcases recolour_cases k adj c u with
          ⟨i, hi, -, -, hbefore, heq⟩ | ⟨hall, -⟩
        · rw [heq, Function.update_self] at hle
          exact hbefore j hj (by omega)
        · exact hall j hj hjk
      obtain ⟨w, hw, rfl⟩ := hex
      obtain ⟨hwV, hlt⟩ := hearlier w (by omega)
      exact ⟨w, hw, Finset.mem_insert_of_mem hwV, hlt, hsame w hwV⟩
    · rw [hsame u hu] at hle
      obtain ⟨w, hw, hwV, hlt, heq⟩ := h.taken u hu j hj hjk hle
      exact ⟨w, hw, Finset.mem_insert_of_mem hwV, hlt, by rw [hsame w hwV, heq]⟩
  · rw [Finset.mem_insert, not_or] at hu
    rcases recolour_cases k adj c v with ⟨i, -, -, -, -, heq⟩ | ⟨-, heq⟩
    · rw [heq, Function.update_of_ne hu.1, hzero u hu.2]
    · rw [heq, hzero u hu.2]

/-- Sweeping an ascending list from colour zero gives a first-fit colouring of the list. -/
theorem isFirstFit_sweep {order : List α} (horder : order.Pairwise (· < ·)) :
    IsFirstFit k order.toFinset adj (sweep k adj order fun _ => 0) := by
  have hgeneral : ∀ (rest : List α) (V : Finset α) (c : α → ℕ), rest.Pairwise (· < ·) →
      IsFirstFit k V adj c → (∀ u ∉ V, c u = 0) → (∀ v ∈ rest, ∀ u ∈ V, u < v) →
      IsFirstFit k (V ∪ rest.toFinset) adj (sweep k adj rest c) := by
    intro rest
    induction rest with
    | nil =>
      intro V c _ h _ _
      simpa [sweep] using h
    | cons v rest ih =>
      intro V c hsorted h hzero hbelow
      obtain ⟨hfirst, hrest⟩ := List.pairwise_cons.mp hsorted
      obtain ⟨hfit, hzero'⟩ := isFirstFit_recolour h hzero (hbelow v (by simp))
      have hunion : V ∪ (v :: rest).toFinset = insert v V ∪ rest.toFinset := by
        ext u
        simp only [List.toFinset_cons, Finset.mem_union, Finset.mem_insert, List.mem_toFinset]
        tauto
      rw [hunion]
      refine ih _ _ hrest hfit hzero' fun w hw u hu => ?_
      rcases Finset.mem_insert.mp hu with rfl | hu
      · exact hfirst w hw
      · exact hbelow w (by simp [hw]) u hu
  have h := hgeneral order ∅ (fun _ => 0) horder ⟨by simp, by simp, by simp⟩ (by simp) (by simp)
  simpa using h

theorem sweep_of_not_mem {order : List α} {v : α} (hv : v ∉ order) :
    sweep k adj order c v = c v := by
  induction order generalizing c with
  | nil => rfl
  | cons u order ih =>
    rw [List.mem_cons, not_or] at hv
    change sweep k adj order (recolour k adj c u) v = c v
    rw [ih hv.2]
    rcases recolour_cases k adj c u with ⟨i, -, -, -, -, heq⟩ | ⟨-, heq⟩
    · rw [heq, Function.update_of_ne hv.1]
    · rw [heq]

/-! Twins. -/

def rank (V : Finset α) (v : α) : ℕ := (V.filter (· < v)).card

theorem rank_lt {u v : α} (hu : u ∈ V) (hlt : u < v) : rank V u < rank V v := by
  apply Finset.card_lt_card
  rw [Finset.ssubset_iff_of_subset fun w hw => ?_]
  · exact ⟨u, by simp [hu, hlt], by simp⟩
  · simp only [Finset.mem_filter] at hw ⊢
    exact ⟨hw.1, hw.2.trans hlt⟩

mutual

/-- A vertex with `k - 1` smaller neighbours, none saturated and no two of them twins. -/
def Saturated (k : ℕ) (V : Finset α) (adj : α → Finset α) (v : α) : Prop :=
  ∃ S : Finset {u // u ∈ V ∧ u ∈ adj v ∧ u < v}, S.card = k - 1 ∧
    (∀ u ∈ S, ¬ Saturated k V adj u.1) ∧
    ∀ u ∈ S, ∀ w ∈ S, u ≠ w → ¬ Twins k V adj u.1 w.1
termination_by (rank V v, 0)
decreasing_by
  · exact Prod.Lex.left _ _ (rank_lt u.2.1 u.2.2.2)
  · exact Prod.Lex.left _ _ (max_lt (rank_lt u.2.1 u.2.2.2) (rank_lt w.2.1 w.2.2.2))

/-- No unsaturated smaller neighbour of one is a twin of the other. -/
def Twins (k : ℕ) (V : Finset α) (adj : α → Finset α) (u v : α) : Prop :=
  (∀ w : {w // w ∈ V ∧ w ∈ adj u ∧ w < u}, ¬ Saturated k V adj w.1 → ¬ Twins k V adj w.1 v) ∧
    ∀ w : {w // w ∈ V ∧ w ∈ adj v ∧ w < v}, ¬ Saturated k V adj w.1 → ¬ Twins k V adj u w.1
termination_by (max (rank V u) (rank V v), rank V u + rank V v + 1)
decreasing_by
  all_goals
    have hlt := rank_lt w.2.1 w.2.2.2
    rw [Prod.lex_def]
    simp only []
    omega

end

/-- Equal colours, said of the ordered graph alone. -/
def SameColour (k : ℕ) (V : Finset α) (adj : α → Finset α) (u v : α) : Prop :=
  (Saturated k V adj u ∧ Saturated k V adj v) ∨
    (¬ Saturated k V adj u ∧ ¬ Saturated k V adj v ∧ Twins k V adj u v)

theorem not_saturated_of_card_lt {v : α} (h : (adj v).card < k - 1) : ¬ Saturated k V adj v := by
  rw [Saturated]
  rintro ⟨S, hcard, -⟩
  have hle : S.card ≤ (adj v).card :=
    Finset.card_le_card_of_injOn (fun u => u.1) (fun u _ => u.2.2.1) Subtype.val_injective.injOn
  omega

theorem twins_self {u : α} : Twins k V adj u u := by
  induction hrank : rank V u using Nat.strong_induction_on generalizing u with
  | _ n ih =>
    -- a smaller neighbour is a twin of itself, so it is none of the vertex
    rw [Twins]
    constructor
    · intro w hunsat htwins
      have hself := ih (rank V w.1) (hrank ▸ rank_lt w.2.1 w.2.2.2) rfl
      rw [Twins] at htwins
      exact htwins.2 ⟨w.1, w.2⟩ hunsat hself
    · intro w hunsat htwins
      have hself := ih (rank V w.1) (hrank ▸ rank_lt w.2.1 w.2.2.2) rfl
      rw [Twins] at htwins
      exact htwins.1 ⟨w.1, w.2⟩ hunsat hself

theorem not_sameColour_of_adj {u v : α} (hu : u ∈ V) (hv : v ∈ V) (hne : u ≠ v)
    (huv : v ∈ adj u) (hvu : u ∈ adj v) (hsat : ¬ Saturated k V adj u) :
    ¬ SameColour k V adj u v := by
  rintro (⟨h, -⟩ | ⟨-, hsat', htwins⟩)
  · exact hsat h
  · rw [Twins] at htwins
    rcases lt_or_gt_of_ne hne with hlt | hlt
    · exact htwins.2 ⟨u, hu, hvu, hlt⟩ hsat twins_self
    · exact htwins.1 ⟨v, hv, huv, hlt⟩ hsat' twins_self

namespace IsFirstFit

mutual

theorem saturated_iff (h : IsFirstFit k V adj c) {v : α} (hv : v ∈ V) :
    Saturated k V adj v ↔ c v = 0 := by
  rw [Saturated]
  constructor
  · rintro ⟨S, hcard, hunsat, htwins⟩
    by_contra hne
    -- the colours of `S` are all of `1 .. k - 1`, so one of them is the vertex's own
    have hcolour : ∀ u ∈ S, c u.1 ≠ 0 := fun u hu hzero =>
      hunsat u hu ((h.saturated_iff u.2.1).mpr hzero)
    have hinj : Set.InjOn (fun u : {u // u ∈ V ∧ u ∈ adj v ∧ u < v} => c u.1) S := by
      intro u hu w hw heq
      by_contra hdiff
      exact htwins u hu w hw hdiff
        ((h.twins_iff u.2.1 w.2.1 (hcolour u hu) (hcolour w hw)).mpr heq)
    have hsub : S.image (fun u => c u.1) ⊆ Finset.Ico 1 k := by
      intro j hj
      obtain ⟨u, hu, rfl⟩ := Finset.mem_image.mp hj
      have hpos := hcolour u hu
      have hlt := h.lt u.1 u.2.1 hpos
      rw [Finset.mem_Ico]
      omega
    have heq : S.image (fun u => c u.1) = Finset.Ico 1 k := by
      apply Finset.eq_of_subset_of_card_le hsub
      rw [Finset.card_image_of_injOn hinj, hcard, Nat.card_Ico]
    have hown : c v ∈ Finset.Ico 1 k := by
      have hlt := h.lt v hv hne
      rw [Finset.mem_Ico]
      omega
    rw [← heq] at hown
    obtain ⟨u, -, hu⟩ := Finset.mem_image.mp hown
    exact h.free v hv hne u.1 u.2.2.1 u.2.1 u.2.2.2 hu
  · intro hzero
    have htaken : ∀ j : Finset.Ico 1 k, ∃ u : {u // u ∈ V ∧ u ∈ adj v ∧ u < v}, c u.1 = j.1 := by
      intro j
      obtain ⟨hj, hjk⟩ := Finset.mem_Ico.mp j.2
      obtain ⟨u, hadj, hu, hlt, heq⟩ := h.taken v hv j.1 hj hjk (Or.inl hzero)
      exact ⟨⟨u, hu, hadj, hlt⟩, heq⟩
    choose pick hpick using htaken
    have hinj : Function.Injective pick := by
      intro i j hij
      apply Subtype.ext
      rw [← hpick i, ← hpick j, hij]
    have hcolour : ∀ u ∈ Finset.univ.image pick, c u.1 ≠ 0 := by
      intro u hu
      obtain ⟨j, -, rfl⟩ := Finset.mem_image.mp hu
      have := (Finset.mem_Ico.mp j.2).1
      rw [hpick]
      omega
    refine ⟨Finset.univ.image pick, ?_, fun u hu hsat => ?_, fun u hu w hw hne htwins => ?_⟩
    · rw [Finset.card_image_of_injective _ hinj, Finset.card_univ, Fintype.card_coe, Nat.card_Ico]
    · exact hcolour u hu ((h.saturated_iff u.2.1).mp hsat)
    · have heq := (h.twins_iff u.2.1 w.2.1 (hcolour u hu) (hcolour w hw)).mp htwins
      obtain ⟨i, -, rfl⟩ := Finset.mem_image.mp hu
      obtain ⟨j, -, rfl⟩ := Finset.mem_image.mp hw
      rw [hpick, hpick] at heq
      exact hne (by rw [Subtype.ext heq])
termination_by (rank V v, 0)
decreasing_by
  all_goals
    rw [Prod.lex_def]
    simp only []
    first
    | exact Or.inl (rank_lt u.2.1 u.2.2.2)
    | exact Or.inl (max_lt (rank_lt u.2.1 u.2.2.2) (rank_lt w.2.1 w.2.2.2))

theorem twins_iff (h : IsFirstFit k V adj c) {u v : α} (hu : u ∈ V) (hv : v ∈ V)
    (hcu : c u ≠ 0) (hcv : c v ≠ 0) : Twins k V adj u v ↔ c u = c v := by
  rw [Twins]
  constructor
  · rintro ⟨hleft, hright⟩
    -- otherwise the smaller colour is taken below the other vertex, by a twin
    rcases lt_trichotomy (c u) (c v) with hlt | heq | hlt
    · obtain ⟨w, hadj, hw, hwv, heq⟩ :=
        h.taken v hv (c u) (by omega) (hlt.trans (h.lt v hv hcv)) (Or.inr hlt)
      have hcw : c w ≠ 0 := by omega
      exact absurd ((h.twins_iff hu hw hcu hcw).mpr heq.symm)
        (hright ⟨w, hw, hadj, hwv⟩ (fun hsat => hcw ((h.saturated_iff hw).mp hsat)))
    · exact heq
    · obtain ⟨w, hadj, hw, hwu, heq⟩ :=
        h.taken u hu (c v) (by omega) (hlt.trans (h.lt u hu hcu)) (Or.inr hlt)
      have hcw : c w ≠ 0 := by omega
      exact absurd ((h.twins_iff hw hv hcw hcv).mpr heq)
        (hleft ⟨w, hw, hadj, hwu⟩ (fun hsat => hcw ((h.saturated_iff hw).mp hsat)))
  · intro heq
    refine ⟨fun w hunsat htwins => ?_, fun w hunsat htwins => ?_⟩
    · have hcw : c w.1 ≠ 0 := fun hzero => hunsat ((h.saturated_iff w.2.1).mpr hzero)
      have hsame := (h.twins_iff w.2.1 hv hcw hcv).mp htwins
      exact h.free u hu hcu w.1 w.2.2.1 w.2.1 w.2.2.2 (by rw [hsame, heq])
    · have hcw : c w.1 ≠ 0 := fun hzero => hunsat ((h.saturated_iff w.2.1).mpr hzero)
      have hsame := (h.twins_iff hu w.2.1 hcu hcw).mp htwins
      exact h.free v hv hcv w.1 w.2.2.1 w.2.1 w.2.2.2 (by rw [← hsame, heq])
termination_by (max (rank V u) (rank V v), rank V u + rank V v + 1)
decreasing_by
  all_goals
    rw [Prod.lex_def]
    simp only []
    first
    | have hlt := rank_lt hw hwv
      omega
    | have hlt := rank_lt hw hwu
      omega
    | have hlt := rank_lt w.2.1 w.2.2.2
      omega

end

theorem ne_of_adj (h : IsFirstFit k V adj c) {u v : α} (hu : u ∈ V) (hv : v ∈ V) (hne : u ≠ v)
    (huv : v ∈ adj u) (hvu : u ∈ adj v) (hcu : c u ≠ 0) (hcv : c v ≠ 0) : c u ≠ c v := by
  rcases lt_or_gt_of_ne hne with hlt | hlt
  · exact h.free v hv hcv u hvu hu hlt
  · exact (h.free u hu hcu v huv hv hlt).symm

theorem le_card_of_eq_zero (h : IsFirstFit k V adj c) {v : α} (hv : v ∈ V) (hzero : c v = 0) :
    k - 1 ≤ ((adj v).erase v).card := by
  have htaken : Finset.Ico 1 k ⊆ ((adj v).erase v).image c := by
    intro j hj
    obtain ⟨hpos, hlt⟩ := Finset.mem_Ico.mp hj
    obtain ⟨u, hadj, -, hbelow, heq⟩ := h.taken v hv j hpos hlt (Or.inl hzero)
    exact Finset.mem_image.mpr ⟨u, Finset.mem_erase.mpr ⟨hbelow.ne, hadj⟩, heq⟩
  calc k - 1 = (Finset.Ico 1 k).card := (Nat.card_Ico 1 k).symm
    _ ≤ (((adj v).erase v).image c).card := Finset.card_le_card htaken
    _ ≤ ((adj v).erase v).card := Finset.card_image_le

theorem eq_iff_sameColour (h : IsFirstFit k V adj c) {u v : α} (hu : u ∈ V) (hv : v ∈ V) :
    c u = c v ↔ SameColour k V adj u v := by
  unfold SameColour
  rw [h.saturated_iff hu, h.saturated_iff hv]
  by_cases hcu : c u = 0
  · simp only [hcu, not_true_eq_false, false_and, or_false, true_and]
    exact eq_comm
  · by_cases hcv : c v = 0
    · simp [hcu, hcv]
    · simp [hcu, hcv, h.twins_iff hu hv hcu hcv]

end IsFirstFit

end MMLMStore.FirstFit
