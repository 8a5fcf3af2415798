import Mathlib.Logic.Function.Basic
import Mathlib.Order.Bounds.Basic

/-!
# Longest paths

The nodes of a graph get levels in a traversal that goes on from a node only where it raises the
level of the node. What such a traversal has raised is attained by a path and exceeded in the
successors, however many traversals have gone before. The levels that come out are the lengths
of the longest paths, whatever the order of the nodes and of their successors.
-/
namespace MMLMStore.LongestPaths

variable {α : Type*}

inductive Path (succ : α → List α) : α → α → List α → Prop
  | last (v : α) : Path succ v v [v]
  | cons {v w u : α} {nodes : List α} :
      w ∈ succ v → Path succ w u nodes → Path succ v u (v :: nodes)

/-- The numbers of nodes on the paths from some entry to a node. -/
def lengths (succ : α → List α) (entries : List α) (u : α) : Set ℕ :=
  {n | ∃ v ∈ entries, ∃ nodes, Path succ v u nodes ∧ nodes.length = n}

/-- Every reached node has the length of a longest path to it, the others have level zero. -/
structure Longest (succ : α → List α) (entries : List α) (levels : α → ℕ) : Prop where
  reached : ∀ u, (lengths succ entries u).Nonempty → IsGreatest (lengths succ entries u) (levels u)
  unreached : ∀ u, lengths succ entries u = ∅ → levels u = 0

def Shallow (succ : α → List α) : ℕ → α → Prop
  | 0, _ => False
  | depth + 1, v => ∀ w ∈ succ v, Shallow succ depth w

/-- What a traversal does that starts in some nodes with a level. -/
structure Raised (succ : α → List α) (starts : List α) (n : ℕ) (levels levels' : α → ℕ) :
    Prop where
  le : ∀ u, levels u ≤ levels' u
  started : ∀ v ∈ starts, n ≤ levels' v
  attained : ∀ u, levels' u = levels u ∨
    ∃ v ∈ starts, ∃ nodes, Path succ v u nodes ∧ levels' u + 1 = n + nodes.length
  closed : ∀ u, levels' u ≠ levels u → ∀ w ∈ succ u, levels' u < levels' w

variable {succ succ' : α → List α} {n : ℕ} {levels levels' levels'' : α → ℕ}

theorem Shallow.congr (hsucc : ∀ v w, w ∈ succ' v ↔ w ∈ succ v) {depth : ℕ} {v : α}
    (h : Shallow succ depth v) : Shallow succ' depth v := by
  induction depth generalizing v with
  | zero => exact h
  | succ depth ih => exact fun w hw => ih (h w ((hsucc v w).mp hw))

theorem Shallow.mono {depth depth' : ℕ} (hle : depth ≤ depth') {v : α}
    (h : Shallow succ depth v) : Shallow succ depth' v := by
  induction depth generalizing depth' v with
  | zero => exact h.elim
  | succ depth ih =>
    obtain ⟨d, rfl⟩ := Nat.exists_eq_add_of_le' hle
    exact fun w hw => ih (Nat.le_add_left depth d) (h w hw)

theorem Path.congr (hsucc : ∀ v w, w ∈ succ v → w ∈ succ' v) {v u : α} {nodes : List α}
    (h : Path succ v u nodes) : Path succ' v u nodes := by
  induction h with
  | last v => exact .last v
  | cons hw _ ih => exact .cons (hsucc _ _ hw) ih

theorem Path.length_pos {v u : α} {nodes : List α} (h : Path succ v u nodes) :
    0 < nodes.length := by
  cases h <;> simp

theorem lengths_congr (hsucc : ∀ v w, w ∈ succ' v ↔ w ∈ succ v) {entries entries' : List α}
    (hentries : ∀ v, v ∈ entries' ↔ v ∈ entries) (u : α) :
    lengths succ' entries' u = lengths succ entries u := by
  ext n
  constructor
  · rintro ⟨v, hv, nodes, hpath, hn⟩
    exact ⟨v, (hentries v).mp hv, nodes, hpath.congr fun v w => (hsucc v w).mp, hn⟩
  · rintro ⟨v, hv, nodes, hpath, hn⟩
    exact ⟨v, (hentries v).mpr hv, nodes, hpath.congr fun v w => (hsucc v w).mpr, hn⟩

namespace Longest

variable {entries entries' : List α}

theorem congr (hsucc : ∀ v w, w ∈ succ' v ↔ w ∈ succ v)
    (hentries : ∀ v, v ∈ entries' ↔ v ∈ entries) (h : Longest succ entries levels) :
    Longest succ' entries' levels := by
  constructor
  · intro u hu
    rw [lengths_congr hsucc hentries] at hu ⊢
    exact h.reached u hu
  · intro u hu
    rw [lengths_congr hsucc hentries] at hu
    exact h.unreached u hu

theorem unique (h : Longest succ entries levels) (h' : Longest succ entries levels') :
    levels = levels' := by
  funext u
  rcases (lengths succ entries u).eq_empty_or_nonempty with hu | hu
  · rw [h.unreached u hu, h'.unreached u hu]
  · exact (h.reached u hu).unique (h'.reached u hu)

end Longest

namespace Raised

variable {starts : List α}

theorem nil : Raised succ [] n levels levels :=
  ⟨fun _ => le_rfl, by simp, fun _ => .inl rfl, fun _ h => absurd rfl h⟩

theorem stop {v : α} (h : n ≤ levels v) : Raised succ [v] n levels levels :=
  ⟨fun _ => le_rfl, by simpa using h, fun _ => .inl rfl, fun _ h => absurd rfl h⟩

/-- A raised level is followed by a traversal of the successors, one level higher. -/
theorem node [DecidableEq α] {v : α} (hlt : levels v < n)
    (h : Raised succ (succ v) (n + 1) (Function.update levels v n) levels') :
    Raised succ [v] n levels levels' := by
  have hself : n ≤ levels' v := by simpa using h.le v
  constructor
  · intro u
    by_cases hu : u = v
    · exact hu ▸ hlt.le.trans hself
    · simpa [hu] using h.le u
  · simpa using hself
  · intro u
    rcases h.attained u with heq | ⟨w, hw, nodes, hpath, hn⟩
    · by_cases hu : u = v
      · subst hu
        exact .inr ⟨u, by simp, [u], .last u, by simp [heq]⟩
      · exact .inl (by simpa [hu] using heq)
    · exact .inr ⟨v, by simp, v :: nodes, .cons hw hpath, by simp [hn]; omega⟩
  · intro u hne
    by_cases hsame : levels' u = Function.update levels v n u
    · -- Only the node itself has the level of the update and not its old one.
      have hu : u = v := by
        by_contra hu
        exact hne (by simpa [hu] using hsame)
      subst hu
      intro w hw
      have hw := h.started w hw
      simp only [Function.update_self] at hsame
      omega
    · exact h.closed u hsame

theorem append {starts' : List α} (h : Raised succ starts n levels levels')
    (h' : Raised succ starts' n levels' levels'') :
    Raised succ (starts ++ starts') n levels levels'' := by
  constructor
  · exact fun u => (h.le u).trans (h'.le u)
  · intro v hv
    rcases List.mem_append.mp hv with hv | hv
    · exact (h.started v hv).trans (h'.le v)
    · exact h'.started v hv
  · intro u
    rcases h'.attained u with heq | ⟨v, hv, hpath⟩
    · rcases h.attained u with heq' | ⟨v, hv, hpath⟩
      · exact .inl (heq.trans heq')
      · exact .inr ⟨v, List.mem_append_left _ hv, heq ▸ hpath⟩
    · exact .inr ⟨v, List.mem_append_right _ hv, hpath⟩
  · intro u hne w hw
    by_cases hsame : levels'' u = levels' u
    · rw [hsame] at hne ⊢
      exact (h.closed u hne w hw).trans_le (h'.le w)
    · exact h'.closed u hsame w hw

/-- Traversals one after the other are a traversal from all their starts. -/
theorem foldlM {β : Type*} {f : (α → ℕ) → β → Option (α → ℕ)} {g : β → List α} {l : List β}
    (hf : ∀ b ∈ l, ∀ levels, ∃ levels', f levels b = some levels' ∧
      Raised succ (g b) n levels levels') (levels : α → ℕ) :
    ∃ levels', l.foldlM f levels = some levels' ∧ Raised succ (l.flatMap g) n levels levels' := by
  induction l generalizing levels with
  | nil => exact ⟨levels, rfl, nil⟩
  | cons b l ih =>
    obtain ⟨levels', hb, hraised⟩ := hf b List.mem_cons_self levels
    obtain ⟨levels'', hl, hraised'⟩ := ih (fun c hc => hf c (List.mem_cons_of_mem b hc)) levels'
    refine ⟨levels'', ?_, hraised.append hraised'⟩
    rw [List.foldlM_cons, hb]
    exact hl

theorem add_length_le (h : Raised succ starts n (fun _ => 0) levels) {v u : α} {nodes : List α}
    (hpath : Path succ v u nodes) (hv : levels v ≠ 0) :
    levels v + nodes.length ≤ levels u + 1 := by
  induction hpath with
  | last v => simp
  | cons hw _ ih =>
    have hlt := h.closed _ hv _ hw
    have hle := ih (by omega)
    simp only [List.length_cons]
    omega

/-- Traversals that start from level zero everywhere find the longest paths. -/
theorem longest (h : Raised succ starts 1 (fun _ => 0) levels) : Longest succ starts levels := by
  have hmax : ∀ u, levels u ∈ upperBounds (lengths succ starts u) := by
    rintro u _ ⟨v, hv, nodes, hpath, rfl⟩
    have hstart := h.started v hv
    have hle := h.add_length_le hpath (by omega)
    omega
  constructor
  · rintro u ⟨n, hn⟩
    refine ⟨?_, hmax u⟩
    rcases h.attained u with hzero | ⟨v, hv, nodes, hpath, hlength⟩
    · obtain ⟨v, hv, nodes, hpath, rfl⟩ := hn
      have hstart := h.started v hv
      have hle := h.add_length_le hpath (by omega)
      have hpos := hpath.length_pos
      omega
    · exact ⟨v, hv, nodes, hpath, by omega⟩
  · intro u hnone
    rcases h.attained u with hzero | ⟨v, hv, nodes, hpath, -⟩
    · exact hzero
    · have hnot := Set.eq_empty_iff_forall_notMem.mp hnone nodes.length
      exact absurd ⟨v, hv, nodes, hpath, rfl⟩ hnot

end Raised

end MMLMStore.LongestPaths
