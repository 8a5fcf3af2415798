import MMLMStore.ModulePorts

/-!
# Figures of the report

Every access that locks a port is counted, but only up-down lookups that lock their directory entry
are counted as reads or writes. So the totals of the report are the sums of its parts only in runs
without probes, evictions, messages and conflicts.
-/
namespace MMLMStore.AccessFigures

open CacheChains (RequestDirection)
open ModuleStatistics ModulePorts StepRuns

/-- Totals of the report and their parts. -/
def FiguresAgree (r : Report) : Prop :=
  r.Accesses = r.Reads + r.Writes + r.NCWrites ∧
    r.Misses = r.ReadMisses + r.WriteMisses + r.NCWriteMisses

instance (r : Report) : Decidable (FiguresAgree r) := inferInstanceAs (Decidable (_ ∧ _))

theorem figuresAgree_iff (s : Stats) :
    FiguresAgree s.DumpReport ↔ s.num_accesses = s.num_counted := by
  simp only [FiguresAgree, Stats.DumpReport, Stats.num_counted]
  omega

/-- A lookup by an up-down request that, in a cache, does not find its entry locked. -/
def Counted (m : Module) : Action → Prop
  | .find_and_lock_port i _ locked =>
    (m.frame i).lookup.request_direction = .UpDown ∧
      ((m.frame i).lookup.chain = .find_and_lock → locked = false)
  | _ => True

instance (m : Module) : (a : Action) → Decidable (Counted m a)
  | .find_and_lock_port _ _ _ => inferInstanceAs (Decidable (_ ∧ _))
  | .call _ _ _ => isTrue trivial
  | .find_and_lock _ => isTrue trivial
  | .find_and_lock_action _ => isTrue trivial
  | .find_and_lock_finish _ => isTrue trivial
  | .wakeup _ => isTrue trivial

def accessShare (_ : Module) : Action → ℕ
  | .find_and_lock_port _ _ _ => 1
  | _ => 0

def countedShare (m : Module) (a : Action) : ℕ :=
  if Counted m a then accessShare m a else 0

variable {m m' : Module} {Wait : Bool → ℕ → List ℕ → List ℕ}

def Adds (m m' : Module) (accesses counted : ℕ) : Prop :=
  m'.stats.num_accesses = m.stats.num_accesses + accesses ∧
    m'.stats.num_counted = m.stats.num_counted + counted

theorem adds_of_stats (h : m'.stats = m.stats) : Adds m m' 0 0 := by
  rw [Adds, h]
  exact ⟨rfl, rfl⟩

theorem lockPort_stats {i : ℕ} (h : m.LockPort Wait i = some m') : m'.stats = m.stats := by
  unfold Module.LockPort at h
  split_ifs at h
  · obtain rfl := Option.some.inj h
    rfl
  · obtain ⟨p, -, rfl⟩ := Option.map_eq_some_iff.mp h
    rfl

theorem release_stats {p i : ℕ} {s : Stage} (h : m.release p i s = some m') :
    m'.stats = m.stats := by
  obtain ⟨m₁, hunlock, rfl⟩ := Option.map_eq_some_iff.mp h
  unfold Module.UnlockPort at hunlock
  split_ifs at hunlock
  obtain rfl := Option.some.inj hunlock
  change ((m.unlocked p i).lockWaiting p).stats = m.stats
  unfold Module.lockWaiting
  split <;> rfl

theorem conflict_adds {p i : ℕ} {s : Stage} (h : m.conflict p i s = some m') : Adds m m' 0 0 := by
  obtain ⟨m₁, hrelease, rfl⟩ := Option.map_eq_some_iff.mp h
  obtain ⟨haccesses, hcounted⟩ :=
    incDirectoryEntryConflicts_eq m₁.stats (m₁.frame i).lookup.retry
  have hstats := release_stats hrelease
  exact ⟨haccesses.trans (congrArg _ hstats), hcounted.trans (congrArg _ hstats)⟩

theorem updateStats_adds {i : ℕ} (h : (m.UpdateStats i).map (·.setStage i .action) = some m') :
    Adds m m' 0 (if (m.frame i).lookup.request_direction = .UpDown then 1 else 0) := by
  obtain ⟨m₁, hupdate, rfl⟩ := Option.map_eq_some_iff.mp h
  obtain ⟨s, hs, rfl⟩ := Option.map_eq_some_iff.mp hupdate
  exact updateStats_eq hs

theorem adds_port {m₁ : Module} {retry : Bool} {n : ℕ}
    (hm₁ : m₁.stats = m.stats.incAccesses retry) (h : Adds m₁ m' 0 n) : Adds m m' 1 n := by
  obtain ⟨haccesses, hcounted⟩ := incAccesses_eq m.stats retry
  rw [Adds, hm₁, haccesses, hcounted] at h
  exact h

theorem find_and_lock_port_adds {p i : ℕ} {hit locked : Bool}
    (h : m.find_and_lock_port p i hit locked = some m') :
    Adds m m' 1
      (if (m.frame i).lookup.request_direction = .UpDown ∧ locked = false then 1 else 0) := by
  simp only [Module.find_and_lock_port] at h
  split_ifs at h with hmiss hblock hlocked
  · have hdir : (m.frame i).lookup.request_direction = .DownUp := by
      simpa [Module.incAccesses] using hmiss.2
    rw [if_neg (by simp [hdir])]
    exact adds_port rfl (adds_of_stats (release_stats h))
  · rw [if_neg (by simp [hblock.1])]
    exact adds_port rfl (conflict_adds h)
  · rw [if_neg (by simp [hlocked])]
    exact adds_port rfl (conflict_adds h)
  · have hadds := updateStats_adds h
    simp only [put_frame, if_true] at hadds
    simp only [hlocked, and_true]
    exact adds_port rfl hadds

theorem local_find_and_lock_port_adds {i : ℕ} (h : m.local_find_and_lock_port i = some m') :
    Adds m m' 1 (if (m.frame i).lookup.request_direction = .UpDown then 1 else 0) := by
  have hadds := updateStats_adds h
  simp only [Module.incAccesses, put_frame, if_true] at hadds
  exact adds_port rfl hadds

theorem Ported.reads_or_writes (h : Ported m) {i : ℕ}
    (hchain : (m.frame i).lookup.chain = .lmstore_find_and_lock) :
    (m.frame i).lookup.read = true ∨ (m.frame i).lookup.write = true := by
  obtain ⟨c, retry, hlookup⟩ := h.asked i
  rw [hlookup] at hchain ⊢
  cases c with
  | lmstore_load => exact Or.inl rfl
  | lmstore_store => exact Or.inr rfl
  | _ => cases hchain

theorem lmstore_find_and_lock_port_adds (hm : Ported m) {i : ℕ} {hit : Bool}
    (hchain : (m.frame i).lookup.chain = .lmstore_find_and_lock)
    (h : m.lmstore_find_and_lock_port i hit = some m') :
    Adds m m' 1 (if (m.frame i).lookup.request_direction = .UpDown then 1 else 0) := by
  have hkind := Ported.reads_or_writes hm hchain
  simp only [Module.lmstore_find_and_lock_port] at h
  rw [if_pos (by simpa [Module.incAccesses] using hkind)] at h
  have hadds := updateStats_adds h
  simp only [Module.incAccesses, put_frame, if_true] at hadds
  exact adds_port rfl hadds

theorem handle_adds (h : Ported m) (a : Action)
    (hhandle : handle Wait m a = some m') : Adds m m' (accessShare m a) (countedShare m a) := by
  cases a with
  | call i c retry =>
    obtain rfl := Option.some.inj hhandle
    exact adds_of_stats rfl
  | find_and_lock i => exact adds_of_stats (lockPort_stats hhandle)
  | find_and_lock_port i hit locked =>
    obtain ⟨p, -, hport⟩ := Option.bind_eq_some_iff.mp hhandle
    cases hchain : (m.frame i).lookup.chain with
    | find_and_lock =>
      rw [hchain] at hport
      simpa [countedShare, accessShare, Counted, hchain] using find_and_lock_port_adds hport
    | local_find_and_lock =>
      rw [hchain] at hport
      simpa [countedShare, accessShare, Counted, hchain] using
        local_find_and_lock_port_adds hport
    | lmstore_find_and_lock =>
      rw [hchain] at hport
      simpa [countedShare, accessShare, Counted, hchain] using
        lmstore_find_and_lock_port_adds h hchain hport
  | find_and_lock_action i =>
    obtain ⟨p, -, hrelease⟩ := Option.bind_eq_some_iff.mp hhandle
    exact adds_of_stats (release_stats hrelease)
  | find_and_lock_finish i =>
    obtain rfl := Option.some.inj hhandle
    exact adds_of_stats rfl
  | wakeup i =>
    obtain rfl := Option.some.inj hhandle
    exact adds_of_stats rfl

theorem next_adds (h : Ported m) {a : Action} (hnext : next Wait m a = some m') :
    Adds m m' (accessShare m a) (countedShare m a) := by
  unfold next at hnext
  split_ifs at hnext
  exact handle_adds h a hnext

theorem countedShare_le (m : Module) (a : Action) : countedShare m a ≤ accessShare m a := by
  unfold countedShare
  split_ifs
  · exact le_refl _
  · exact Nat.zero_le _

theorem countedShare_eq_iff (m : Module) (a : Action) :
    countedShare m a = accessShare m a ↔ Counted m a := by
  unfold countedShare
  split_ifs with hcounted
  · simp [hcounted]
  · cases a with
    | find_and_lock_port i hit locked => simp [accessShare, hcounted]
    | _ => exact absurd trivial hcounted

/-- At the end of a run of a cache module the figures agree exactly if every lookup of the run was
counted; then they agree all along. -/
theorem figuresAgree_run (hWait : ∀ front i queue, (Wait front i queue).Perm (i :: queue))
    (num_ports : ℕ) {run : List (Action × Module)}
    (hrun : IsRun (fun m a m' => next Wait m a = some m') (Module.new .Cache num_ports) run) :
    (FiguresAgree (final (Module.new .Cache num_ports) run).stats.DumpReport ↔
        ∀ x ∈ transitions (Module.new .Cache num_ports) run, Counted x.1 x.2.1) ∧
      ((∀ x ∈ transitions (Module.new .Cache num_ports) run, Counted x.1 x.2.1) →
        ∀ m ∈ states (Module.new .Cache num_ports) run, FiguresAgree m.stats.DumpReport) := by
  have hnew := ported_new .Cache num_ports
  constructor
  · obtain ⟨-, haccesses⟩ := final_eq_total Ported (fun m => m.stats.num_accesses) accessShare
      (fun m a m' h hnext => ⟨ported_next hWait h hnext, (next_adds h hnext).1⟩) hrun hnew
    obtain ⟨-, hcounted⟩ := final_eq_total Ported (fun m => m.stats.num_counted) countedShare
      (fun m a m' h hnext => ⟨ported_next hWait h hnext, (next_adds h hnext).2⟩) hrun hnew
    have hzero : (Module.new .Cache num_ports).stats.num_accesses =
      (Module.new .Cache num_ports).stats.num_counted := rfl
    have htotal := total_eq_iff countedShare_le (Module.new .Cache num_ports) run
    rw [figuresAgree_iff, haccesses, hcounted, hzero, Nat.add_left_cancel_iff, eq_comm, htotal]
    exact forall₂_congr fun x _ => countedShare_eq_iff x.1 x.2.1
  · intro hall
    have hkept := invariant
      (I := fun m : Module => Ported m ∧ m.stats.num_accesses = m.stats.num_counted)
      (C := fun m a _ => Counted m a) ?_ hrun ⟨hnew, rfl⟩ hall
    · exact fun m hm => (figuresAgree_iff m.stats).mpr (hkept m hm).2
    · intro m a m' h hnext hcounted
      obtain ⟨haccesses, hnum⟩ := next_adds h.1 hnext
      refine ⟨ported_next hWait h.1 hnext, ?_⟩
      rw [haccesses, hnum, h.2, (countedShare_eq_iff m a).mpr hcounted]

/-- A load and a store to blocks of their own. -/
def twoAccesses : List Action :=
  [Action.call 0 .load false, Action.find_and_lock 0, Action.call 1 .store false,
    Action.find_and_lock 1, Action.find_and_lock_port 0 true false,
    Action.find_and_lock_action 0, Action.find_and_lock_port 1 false false,
    Action.find_and_lock_action 1]

theorem figuresAgree_twoAccesses :
    (trace (next inOrder) (Module.new .Cache 1) twoAccesses).length = twoAccesses.length ∧
      FiguresAgree (final (Module.new .Cache 1)
        (trace (next inOrder) (Module.new .Cache 1) twoAccesses)).stats.DumpReport :=
  ⟨by decide, (figuresAgree_run inOrder_perm 1 (isRun_trace _ _ _)).1.mpr (by decide)⟩

/-- In the run with a probe and a conflict, two accesses out of four are counted. -/
theorem figures_contention :
    (trace (next inOrder) (Module.new .Cache 1) contention).length = contention.length ∧
      ¬FiguresAgree (final (Module.new .Cache 1)
        (trace (next inOrder) (Module.new .Cache 1) contention)).stats.DumpReport := by
  decide

end MMLMStore.AccessFigures
