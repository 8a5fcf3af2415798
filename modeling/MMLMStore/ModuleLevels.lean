import MMLMStore.LongestPaths

/-!
# Module levels

The modules of the memory hierarchy name the modules below them in the configuration file. The
reader follows every way down to main memory and refuses those with more than ten modules. Each
module then gets the number of modules on the longest way from an entry to it as its level.
-/
namespace MMLMStore.ModuleLevels
open LongestPaths

variable {V : Type}

inductive ModuleType
  | Invalid
  | Cache
  | MainMemory
  | LocalMemory
  | LMStore
  deriving DecidableEq

structure Module where
  name : String
  type : ModuleType
  block_size : ℤ

/-- The sections of a configuration file, with the modules that are entered in them. -/
structure IniFile (V : Type) where
  path : String
  Exists : String → Bool
  LowModules : String → String
  ptr : String → Option V

structure Links (V : Type) where
  low_modules : V → List V
  high_modules : V → List V

inductive Failure
  | error (message : String)
  | assertion
  deriving DecidableEq

def err_config_note : String :=
  "Please run 'm2s --mem-help' or consult the Multi2Sim Guide for " ++
  "a description of the memory system configuration file format."

def err_levels : String :=
  "The path from a cache into main memory exceeds 10 levels of cache. " ++
  "This might be a symptom of a recursive reference in 'LowModules' lists."

def err_block_size : String :=
  "Block size in a cache must be greater or equal than its " ++
  "lower-level cache for correct behavior of directories and coherence protocols."

/-- `Error(misc::fmt("%s: %s: %s%s", ini_file->getPath(), name, text, err_config_note))`. -/
def IniFile.Error (ini_file : IniFile V) (name text : String) : Failure :=
  .error (ini_file.path ++ ": " ++ name ++ ": " ++ text ++ err_config_note)

/-- The modules in the order in which the configuration file has them. -/
structure System (V : Type) where
  modules : List V
  data : V → Module

/-- `module->addLowModule(low_module)` and `low_module->addHighModule(module)`. -/
def Links.add [DecidableEq V] (links : Links V) (module low_module : V) : Links V where
  low_modules := Function.update links.low_modules module (links.low_modules module ++ [low_module])
  high_modules :=
    Function.update links.high_modules low_module (links.high_modules low_module ++ [module])

namespace System

variable (s : System V) (ini_file : IniFile V) (low_modules : V → List V)

/-- The check with so many levels left that the module is on one of the ten admitted ones. -/
def checkRoute : ℕ → V → ℤ → Except Failure Unit
  | 0, module, _ =>
    .error (ini_file.Error (s.data module).name ("too many cache levels.\n" ++ err_levels))
  | left + 1, module, block_size =>
    if (s.data module).block_size < block_size then
      .error (ini_file.Error (s.data module).name ("decreasing block size.\n" ++ err_block_size))
    else if low_modules module = [] ∧ (s.data module).type = .Cache then
      .error (ini_file.Error (s.data module).name "main memory not accessible from cache.\n")
    else (low_modules module).forM fun low_module =>
      checkRoute left low_module (s.data module).block_size

def ConfigCheckRouteToMainMemory (module : V) (block_size : ℤ) (level : ℕ) :
    Except Failure Unit :=
  s.checkRoute ini_file low_modules (11 - level) module block_size

/-- The recursion of the source, which counts the levels upwards. -/
theorem ConfigCheckRouteToMainMemory_eq (module : V) (block_size : ℤ) (level : ℕ) :
    s.ConfigCheckRouteToMainMemory ini_file low_modules module block_size level =
      if 10 < level then
        .error (ini_file.Error (s.data module).name ("too many cache levels.\n" ++ err_levels))
      else if (s.data module).block_size < block_size then
        .error (ini_file.Error (s.data module).name ("decreasing block size.\n" ++ err_block_size))
      else if low_modules module = [] ∧ (s.data module).type = .Cache then
        .error (ini_file.Error (s.data module).name "main memory not accessible from cache.\n")
      else (low_modules module).forM fun low_module =>
        s.ConfigCheckRouteToMainMemory ini_file low_modules low_module (s.data module).block_size
          (level + 1) := by
  by_cases hlevel : 10 < level
  · rw [if_pos hlevel, ConfigCheckRouteToMainMemory, Nat.sub_eq_zero_of_le hlevel, checkRoute]
  · have hleft : 11 - level = 11 - (level + 1) + 1 := by omega
    rw [if_neg hlevel, ConfigCheckRouteToMainMemory, hleft, checkRoute]
    rfl

variable [DecidableEq V] (StringTokenize : String → List String)

def readLowModule (module : V) (links : Links V) (low_module_name : String) :
    Except Failure (Links V) :=
  if ini_file.Exists ("Module " ++ low_module_name) then
    (ini_file.ptr ("Module " ++ low_module_name)).elim (.error .assertion) fun low_module =>
      .ok (links.add module low_module)
  else
    .error (ini_file.Error (s.data module).name "invalid module name in 'LowModules'.\n")

def readLowModules (links : Links V) (module : V) : Except Failure (Links V) :=
  if (s.data module).type = .MainMemory then .ok links
  else if ini_file.Exists ("Module " ++ (s.data module).name) then
    if ini_file.LowModules ("Module " ++ (s.data module).name) = "" then
      .error (ini_file.Error ("Module " ++ (s.data module).name)
        "missing or invalid value for 'LowModules'.\n")
    else
      (StringTokenize (ini_file.LowModules ("Module " ++ (s.data module).name))).foldlM
        (s.readLowModule ini_file module) links
  else .error .assertion

def ConfigReadLowModules : Except Failure (Links V) := do
  let links ← s.modules.foldlM (s.readLowModules ini_file StringTokenize) ⟨fun _ => [], fun _ => []⟩
  s.modules.forM fun module =>
    s.ConfigCheckRouteToMainMemory ini_file links.low_modules module (s.data module).block_size 1
  return links

end System

/-- `none` if the recursion is deeper than a bound. -/
def ConfigSetModuleLevel [DecidableEq V] (low_modules : V → List V) :
    ℕ → (V → ℕ) → V → ℕ → Option (V → ℕ)
  | 0, _, _, _ => none
  | depth + 1, levels, module, level =>
    if level ≤ levels module then some levels
    else (low_modules module).foldlM
      (fun levels low_module =>
        ConfigSetModuleLevel low_modules depth levels low_module (level + 1))
      (Function.update levels module level)

/-- The levels after all entry modules of all architectures with timing simulation. -/
def ConfigCalculateModuleLevels [DecidableEq V] (low_modules : V → List V) (depth : ℕ)
    (archs : List (List V)) : Option (V → ℕ) :=
  archs.foldlM
    (fun levels entries => entries.foldlM
      (fun levels module => ConfigSetModuleLevel low_modules depth levels module 1) levels)
    fun _ => 0

theorem bind_ok {ε α β : Type} {x : Except ε α} {f : α → Except ε β} {b : β} :
    x >>= f = .ok b ↔ ∃ a, x = .ok a ∧ f a = .ok b := by
  cases x with
  | error e =>
    constructor
    · intro h
      cases h
    · rintro ⟨a, ha, -⟩
      cases ha
  | ok a => exact ⟨fun h => ⟨a, rfl, h⟩, fun ⟨a', ha, h⟩ => Except.ok.inj ha ▸ h⟩

theorem forM_ok {ε α : Type} {f : α → Except ε Unit} {l : List α} :
    l.forM f = .ok () ↔ ∀ x ∈ l, f x = .ok () := by
  induction l with
  | nil => exact iff_of_true rfl (by simp)
  | cons x l ih =>
    rw [List.forall_mem_cons, ← ih, List.forM_eq_forM, List.forM_cons, bind_ok]
    exact ⟨fun ⟨_, hx, hl⟩ => ⟨hx, hl⟩, fun ⟨hx, hl⟩ => ⟨(), hx, hl⟩⟩

/-- What every step of a loop keeps holds when the loop has ended without an error. -/
theorem foldlM_keeps {ε α β : Type} {f : β → α → Except ε β} {P : β → Prop}
    (hf : ∀ b x b', P b → f b x = .ok b' → P b') {l : List α} {b b' : β} (hb : P b)
    (h : l.foldlM f b = .ok b') : P b' := by
  induction l generalizing b with
  | nil => exact Except.ok.inj h ▸ hb
  | cons x l ih =>
    rw [List.foldlM_cons, bind_ok] at h
    obtain ⟨b'', hx, hl⟩ := h
    exact ih (hf b x b'' hb hx) hl

section Accepted

variable {s : System V} {ini_file : IniFile V} {low_modules : V → List V}

theorem checkRoute_shallow {left : ℕ} {v : V} {block_size : ℤ}
    (h : s.checkRoute ini_file low_modules left v block_size = .ok ()) :
    Shallow low_modules left v := by
  induction left generalizing v block_size with
  | zero => cases h
  | succ left ih =>
    rw [System.checkRoute] at h
    split_ifs at h
    exact fun w hw => ih (forM_ok.mp h w hw)

variable [DecidableEq V] {StringTokenize : String → List String} {links : Links V}

/-- Every low module has its high module in the other list, and the other way round. -/
def Links.Mutual (links : Links V) : Prop :=
  ∀ v w, v ∈ links.high_modules w ↔ w ∈ links.low_modules v

theorem Links.Mutual.add (h : links.Mutual) (module low_module : V) :
    (links.add module low_module).Mutual := by
  intro v w
  have hvw := h v w
  simp only [Links.add, Function.update_apply]
  split_ifs with hw hv hv
  · subst hv hw
    simp [hvw]
  · subst hw
    simp [hvw, hv]
  · subst hv
    simp [hvw, hw]
  · exact hvw

theorem readLowModules_mutual {module : V} {links' : Links V} (hlinks : links.Mutual)
    (h : s.readLowModules ini_file StringTokenize links module = .ok links') : links'.Mutual := by
  simp only [System.readLowModules] at h
  split_ifs at h
  · exact Except.ok.inj h ▸ hlinks
  · refine foldlM_keeps ?_ hlinks h
    intro links name links' hlinks hname
    simp only [System.readLowModule] at hname
    split_ifs at hname
    cases hptr : ini_file.ptr ("Module " ++ name) with
    | none => rw [hptr] at hname; cases hname
    | some low_module =>
      rw [hptr] at hname
      exact Except.ok.inj hname ▸ hlinks.add module low_module

/-- What has been accepted: the links that were read, with no refused way down. -/
theorem ConfigReadLowModules_ok
    (h : s.ConfigReadLowModules ini_file StringTokenize = .ok links) :
    s.modules.foldlM (s.readLowModules ini_file StringTokenize) ⟨fun _ => [], fun _ => []⟩ =
        .ok links ∧
      ∀ v ∈ s.modules, s.ConfigCheckRouteToMainMemory ini_file links.low_modules v
        (s.data v).block_size 1 = .ok () := by
  unfold System.ConfigReadLowModules at h
  obtain ⟨read, hread, h⟩ := bind_ok.mp h
  obtain ⟨_, hcheck, h⟩ := bind_ok.mp h
  obtain rfl : read = links := Except.ok.inj h
  exact ⟨hread, forM_ok.mp hcheck⟩

theorem links_mutual (h : s.ConfigReadLowModules ini_file StringTokenize = .ok links) :
    links.Mutual :=
  foldlM_keeps (fun _ _ _ => readLowModules_mutual) (fun _ _ => by simp)
    (ConfigReadLowModules_ok h).1

theorem accepted_shallow (h : s.ConfigReadLowModules ini_file StringTokenize = .ok links) {v : V}
    (hv : v ∈ s.modules) : Shallow links.low_modules 10 v :=
  checkRoute_shallow ((ConfigReadLowModules_ok h).2 v hv)

end Accepted

section Levels

variable [DecidableEq V] {low_modules : V → List V}

theorem configSetModuleLevel_raised {depth : ℕ} {module : V}
    (h : Shallow low_modules depth module) (levels : V → ℕ) (level : ℕ) :
    ∃ levels', ConfigSetModuleLevel low_modules depth levels module level = some levels' ∧
      Raised low_modules [module] level levels levels' := by
  induction depth generalizing module levels level with
  | zero => exact h.elim
  | succ depth ih =>
    rw [ConfigSetModuleLevel]
    split_ifs with hstop
    · exact ⟨levels, rfl, .stop hstop⟩
    · obtain ⟨levels', hlow, hraised⟩ := Raised.foldlM (g := fun w => [w])
        (fun w hw levels => ih (h w hw) levels (level + 1)) (Function.update levels module level)
      rw [List.flatMap_singleton'] at hraised
      exact ⟨levels', hlow, hraised.node (not_le.mp hstop)⟩

theorem configCalculateModuleLevels_longest {depth : ℕ} {archs : List (List V)}
    (h : ∀ v ∈ archs.flatten, Shallow low_modules depth v) :
    ∃ levels, ConfigCalculateModuleLevels low_modules depth archs = some levels ∧
      Longest low_modules archs.flatten levels := by
  have harch : ∀ entries ∈ archs, ∀ levels, ∃ levels',
      entries.foldlM (fun levels module => ConfigSetModuleLevel low_modules depth levels module 1)
        levels = some levels' ∧ Raised low_modules entries 1 levels levels' := by
    intro entries hentries levels
    have hall := Raised.foldlM (g := fun v => [v]) (fun v hv levels =>
      configSetModuleLevel_raised (h v (List.mem_flatten_of_mem hentries hv)) levels 1) levels
    rwa [List.flatMap_singleton'] at hall
  obtain ⟨levels, hlevels, hraised⟩ := Raised.foldlM (g := id) harch fun _ => 0
  rw [List.flatMap_id] at hraised
  exact ⟨levels, hlevels, hraised.longest⟩

/-- The levels of an accepted hierarchy are the lengths of its longest ways down, in whatever
order the entries and the low modules are listed. -/
theorem calculatedLevels {s : System V} {ini_file : IniFile V}
    {StringTokenize : String → List String} {links : Links V}
    (haccepted : s.ConfigReadLowModules ini_file StringTokenize = .ok links)
    {archs : List (List V)} (hentries : ∀ v ∈ archs.flatten, v ∈ s.modules) :
    ∃ levels, (∀ depth, 10 ≤ depth →
        ConfigCalculateModuleLevels links.low_modules depth archs = some levels) ∧
      Longest links.low_modules archs.flatten levels ∧
      ∀ (low_modules' : V → List V) (archs' : List (List V)) (depth : ℕ),
        (∀ v, (low_modules' v).Perm (links.low_modules v)) →
        archs'.flatten.Perm archs.flatten → 10 ≤ depth →
        ConfigCalculateModuleLevels low_modules' depth archs' = some levels := by
  have hshallow := fun v hv => accepted_shallow haccepted (hentries v hv)
  obtain ⟨levels, -, hlongest⟩ := configCalculateModuleLevels_longest hshallow
  have hany : ∀ (low_modules' : V → List V) (archs' : List (List V)) (depth : ℕ),
      (∀ v, (low_modules' v).Perm (links.low_modules v)) →
      archs'.flatten.Perm archs.flatten → 10 ≤ depth →
      ConfigCalculateModuleLevels low_modules' depth archs' = some levels := by
    intro low_modules' archs' depth hlow harchs hdepth
    have hsame : ∀ v w, w ∈ low_modules' v ↔ w ∈ links.low_modules v :=
      fun v w => (hlow v).mem_iff
    have hshallow' : ∀ v ∈ archs'.flatten, Shallow low_modules' depth v := fun v hv =>
      ((hshallow v (harchs.mem_iff.mp hv)).congr hsame).mono hdepth
    obtain ⟨levels', hlevels, hlongest'⟩ := configCalculateModuleLevels_longest hshallow'
    have heq : levels' = levels :=
      hlongest'.unique (hlongest.congr hsame fun v => harchs.mem_iff)
    rw [hlevels, heq]
  exact ⟨levels, fun depth => hany _ _ depth (fun _ => .refl _) (.refl _), hlongest, hany⟩

def threeModules : System (Fin 3) where
  modules := [0, 1, 2]
  data
    | 0 => ⟨"l1", .Cache, 64⟩
    | 1 => ⟨"l2", .Cache, 64⟩
    | 2 => ⟨"mm", .MainMemory, 128⟩

def threeModules_file : IniFile (Fin 3) where
  path := "mem-config"
  Exists name := name ∈ ["Module l1", "Module l2", "Module mm"]
  LowModules name := if name = "Module l1" then "mm, l2" else "mm"
  ptr name := ["Module l1", "Module l2", "Module mm"].findFinIdx? (· = name)

def threeModules_links : Links (Fin 3) :=
  (((⟨fun _ => [], fun _ => []⟩ : Links (Fin 3)).add 0 2).add 0 1).add 1 2

def threeModules_tokens (names : String) : List String :=
  if names = "mm, l2" then ["mm", "l2"] else [names]

theorem calculatedLevels_threeModules :
    threeModules.ConfigReadLowModules threeModules_file threeModules_tokens =
      .ok threeModules_links ∧
    ∃ levels, (∀ depth, 10 ≤ depth →
        ConfigCalculateModuleLevels threeModules_links.low_modules depth [[0]] = some levels) ∧
      Longest threeModules_links.low_modules [0] levels ∧
      ∀ (low_modules' : Fin 3 → List (Fin 3)) (archs' : List (List (Fin 3))) (depth : ℕ),
        (∀ v, (low_modules' v).Perm (threeModules_links.low_modules v)) →
        archs'.flatten.Perm [0] → 10 ≤ depth →
        ConfigCalculateModuleLevels low_modules' depth archs' = some levels :=
  have haccepted : threeModules.ConfigReadLowModules threeModules_file threeModules_tokens =
      .ok threeModules_links := rfl
  have hentries : ∀ v ∈ [[(0 : Fin 3)]].flatten, v ∈ threeModules.modules := by decide
  ⟨haccepted, calculatedLevels haccepted hentries⟩

/-- Main memory is raised twice, first from the first cache and then from the second one. -/
example : (ConfigCalculateModuleLevels threeModules_links.low_modules 10 [[0]]).map
    (fun levels => (levels 0, levels 1, levels 2)) = some (1, 2, 3) := rfl

end Levels

end MMLMStore.ModuleLevels
