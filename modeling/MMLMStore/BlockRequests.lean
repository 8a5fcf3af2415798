import MMLMStore.LMStoreEvents
import MMLMStore.MmuDiversion

/-!
# Memory requests for a block

The read requests of a `ReadAlloc` and the write requests of a `WriteDealloc`: how many there are,
and the module that each of them has to be sent to.
-/
namespace MMLMStore.BlockRequests
open LMStoreDecode LMStoreEvents LMStoreTables MmuDiversion StepRuns
open MmuTranslation hiding Call Calls

/-- Memory has to read or write the block of the access. -/
def MovesBlock (f : Frame) : Prop :=
  f.access_type = .ReadAlloc ∨ f.access_type = .WriteDealloc ∧ f.state = .BlockModified

instance (f : Frame) : Decidable (MovesBlock f) := inferInstanceAs (Decidable (_ ∨ _))

/-- Replies that the access waits for after its action event. -/
def issued (mem_map : MemMap) (m : Module) (f : Frame) (c : Choice) : Option ℕ := do
  let (m', _) ← handle mem_map m f .action c
  let g ← m'.accesses.find? (·.id = f.id)
  if g.status = .awaiting then some g.pending else none

def childAddresses (m : Module) (tag block_size : ℕ) : List ℕ :=
  (List.range (m.mmBlocks block_size)).map fun i => addU32 tag (m.mm_block_size * i)

/-! Number of requests. -/

theorem find_put {m : Module} {f : Frame} (hf : f ∈ m.accesses) {f' : Frame} (hid : f'.id = f.id) :
    (m.put f').accesses.find? (·.id = f.id) = some f' := by
  have hput : (m.put f').accesses =
      m.accesses.map fun g => if g.id = f'.id then f' else g := rfl
  have hsame : ∀ g : Frame, (if g.id = f'.id then f' else g).id = g.id := by
    intro g
    split_ifs with h
    · exact h.symm
    · rfl
  obtain ⟨g, hg⟩ : ∃ g, m.accesses.find? (·.id = f.id) = some g := by
    rw [← Option.isSome_iff_exists, List.find?_isSome]
    exact ⟨f, hf, by simp⟩
  have hgid : g.id = f.id := by simpa using List.find?_some hg
  rw [hput, List.find?_map]
  have hcomp : ((fun g : Frame => decide (g.id = f.id)) ∘
      fun g => if g.id = f'.id then f' else g) = fun g => decide (g.id = f.id) := by
    funext g
    simp only [Function.comp_apply, hsame]
  rw [hcomp, hg, Option.map_some, if_pos (by rw [hgid, hid])]

theorem handle_movesBlock (mem_map : MemMap) (m : Module) {f : Frame} (c : Choice)
    (hmoves : MovesBlock f) : handle mem_map m f .action c =
      some (m.put { f with
        pending := m.mmBlocks (getBlockSize mem_map f.address), status := .awaiting }, none) := by
  rcases hmoves with htype | ⟨htype, hstate⟩
  · simp [handle, htype, EventLMStoreAllocHandler]
  · simp [handle, htype, hstate, EventLMStoreDeallocHandler]

theorem issued_eq (mem_map : MemMap) {m : Module} {f : Frame} (c : Choice) (hf : f ∈ m.accesses)
    (hmoves : MovesBlock f) :
    issued mem_map m f c = some (m.mmBlocks (getBlockSize mem_map f.address)) := by
  let g : Frame :=
    { f with pending := m.mmBlocks (getBlockSize mem_map f.address), status := .awaiting }
  have hhandle : handle mem_map m f .action c = some (m.put g, none) :=
    handle_movesBlock mem_map m c hmoves
  have hfind : (m.put g).accesses.find? (·.id = f.id) = some g := find_put hf rfl
  simp only [issued, hhandle, Option.bind_eq_bind, Option.bind_some, hfind]
  rfl

theorem length_childAddresses (m : Module) (tag block_size : ℕ) :
    (childAddresses m tag block_size).length = m.mmBlocks block_size := by
  rw [childAddresses, List.length_map, List.length_range]

/-- The remainder is tested the wrong way round: sizes that are a multiple get one request too many,
all others one too few. -/
theorem mmBlocks_isLeast_iff {m : Module} (hmm : 0 < m.mm_block_size) (block_size : ℕ) :
    IsLeast {n | 1 ≤ n ∧ block_size ≤ n * m.mm_block_size} (m.mmBlocks block_size) ↔
      block_size ≤ m.mm_block_size := by
  have hdiv := Nat.div_add_mod' block_size m.mm_block_size
  have hrest := Nat.mod_lt block_size hmm
  constructor
  · rintro ⟨⟨-, hcover⟩, hleast⟩
    by_contra hlarge
    rw [not_le] at hlarge
    rw [Module.mmBlocks, if_pos hlarge] at hcover hleast
    by_cases hmultiple : block_size % m.mm_block_size = 0
    · have hquotient : 1 ≤ block_size / m.mm_block_size := Nat.div_pos hlarge.le hmm
      have hfewer := hleast ⟨hquotient, by omega⟩
      rw [if_pos hmultiple] at hfewer
      omega
    · rw [if_neg hmultiple, Nat.add_zero] at hcover
      omega
  · intro hsmall
    rw [Module.mmBlocks, if_neg (by omega)]
    exact ⟨⟨le_refl 1, by omega⟩, fun n hn => hn.1⟩

/-- The requests are as many as it takes to cover the block exactly for blocks no larger than a
block of main memory. -/
theorem issued_isLeast_iff (mem_map : MemMap) (m : Module) {k : ℕ} (hmm : m.mm_block_size = 2 ^ k) :
    (∀ f ∈ m.accesses, ∀ c, MovesBlock f →
      issued mem_map m f c = some (m.mmBlocks (getBlockSize mem_map f.address))) ∧
    ∀ block_size, IsLeast {n | 1 ≤ n ∧ block_size ≤ n * m.mm_block_size} (m.mmBlocks block_size) ↔
      block_size ≤ m.mm_block_size := by
  have hpos : 0 < m.mm_block_size := by
    rw [hmm]
    positivity
  exact ⟨fun f hf c => issued_eq mem_map c hf, mmBlocks_isLeast_iff hpos⟩

/-- A module with one allocation, above a memory with blocks of 64 bytes. -/
def oneAlloc (address : ℕ) : Module :=
  { Module.new (LMStore.new 64 8 8 8 1024) 2 6 1 64 with
    accesses := [Frame.new 0 address .ReadAlloc 0], next_id := 1 }

theorem issued_oneAlloc :
    (∀ f ∈ (oneAlloc 16).accesses, ∀ c, MovesBlock f → issued (fun _ => none) (oneAlloc 16) f c =
      some ((oneAlloc 16).mmBlocks (getBlockSize (fun _ => none) f.address))) ∧
    ∀ block_size, IsLeast {n | 1 ≤ n ∧ block_size ≤ n * 64} ((oneAlloc 16).mmBlocks block_size) ↔
      block_size ≤ 64 :=
  issued_isLeast_iff (fun _ => none) (oneAlloc 16) (k := 6) rfl

/-- An allocation of 128 bytes asks for three blocks of 64 bytes. -/
theorem issued_isLeast_fails :
    ¬ ∀ (mem_map : MemMap) (m : Module) (k : ℕ), m.mm_block_size = 2 ^ k →
      ∀ f ∈ m.accesses, ∀ c, MovesBlock f → ∀ n ∈ issued mem_map m f c,
        IsLeast {n | 1 ≤ n ∧ getBlockSize mem_map f.address ≤ n * m.mm_block_size} n := by
  intro h
  let mem_map : MemMap := store (fun _ => none) 16 (translated 0x74010080 (by norm_num))
  have hsize : getBlockSize mem_map 16 = 128 := by decide +kernel
  have hissued : issued mem_map (oneAlloc 16) (Frame.new 0 16 .ReadAlloc 0) ⟨0, 0⟩ = some 3 := by
    decide +kernel
  obtain ⟨-, hleast⟩ := h mem_map (oneAlloc 16) 6 rfl (Frame.new 0 16 .ReadAlloc 0)
    List.mem_cons_self ⟨0, 0⟩ (Or.inl rfl) 3 hissued
  have htwo : 3 ≤ 2 := hleast ⟨by norm_num, by
    change getBlockSize mem_map 16 ≤ 2 * 64
    rw [hsize]⟩
  omega

/-! Where the requests go. -/

inductive Neighbour
  | MainMemory
  | L1Cache
  deriving DecidableEq

/-- `Module::getLowModuleServingAddress` of a module of type LMStore. -/
def getLowModuleServingAddress (mem_map : MemMap) (address : ℕ) : Neighbour :=
  if ServesAddress mem_map address then .MainMemory else .L1Cache

/-- The assertion at the head of `read_request` and `write_request`, whose target is main memory. -/
def Routed (mem_map : MemMap) (address : ℕ) : Prop :=
  getLowModuleServingAddress mem_map address = .MainMemory

instance (mem_map : MemMap) (address : ℕ) : Decidable (Routed mem_map address) :=
  inferInstanceAs (Decidable (_ = _))

/-- Result and virtual address of a translation. -/
def translation (s : System) : Call → Option (Address × Address)
  | .TranslateVirtualAddress mmu space v => (physicalAddress s mmu space v).map fun p => (p, v)
  | _ => none

def boot : System := ⟨fun _ => none, []⟩

def translations (s : System) (run : List (Call × System)) : List (Address × Address) :=
  (transitions s run).filterMap fun x => translation x.1 x.2.1

/-- The virtual address that was translated last to a physical one, of those whose top byte is an
operation code. -/
def lastRecorded (log : List (Address × Address)) (address : ℕ) : Option Address :=
  (log.reverse.find? fun x => x.1.toNat = address ∧ 0x71 ≤ topByte x.2 ∧ topByte x.2 ≤ 0x76).map
    Prod.snd

def IsServed (v : Option Address) : Prop := ∃ w ∈ v, 0x71 ≤ topByte w ∧ topByte w ≤ 0x75

instance (v : Option Address) : Decidable (IsServed v) := Option.decidableExistsMem v

theorem routed_iff {mem_map : MemMap} {address : ℕ} :
    Routed mem_map address ↔ ServesAddress mem_map address := by
  unfold Routed getLowModuleServingAddress
  split_ifs with h <;> simp [h]

theorem lastRecorded_concat (log : List (Address × Address)) (p v : Address) (address : ℕ) :
    lastRecorded (log ++ [(p, v)]) address =
      if p.toNat = address ∧ 0x71 ≤ topByte v ∧ topByte v ≤ 0x76 then some v
      else lastRecorded log address := by
  unfold lastRecorded
  rw [List.reverse_append, List.reverse_singleton, List.singleton_append, List.find?_cons]
  split_ifs with h
  · simp [h]
  · simp [h]

/-- The map holds what was recorded last. -/
def Recorded (log : List (Address × Address)) (mem_map : MemMap) : Prop :=
  ∀ address, mem_map address = (lastRecorded log address).map Address.text

theorem Recorded.record {log : List (Address × Address)} {mem_map : MemMap}
    (h : Recorded log mem_map) (p v : Address) :
    Recorded (log ++ [(p, v)]) (record mem_map p v) := by
  intro address
  rw [lastRecorded_concat]
  by_cases hrecorded : 0x71 ≤ topByte v ∧ topByte v ≤ 0x76
  · rw [MmuTranslation.record, if_pos ((isRecorded_iff v).mpr hrecorded), store]
    by_cases haddress : address = p.toNat
    · rw [if_pos haddress, if_pos ⟨haddress.symm, hrecorded⟩, Option.map_some]
    · rw [if_neg haddress, if_neg fun hp => haddress hp.1.symm, h address]
  · rw [MmuTranslation.record, if_neg fun hp => hrecorded ((isRecorded_iff v).mp hp),
      if_neg fun hp => hrecorded hp.2, h address]

theorem Recorded.step {log : List (Address × Address)} {s t : System} {c : Call}
    (h : Recorded log s.mem_map) (hcall : Calls s c t) :
    Recorded (log ++ (translation s c).toList) t.mem_map := by
  cases c with
  | newMmu =>
    rw [← Option.some.inj hcall]
    simpa [translation] using h
  | newSpace mmu =>
    obtain ⟨m, -, hm⟩ := Option.bind_eq_some_iff.mp hcall
    rw [← Option.some.inj hm]
    simpa [translation] using h
  | TranslateVirtualAddress mmu space v =>
    obtain ⟨m, hm, htranslated⟩ := Option.bind_eq_some_iff.mp hcall
    obtain ⟨⟨mem_map, m', p⟩, htranslate, hr⟩ := Option.bind_eq_some_iff.mp htranslated
    have hresult : translation s (.TranslateVirtualAddress mmu space v) = some (p, v) := by
      simp only [translation, physicalAddress, Option.bind_eq_bind, hm, Option.bind_some,
        htranslate, Option.map_some]
    rw [hresult, ← Option.some.inj hr, (TranslateVirtualAddress_eq htranslate).2]
    exact h.record p v

theorem Recorded.run {log : List (Address × Address)} {s : System} {run : List (Call × System)}
    (h : Recorded log s.mem_map) (hrun : IsRun Calls s run) :
    Recorded (log ++ translations s run) (final s run).mem_map := by
  induction run generalizing s log with
  | nil => simpa [translations, transitions, final] using h
  | cons x run ih =>
    obtain ⟨c, t⟩ := x
    have hlog : translations s ((c, t) :: run) =
        (translation s c).toList ++ translations t run := by
      rw [translations, transitions_cons, List.filterMap_cons]
      cases translation s c <;> rfl
    rw [hlog, ← List.append_assoc, final_cons]
    exact ih (h.step hrun.1) hrun.2

/-- The requests are sent to main memory exactly when each of their addresses is the result of a
translation, and the last one recorded there is of an operation that the LMStore serves. -/
theorem routed_run_iff {run : List (Call × System)} (hrun : IsRun Calls boot run) (m : Module)
    (tag block_size : ℕ) :
    (∀ a ∈ childAddresses m tag block_size, Routed (final boot run).mem_map a) ↔
    ∀ a ∈ childAddresses m tag block_size, IsServed (lastRecorded (translations boot run) a) := by
  have hempty : Recorded [] boot.mem_map := fun _ => rfl
  have hmap := hempty.run hrun
  rw [List.nil_append] at hmap
  refine forall₂_congr fun a _ => ?_
  rw [routed_iff, ServesAddress_iff, PhyToVirt, hmap a]
  constructor
  · rintro ⟨w, hw, hoperation⟩
    obtain ⟨v, hv, rfl⟩ := Option.map_eq_some_iff.mp hw
    exact ⟨v, hv, (isOperation_iff v).mp hoperation⟩
  · rintro ⟨v, hv, hbytes⟩
    exact ⟨v.text, by rw [hv, Option.map_some], (isOperation_iff v).mpr hbytes⟩

/-- All addresses of an allocation of 128 bytes are translated, each as an operation. -/
def translatedBlock : List (Call × System) :=
  trace System.call boot [.newMmu, .newSpace 0, .TranslateVirtualAddress 0 0 0x74010080,
    .TranslateVirtualAddress 0 0 0x740100c0, .TranslateVirtualAddress 0 0 0x74010100]

theorem routed_translatedBlock : childAddresses (oneAlloc 128) 128 128 = [128, 192, 256] ∧
    ∀ a ∈ childAddresses (oneAlloc 128) 128 128, Routed (final boot translatedBlock).mem_map a := by
  refine ⟨by decide, ?_⟩
  exact (routed_run_iff (isRun_trace System.call _ _) (oneAlloc 128) 128 128).mpr
    (by decide +kernel)

/-- The allocation alone: its block goes on where no address was translated. -/
theorem routed_fails :
    ¬ ∀ run : List (Call × System), IsRun Calls boot run → ∀ (m : Module) (tag : ℕ),
      ServesAddress (final boot run).mem_map tag →
      ∀ a ∈ childAddresses m tag (getBlockSize (final boot run).mem_map tag),
        Routed (final boot run).mem_map a := by
  intro h
  let run := trace System.call boot
    [.newMmu, .newSpace 0, .TranslateVirtualAddress 0 0 0x74010080]
  have hrouted := h run (isRun_trace System.call _ _) (oneAlloc 128) 128 (by decide +kernel)
  have hsecond : ¬ Routed (final boot run).mem_map 192 := by decide +kernel
  exact hsecond (hrouted 192 (by decide +kernel))

end MMLMStore.BlockRequests
