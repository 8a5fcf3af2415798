import MMLMStore.BlockRequests
import MMLMStore.LMStoreWriteback

/-!
# Errors of the requests for one block

All requests of an access share the error flag of its frame. A request that fails sets the flag, and
every request clears it when it is sent, once more each time that the network was busy.
-/
namespace MMLMStore.ReadRequestErrors
open BlockRequests LMStoreDecode LMStoreEvents LMStoreOrder LMStoreTables LMStoreTurns
open LMStoreWriteback StepRuns

/-- Next event of a request: `calling` to send it, `sent` until main memory has found and locked
its block, `returning` to go back to the access. -/
inductive RequestStatus
  | calling
  | sent
  | returning
  deriving DecidableEq

structure Request where
  /-- Id of the access that has called it. -/
  parent : ℕ
  address : ℕ
  status : RequestStatus
  deriving DecidableEq

/-- An LMStore module and the requests it has with main memory. -/
structure Exchange where
  module : Module
  requests : List Request
  log : List Effect
  deriving DecidableEq

inductive Move
  /-- Any step of the module but a reply. -/
  | own (a : Action)
  /-- Event `read_request`; the network may be busy, then the event comes again. -/
  | read_request (k : ℕ) (busy : Bool)
  /-- Event `read_request_action`, with the error of find-and-lock, or a later one on a miss. -/
  | read_request_action (k : ℕ) (error : Bool)
  /-- Event `read_request_finish`, which returns to the process event of the access. -/
  | read_request_finish (k : ℕ) (c : Choice)
  deriving DecidableEq

def setError (m : Module) (id : ℕ) (error : Bool) : Module :=
  { m with accesses := m.accesses.map fun f => if f.id = id then { f with error := error } else f }

def called (mem_map : MemMap) (m : Module) (f : Frame) : List Request :=
  if f.status.event = .action ∧ MovesBlock f then
    (childAddresses m f.address (getBlockSize mem_map f.address)).map fun a => ⟨f.id, a, .calling⟩
  else []

def calledBy (mem_map : MemMap) (m : Module) : Action → List Request
  | .process id _ => (m.accesses.find? (·.id = id)).elim [] (called mem_map m)
  | _ => []

def Exchange.next (mem_map : MemMap) (x : Exchange) : Move → Option Exchange
  | .own (.reply _ _ _) => none
  | .own a => do
    let (m, e) ← step mem_map x.module a
    some ⟨m, x.requests ++ calledBy mem_map x.module a, x.log ++ e.toList⟩
  | .read_request k busy => do
    let r ← x.requests[k]?
    if r.status ≠ .calling then none
    else some { x with
      module := setError x.module r.parent false
      requests := if busy then x.requests else x.requests.set k { r with status := .sent } }
  | .read_request_action k error => do
    let r ← x.requests[k]?
    if r.status ≠ .sent then none
    else some { x with
      module := if error then setError x.module r.parent true else x.module
      requests := x.requests.set k { r with status := .returning } }
  | .read_request_finish k c => do
    let r ← x.requests[k]?
    if r.status ≠ .returning then none
    else
      let f ← x.module.accesses.find? (·.id = r.parent)
      let (m, e) ← handle mem_map x.module f .process c
      some ⟨m, x.requests.eraseIdx k, x.log ++ e.toList⟩

def Steps (mem_map : MemMap) (x : Exchange) (a : Move) (y : Exchange) : Prop :=
  x.next mem_map a = some y

/-- What happens to the error flag of an access. -/
inductive RoundEvent
  | cleared
  | failed
  deriving DecidableEq

/-- For each access, what its requests have done since it called them. -/
abbrev Rounds := ℕ → List RoundEvent

def Rounds.add (g : Rounds) (id : ℕ) (events : List RoundEvent) : Rounds :=
  Function.update g id (g id ++ events)

def note (g : Rounds) (x : Exchange) : Move → Exchange → Rounds
  | .own (.process id _), _ =>
    -- a new round starts at the action event
    if (x.module.accesses.find? (·.id = id)).any (·.status.event = .action) then
      Function.update g id [] else g
  | .own _, _ => g
  | .read_request k _, _ => (x.requests[k]?).elim g fun r => g.add r.parent [.cleared]
  | .read_request_action k error, _ =>
    (x.requests[k]?).elim g fun r => if error then g.add r.parent [.failed] else g
  | .read_request_finish _ _, _ => g

/-- Read allocations that a move brings to their last process event. -/
def completed (x : Exchange) : Move → List Frame
  | .read_request_finish k _ => (x.requests[k]?).elim [] fun r =>
    x.module.accesses.filter fun f => f.id = r.parent ∧ f.access_type = .ReadAlloc ∧ f.pending = 1
  | _ => []

/-- With a failed request in the round the allocation goes back to its lock event, and the tables
stay as they are. -/
def RetriesAfterError (g : Rounds) (x : Exchange) (a : Move) (y : Exchange) : Prop :=
  ∀ f ∈ completed x a, .failed ∈ g f.id →
    y.log = x.log ∧ y.module.lmstore = x.module.lmstore ∧
      ∃ f' ∈ y.module.accesses, f'.id = f.id ∧ f'.status.event = .lock

/-- No request of the round is sent after the last one that failed. -/
def FailsLast (g : Rounds) (x : Exchange) (a : Move) : Prop :=
  ∀ f ∈ completed x a, .failed ∈ g f.id → (g f.id).getLast? = some .failed

instance (g : Rounds) (x : Exchange) (a : Move) (y : Exchange) :
    Decidable (RetriesAfterError g x a y) :=
  inferInstanceAs (Decidable (∀ f ∈ completed x a, _))

instance (g : Rounds) (x : Exchange) (a : Move) : Decidable (FailsLast g x a) :=
  inferInstanceAs (Decidable (∀ f ∈ completed x a, _))

/-! What requests and replies keep. -/

structure Waits (g : Rounds) (requests : List Request) (f : Frame) : Prop where
  count : requests.countP (·.parent = f.id) = if f.status = .awaiting then f.pending else 0
  error : f.status = .awaiting → ∀ e ∈ (g f.id).getLast?, f.error = decide (e = .failed)

structure Tracks (g : Rounds) (x : Exchange) : Prop where
  ascending : Ascending x.module
  parents : ∀ r ∈ x.requests, r.parent ∈ x.module.accesses.map Frame.id
  cleared : ∀ r ∈ x.requests, r.status ≠ .calling → .cleared ∈ g r.parent
  waits : ∀ f ∈ x.module.accesses, Waits g x.requests f

theorem Waits.congr {g g' : Rounds} {requests requests' : List Request} {f : Frame}
    (h : Waits g requests f)
    (hcount : requests'.countP (·.parent = f.id) = requests.countP (·.parent = f.id))
    (hg : g' f.id = g f.id) : Waits g' requests' f where
  count := hcount.trans h.count
  error := by
    rw [hg]
    exact h.error

theorem Waits.wakeup {g : Rounds} {requests : List Request} {f : Frame} (h : Waits g requests f)
    (time : ℕ) : Waits g requests (f.wakeup time) where
  count := by
    simp only [Frame.wakeup, Status.wakeup_eq_awaiting]
    exact h.count
  error := by
    simp only [Frame.wakeup, Status.wakeup_eq_awaiting]
    exact h.error

theorem ascending_congr {m m' : Module} (h : Ascending m)
    (hids : m'.accesses.map Frame.id = m.accesses.map Frame.id) (hnext : m'.next_id = m.next_id) :
    Ascending m' := by
  have hlt : ∀ id ∈ m.accesses.map Frame.id, id < m.next_id := by
    intro id hid
    obtain ⟨f, hf, rfl⟩ := List.mem_map.mp hid
    exact h.2 f hf
  constructor
  · have hpairwise : (m.accesses.map Frame.id).Pairwise (· < ·) := List.pairwise_map.mpr h.1
    exact List.pairwise_map.mp (hids ▸ hpairwise)
  · intro f hf
    rw [hnext]
    exact hlt f.id (hids ▸ List.mem_map_of_mem hf)

/-- What the process event of an access does: it waits on, retries or completes. -/
inductive Processed (m : Module) (f : Frame) : Module → Option Effect → Prop
  | waits (hmore : f.pending - 1 ≠ 0) :
      Processed m f (m.put { f with pending := f.pending - 1 }) none
  | retries (time : ℕ) (hlast : f.pending - 1 = 0) (herror : f.error = true) :
      Processed m f
        (m.put { f with pending := f.pending - 1, status := .scheduled .lock time }) none
  | completes (time : ℕ) (lmstore : LMStore) (op : Operation) (hlast : f.pending - 1 = 0)
      (herror : f.error = false) :
      Processed m f ({ m with lmstore := lmstore }.put
        { f with pending := f.pending - 1, status := .scheduled .unlock time })
        (some ⟨f.id, f.address, op⟩)

theorem processed_of_handle {mem_map : MemMap} {m m' : Module} {f : Frame} {c : Choice}
    {e : Option Effect} (h : handle mem_map m f .process c = some (m', e)) :
    Processed m f m' e := by
  have hblock : ∀ {call : Option (Bool × LMStore)} {op : Operation},
      (if f.pending - 1 ≠ 0 then some (m.put { f with pending := f.pending - 1 }, none)
        else if f.error then
          some (m.Next { f with pending := f.pending - 1 } .lock (m.getRetryLatency c), none)
        else call.bind fun x =>
          some ({ m with lmstore := x.2 }.Next { f with pending := f.pending - 1 } .unlock 0,
            some ⟨f.id, f.address, op⟩)) = some (m', e) → Processed m f m' e := by
    intro call op hblock
    split_ifs at hblock with hlast herror
    · cases hblock
      exact .waits hlast
    · cases hblock
      exact .retries _ (not_not.mp hlast) herror
    · obtain ⟨⟨hit, lmstore⟩, -, hr⟩ := Option.bind_eq_some_iff.mp hblock
      cases hr
      exact .completes _ lmstore op (not_not.mp hlast) (by simpa using herror)
  cases htype : f.access_type <;> simp only [handle, htype] at h
  case Load => cases h
  case Store => cases h
  all_goals exact hblock h

theorem map_parent_set {requests : List Request} {k : ℕ} {r r' : Request}
    (hr : requests[k]? = some r) (hparent : r'.parent = r.parent) :
    (requests.set k r').map Request.parent = requests.map Request.parent := by
  rw [List.map_set, hparent]
  refine List.ext_getElem? fun i => ?_
  rw [List.getElem?_set]
  split_ifs with hi hlt
  · subst hi
    simp [hr]
  · subst hi
    rw [List.getElem?_eq_none (by omega)]
  · rfl

theorem count_set {requests : List Request} {k : ℕ} {r r' : Request}
    (hr : requests[k]? = some r) (hparent : r'.parent = r.parent) (id : ℕ) :
    (requests.set k r').countP (·.parent = id) = requests.countP (·.parent = id) := by
  have hcount : ∀ l : List Request, l.countP (·.parent = id) =
      (l.map Request.parent).countP (· = id) := fun l => by rw [List.countP_map]; rfl
  rw [hcount, hcount, map_parent_set hr hparent]

theorem count_eraseIdx {requests : List Request} {k : ℕ} {r : Request}
    (hr : requests[k]? = some r) (id : ℕ) : requests.countP (·.parent = id) =
      (requests.eraseIdx k).countP (·.parent = id) + if r.parent = id then 1 else 0 := by
  obtain ⟨hlt, hget⟩ := List.getElem?_eq_some_iff.mp hr
  have hperm := List.getElem_cons_eraseIdx_perm hlt
  rw [← hperm.countP_eq, List.countP_cons, hget]
  simp

theorem map_id_setError (m : Module) (id : ℕ) (error : Bool) :
    (setError m id error).accesses.map Frame.id = m.accesses.map Frame.id := by
  rw [setError, List.map_map]
  refine List.map_congr_left fun f _ => ?_
  rw [Function.comp_apply]
  split_ifs <;> rfl

theorem Rounds.add_self (g : Rounds) (id : ℕ) (events : List RoundEvent) :
    g.add id events id = g id ++ events := Function.update_self id _ g

theorem Rounds.add_of_ne (g : Rounds) {id id' : ℕ} (events : List RoundEvent) (h : id' ≠ id) :
    g.add id events id' = g id' := Function.update_of_ne h _ g

namespace Tracks

variable {g : Rounds} {x : Exchange}

theorem set (h : Tracks g x) {k : ℕ} {r r' : Request} (hr : x.requests[k]? = some r)
    (hparent : r'.parent = r.parent) (hcleared : r'.status ≠ .calling → .cleared ∈ g r.parent) :
    Tracks g { x with requests := x.requests.set k r' } where
  ascending := h.ascending
  parents := by
    intro q hq
    rcases List.mem_or_eq_of_mem_set hq with hq | rfl
    · exact h.parents q hq
    · rw [hparent]
      exact h.parents r (List.mem_of_getElem? hr)
  cleared := by
    intro q hq hstatus
    rcases List.mem_or_eq_of_mem_set hq with hq | rfl
    · exact h.cleared q hq hstatus
    · rw [hparent]
      exact hcleared hstatus
  waits := fun f hf => (h.waits f hf).congr (count_set hr hparent f.id) rfl

theorem flag (h : Tracks g x) (id : ℕ) (e : RoundEvent) :
    Tracks (g.add id [e]) { x with module := setError x.module id (decide (e = .failed)) } where
  ascending := ascending_congr h.ascending (map_id_setError _ _ _) rfl
  parents := by
    intro r hr
    rw [map_id_setError]
    exact h.parents r hr
  cleared := by
    intro r hr hstatus
    have hbefore := h.cleared r hr hstatus
    by_cases hid : r.parent = id
    · rw [hid, Rounds.add_self]
      rw [hid] at hbefore
      exact List.mem_append_left _ hbefore
    · rwa [Rounds.add_of_ne g _ hid]
  waits := by
    intro f' hf'
    obtain ⟨f, hf, rfl⟩ := List.mem_map.mp hf'
    have hwaits := h.waits f hf
    by_cases hid : f.id = id
    · rw [if_pos hid]
      refine ⟨hwaits.count, fun _ e' he' => ?_⟩
      change e' ∈ (g.add id [e] f.id).getLast? at he'
      rw [hid, Rounds.add_self, List.getLast?_concat, Option.mem_some_iff] at he'
      rw [he']
    · rw [if_neg hid]
      exact hwaits.congr rfl (Rounds.add_of_ne g _ hid)

theorem awaiting (h : Tracks g x) {k : ℕ} {r : Request} (hr : x.requests[k]? = some r) {f : Frame}
    (hf : f ∈ x.module.accesses) (hid : f.id = r.parent) :
    f.status = .awaiting ∧ x.requests.countP (·.parent = f.id) = f.pending := by
  have hpos : 0 < x.requests.countP (·.parent = f.id) :=
    List.countP_pos_iff.mpr ⟨r, List.mem_of_getElem? hr, by simp [hid]⟩
  have hcount := (h.waits f hf).count
  split_ifs at hcount with hawaiting
  · exact ⟨hawaiting, hcount⟩
  · omega

theorem no_request (h : Tracks g x) {f : Frame} (hf : f ∈ x.module.accesses)
    (hbefore : f.status ≠ .awaiting) : ∀ r ∈ x.requests, r.parent ≠ f.id := by
  have hcount := (h.waits f hf).count
  rw [if_neg hbefore] at hcount
  intro r hr hid
  exact absurd hcount (List.countP_pos_iff.mpr ⟨r, hr, by simpa using hid⟩).ne'

theorem append (h : Tracks g x) {m : Module} {f : Frame} (hasc : Ascending m)
    (haccesses : m.accesses = x.module.accesses ++ [f]) (hid : f.id = x.module.next_id)
    (hstatus : f.status ≠ .awaiting) (log : List Effect) : Tracks g ⟨m, x.requests, log⟩ := by
  refine ⟨hasc, fun r hr => ?_, h.cleared, fun v hv => ?_⟩
  · rw [haccesses, List.map_append]
    exact List.mem_append_left _ (h.parents r hr)
  · rw [haccesses] at hv
    rcases List.mem_append.mp hv with hv | hv
    · exact h.waits v hv
    · obtain rfl := List.mem_singleton.mp hv
      refine ⟨?_, fun hawaiting => absurd hawaiting hstatus⟩
      rw [if_neg hstatus]
      refine List.countP_eq_zero.mpr fun r hr => ?_
      obtain ⟨u, hu, hparent⟩ := List.mem_map.mp (h.parents r hr)
      have hlt := h.ascending.2 u hu
      simp only [decide_eq_true_eq]
      omega

theorem finish (h : Tracks g x) {k : ℕ} {r : Request} (hr : x.requests[k]? = some r) {f : Frame}
    (hf : f ∈ x.module.accesses) (hid : f.id = r.parent) {m : Module} {e : Option Effect}
    (hprocessed : Processed x.module f m e) (log : List Effect) :
    Tracks g ⟨m, x.requests.eraseIdx k, log⟩ := by
  obtain ⟨hawaiting, hpending⟩ := h.awaiting hr hf hid
  have herased := count_eraseIdx hr f.id
  rw [if_pos hid.symm] at herased
  have hput : ∀ (m₀ : Module) (f' : Frame), m₀.accesses = x.module.accesses →
      m₀.next_id = x.module.next_id → f'.id = f.id →
      Waits g (x.requests.eraseIdx k) f' → Tracks g ⟨m₀.put f', x.requests.eraseIdx k, log⟩ := by
    intro m₀ f' haccesses hnext hid' hwaits
    have hothers := Others.put (f := f) m₀ hid'
    have hids : (m₀.put f').accesses.map Frame.id = x.module.accesses.map Frame.id := by
      rw [hothers.ids, haccesses]
    refine ⟨ascending_congr h.ascending hids (hothers.next_id.trans hnext), fun q hq => ?_,
      fun q hq => h.cleared q (List.mem_of_mem_eraseIdx hq), fun u hu => ?_⟩
    · rw [hids]
      exact h.parents q (List.mem_of_mem_eraseIdx hq)
    · rcases hothers.frames u hu with rfl | ⟨v, hv, hne, hsame⟩
      · exact hwaits
      · rw [haccesses] at hv
        have hother := count_eraseIdx hr v.id
        rw [if_neg (by rw [← hid]; exact hne.symm), Nat.add_zero] at hother
        have hkept := (h.waits v hv).congr hother.symm rfl
        rcases hsame with rfl | rfl
        · exact hkept
        · exact hkept.wakeup _
  cases hprocessed with
  | waits hmore =>
    refine hput _ _ rfl rfl rfl ⟨?_, (h.waits f hf).error⟩
    change _ = if f.status = .awaiting then f.pending - 1 else 0
    rw [if_pos hawaiting]
    change (x.requests.eraseIdx k).countP (·.parent = f.id) = f.pending - 1
    omega
  | retries time hlast herror =>
    refine hput _ _ rfl rfl rfl ⟨?_, nofun⟩
    change (x.requests.eraseIdx k).countP (·.parent = f.id) = 0
    omega
  | completes time lmstore op hlast herror =>
    refine hput _ _ rfl rfl rfl ⟨?_, nofun⟩
    change (x.requests.eraseIdx k).countP (·.parent = f.id) = 0
    omega

end Tracks

/-- Only the action event of a moved block makes an access wait for memory. -/
theorem calls_of_turn {mem_map : MemMap} {m : Module} {f f' : Frame} {c : Choice}
    {lmstore : LMStore} {e : Option Effect} (h : Turn mem_map m f c f' lmstore e)
    (hstatus : f'.status = .awaiting) (hbefore : f.status ≠ .awaiting) :
    f.status.event = .action ∧ MovesBlock f := by
  cases h with
  | request pending hevent htype => exact ⟨hevent, htype⟩
  | replied => exact absurd hstatus hbefore
  | lockPort status hevent hport hawaiting => exact absurd hstatus hawaiting
  | _ => cases hstatus

theorem mem_ids_of_turned {mem_map : MemMap} {m m' : Module} {f : Frame} {c : Choice}
    {e : Option Effect} (h : Turned mem_map m f c (m', e)) {id : ℕ}
    (hid : id ∈ m.accesses.map Frame.id) (hne : id ≠ f.id) : id ∈ m'.accesses.map Frame.id := by
  rcases h with ⟨-, hr⟩ | ⟨f', -, hothers⟩
  · obtain rfl : m' = m.FinishAccess f := congrArg Prod.fst hr
    obtain ⟨v, hv, rfl⟩ := List.mem_map.mp hid
    have hkept : v ∈ m.accesses.filter (·.id ≠ f.id) := List.mem_filter.mpr ⟨hv, by simpa using hne⟩
    refine List.mem_map.mpr ⟨_, List.mem_map_of_mem hkept, ?_⟩
    split_ifs <;> rfl
  · rw [hothers.ids]
    exact hid

section Called

variable {mem_map : MemMap} {m : Module} {f : Frame}

theorem mem_called {r : Request} (hr : r ∈ called mem_map m f) :
    r.parent = f.id ∧ r.status = .calling := by
  unfold called at hr
  split_ifs at hr
  · obtain ⟨a, -, rfl⟩ := List.mem_map.mp hr
    exact ⟨rfl, rfl⟩
  · cases hr

theorem count_called (hcalls : f.status.event = .action ∧ MovesBlock f) :
    (called mem_map m f).countP (·.parent = f.id) =
      m.mmBlocks (getBlockSize mem_map f.address) := by
  have hall : (called mem_map m f).countP (·.parent = f.id) = (called mem_map m f).length :=
    List.countP_eq_length.mpr fun r hr => by simpa using (mem_called hr).1
  rw [hall, called, if_pos hcalls, List.length_map, length_childAddresses]

theorem count_called_of_ne {id : ℕ} (hne : id ≠ f.id) :
    (called mem_map m f).countP (·.parent = id) = 0 :=
  List.countP_eq_zero.mpr fun r hr => by simpa [(mem_called hr).1] using hne.symm

end Called

/-- An event of an access itself; one that calls requests starts a round. -/
theorem Tracks.turn {mem_map : MemMap} {g : Rounds} {x : Exchange} (h : Tracks g x) {f : Frame}
    {c : Choice} {m : Module} {e : Option Effect} (hf : f ∈ x.module.accesses)
    (hbefore : f.status ≠ .awaiting) (hasc : Ascending m)
    (hhandle : handle mem_map x.module f f.status.event c = some (m, e)) (log : List Effect) :
    Tracks (if f.status.event = .action then Function.update g f.id [] else g)
      ⟨m, x.requests ++ called mem_map x.module f, log⟩ := by
  have hcount := (h.waits f hf).count
  rw [if_neg hbefore] at hcount
  have hnone := h.no_request hf hbefore
  have hother : ∀ id, id ≠ f.id →
      (if f.status.event = .action then Function.update g f.id [] else g) id = g id := by
    intro id hid
    split_ifs
    · exact Function.update_of_ne hid _ g
    · rfl
  by_cases hcalls : f.status.event = .action ∧ MovesBlock f
  · rw [hcalls.1, handle_movesBlock mem_map x.module c hcalls.2] at hhandle
    cases hhandle
    have hothers : Others x.module f _ (x.module.put { f with
        pending := x.module.mmBlocks (getBlockSize mem_map f.address), status := .awaiting }) :=
      Others.put x.module rfl
    refine ⟨hasc, fun r hr => ?_, fun r hr hstatus => ?_, fun u hu => ?_⟩
    · rw [hothers.ids]
      rcases List.mem_append.mp hr with hr | hr
      · exact h.parents r hr
      · rw [(mem_called hr).1]
        exact List.mem_map_of_mem hf
    · rcases List.mem_append.mp hr with hr | hr
      · rw [hother _ (hnone r hr)]
        exact h.cleared r hr hstatus
      · exact absurd (mem_called hr).2 hstatus
    · rcases hothers.frames u hu with rfl | ⟨v, hv, hne, hsame⟩
      · refine ⟨?_, fun _ e' he' => ?_⟩
        · change (x.requests ++ called mem_map x.module f).countP (·.parent = f.id) =
            x.module.mmBlocks (getBlockSize mem_map f.address)
          rw [List.countP_append, hcount, count_called hcalls, Nat.zero_add]
        · change e' ∈ ((if f.status.event = .action then Function.update g f.id [] else g)
            f.id).getLast? at he'
          rw [if_pos hcalls.1, Function.update_self] at he'
          cases he'
      · have hkept : Waits _ (x.requests ++ called mem_map x.module f) v :=
          (h.waits v hv).congr
            (by rw [List.countP_append, count_called_of_ne hne, Nat.add_zero]) (hother v.id hne)
        rcases hsame with rfl | rfl
        · exact hkept
        · exact hkept.wakeup _
  · rw [called, if_neg hcalls, List.append_nil]
    have hturned := handle_turned hhandle
    refine ⟨hasc, fun r hr => mem_ids_of_turned hturned (h.parents r hr) (hnone r hr),
      fun r hr hstatus => ?_, ?_⟩
    · rw [hother _ (hnone r hr)]
      exact h.cleared r hr hstatus
    · refine hturned.forall_frames (fun v hv hne => ?_) fun f' hturn => ?_
      · have hkept : Waits _ x.requests v := (h.waits v hv).congr rfl (hother v.id hne)
        exact ⟨hkept, hkept.wakeup _⟩
      · have hafter : f'.status ≠ .awaiting := fun hstatus =>
          hcalls (calls_of_turn hturn hstatus hbefore)
        refine ⟨?_, fun hstatus => absurd hstatus hafter⟩
        rw [if_neg hafter, hturn.id]
        exact hcount

theorem tracks_step {mem_map : MemMap} {g : Rounds} {x y : Exchange} {a : Move}
    (h : Tracks g x) (hstep : Steps mem_map x a y) : Tracks (note g x a y) y := by
  cases a with
  | own a =>
    cases a with
    | reply id error c => cases hstep
    | access store address =>
      obtain ⟨⟨m, e⟩, hr, hy⟩ := Option.bind_eq_some_iff.mp hstep
      have hasc := ascending_step h.ascending hr
      obtain ⟨m₁, haccess, hm⟩ := Option.map_eq_some_iff.mp hr
      obtain ⟨-, hm₁⟩ := Option.ite_none_right_eq_some.mp haccess
      cases hm₁
      cases hm
      cases hy
      change Tracks g ⟨_, x.requests ++ [], _⟩
      rw [List.append_nil]
      refine h.append hasc rfl rfl (fun hawaiting => ?_) _
      cases hawaiting
    | tick =>
      obtain ⟨⟨m, e⟩, hr, hy⟩ := Option.bind_eq_some_iff.mp hstep
      simp only [step] at hr
      split_ifs at hr
      cases hr
      cases hy
      change Tracks g ⟨_, x.requests ++ [], _⟩
      rw [List.append_nil]
      exact ⟨ascending_congr h.ascending rfl rfl, h.parents, h.cleared, h.waits⟩
    | process id c =>
      obtain ⟨⟨m, e⟩, hr, hy⟩ := Option.bind_eq_some_iff.mp hstep
      have hasc := ascending_step h.ascending hr
      obtain ⟨f, hfind, hhandle⟩ := Option.bind_eq_some_iff.mp hr
      split_ifs at hhandle with hdue
      obtain rfl : f.id = id := by simpa using List.find?_some hfind
      have hbefore : f.status ≠ .awaiting := by
        intro hawaiting
        rw [hawaiting] at hdue
        cases hdue
      cases hy
      have hturn := h.turn (List.mem_of_find?_eq_some hfind) hbefore hasc hhandle
        (x.log ++ e.toList)
      simpa [note, calledBy, hfind] using hturn
  | read_request k busy =>
    obtain ⟨r, hr, hy⟩ := Option.bind_eq_some_iff.mp hstep
    obtain ⟨-, hy⟩ := Option.ite_none_left_eq_some.mp hy
    cases hy
    have hflag := h.flag r.parent .cleared
    have hnote : ∀ y, note g x (.read_request k busy) y = g.add r.parent [.cleared] := by
      simp [note, hr]
    rw [hnote]
    cases busy with
    | true => exact hflag
    | false =>
      refine hflag.set hr rfl fun _ => ?_
      rw [Rounds.add_self]
      exact List.mem_append_right _ List.mem_cons_self
  | read_request_action k error =>
    obtain ⟨r, hr, hy⟩ := Option.bind_eq_some_iff.mp hstep
    obtain ⟨hstatus, hy⟩ := Option.ite_none_left_eq_some.mp hy
    have hsent : r.status ≠ .calling := by
      rw [not_not.mp hstatus]
      intro hcalling
      cases hcalling
    have hcleared := h.cleared r (List.mem_of_getElem? hr) hsent
    cases hy
    cases error with
    | true =>
      have hnote : ∀ y, note g x (.read_request_action k true) y = g.add r.parent [.failed] := by
        simp [note, hr]
      rw [hnote]
      refine (h.flag r.parent .failed).set hr rfl fun _ => ?_
      rw [Rounds.add_self]
      exact List.mem_append_left _ hcleared
    | false =>
      have hnote : ∀ y, note g x (.read_request_action k false) y = g := by simp [note, hr]
      rw [hnote]
      exact h.set hr rfl fun _ => hcleared
  | read_request_finish k c =>
    obtain ⟨r, hr, hy⟩ := Option.bind_eq_some_iff.mp hstep
    split_ifs at hy with hstatus
    obtain ⟨f, hfind, hfinish⟩ := Option.bind_eq_some_iff.mp hy
    obtain ⟨⟨m, e⟩, hhandle, hy⟩ := Option.bind_eq_some_iff.mp hfinish
    cases hy
    exact h.finish hr (List.mem_of_find?_eq_some hfind) (by simpa using List.find?_some hfind)
      (processed_of_handle hhandle) _

/-- At its last process event an allocation with a failed request retries exactly when no request
was sent after the failure. -/
theorem retriesAfterError_step_iff {mem_map : MemMap} {g : Rounds} {x y : Exchange} {a : Move}
    (h : Tracks g x) (hstep : Steps mem_map x a y) :
    RetriesAfterError g x a y ↔ FailsLast g x a := by
  refine forall₂_congr fun f hf => imp_congr_right fun hfailed => ?_
  cases a with
  | own a => cases hf
  | read_request k busy => cases hf
  | read_request_action k error => cases hf
  | read_request_finish k c =>
    obtain ⟨r, hr, hy⟩ := Option.bind_eq_some_iff.mp hstep
    split_ifs at hy with hstatus
    obtain ⟨f', hfind, hfinish⟩ := Option.bind_eq_some_iff.mp hy
    obtain ⟨⟨m, e⟩, hhandle, hy⟩ := Option.bind_eq_some_iff.mp hfinish
    cases hy
    rw [completed, hr, Option.elim_some] at hf
    obtain ⟨hmem, hf⟩ := List.mem_filter.mp hf
    simp only [decide_eq_true_eq] at hf
    obtain ⟨hid, -, hpending⟩ := hf
    -- the frame that the request returns to is this one
    obtain rfl : f' = f := by
      rw [← hid, find?_of_ascending h.ascending hmem] at hfind
      exact (Option.some.inj hfind).symm
    obtain ⟨hawaiting, -⟩ := h.awaiting hr hmem hid
    obtain ⟨last, hlast⟩ : ∃ last, (g f'.id).getLast? = some last :=
      Option.isSome_iff_exists.mp (List.getLast?_isSome.mpr (List.ne_nil_of_mem hfailed))
    have herror : f'.error = decide (last = .failed) :=
      (h.waits f' hmem).error hawaiting last hlast
    rw [hlast, Option.some.injEq]
    cases processed_of_handle hhandle with
    | waits hmore => omega
    | retries time hzero hset =>
      rw [hset] at herror
      refine ⟨fun _ => by simpa using herror.symm, fun _ => ⟨List.append_nil _, rfl,
        { f' with pending := f'.pending - 1, status := .scheduled .lock time }, ?_, rfl, rfl⟩⟩
      exact List.mem_map.mpr ⟨f', hmem, if_pos rfl⟩
    | completes time lmstore op hzero hclear =>
      rw [hclear] at herror
      constructor
      · rintro ⟨hlog, -⟩
        simp at hlog
      · intro hfail
        simp [hfail] at herror

def Exchange.new (lmstore : LMStore) (num_ports log_block_size data_latency mm_block_size : ℕ) :
    Exchange :=
  ⟨Module.new lmstore num_ports log_block_size data_latency mm_block_size, [], []⟩

theorem tracks_new (lmstore : LMStore)
    (num_ports log_block_size data_latency mm_block_size : ℕ) :
    Tracks (fun _ => []) (.new lmstore num_ports log_block_size data_latency mm_block_size) where
  ascending := ascending_new _ _ _ _ _
  parents := by simp [Exchange.new]
  cleared := by simp [Exchange.new]
  waits := by simp [Exchange.new, Module.new]

theorem retriesAfterError_iff (mem_map : MemMap) (lmstore : LMStore)
    (num_ports log_block_size data_latency mm_block_size : ℕ) {run : List (Move × Exchange)}
    (hrun : IsRun (Steps mem_map)
      (.new lmstore num_ports log_block_size data_latency mm_block_size) run) :
    ∀ x ∈ ghosts note (fun _ => [])
      (.new lmstore num_ports log_block_size data_latency mm_block_size) run,
      RetriesAfterError x.1 x.2.1 x.2.2.1 x.2.2.2 ↔ FailsLast x.1 x.2.1 x.2.2.1 := by
  intro x hx
  obtain ⟨htracks, hstep⟩ := ghosts_invariant (f := note) (R := Tracks)
    (fun _ _ _ _ h hstep => tracks_step h hstep) hrun (tracks_new _ _ _ _ _) x hx
  exact retriesAfterError_step_iff htracks hstep

/-- An allocation of 144 bytes, for which two blocks of 64 bytes are read. -/
def twoReads : MemMap
  | 0x0090 => some (translated 0x74010090 (by norm_num))
  | _ => none

def idle : Exchange := .new (LMStore.new 64 8 8 8 1024) 2 6 1 64

def issueReads : List Move :=
  [.own (.access false 0x0090), .own (.process 0 ⟨0, 0⟩), .own (.process 0 ⟨0, 0⟩)]

/-- Both requests are sent at once; the second finds its block locked. -/
def sentAtOnce : List (Move × Exchange) :=
  trace (Exchange.next twoReads) idle (issueReads ++
    [.read_request 0 false, .read_request 1 false, .read_request_action 0 false,
      .read_request_action 1 true, .read_request_finish 0 ⟨0, 0⟩, .read_request_finish 0 ⟨0, 0⟩])

theorem retriesAfterError_sentAtOnce : sentAtOnce.length = 9 ∧
    ∀ x ∈ ghosts note (fun _ => []) idle sentAtOnce,
      RetriesAfterError x.1 x.2.1 x.2.2.1 x.2.2.2 := by
  refine ⟨by decide +kernel, fun x hx => ?_⟩
  have hlast : ∀ x ∈ ghosts note (fun _ => []) idle sentAtOnce, FailsLast x.1 x.2.1 x.2.2.1 := by
    decide +kernel
  exact (retriesAfterError_iff twoReads (LMStore.new 64 8 8 8 1024) 2 6 1 64
    (isRun_trace (Exchange.next twoReads) idle _) x hx).mpr (hlast x hx)

/-- The network is busy for the second request, which is sent after the first has failed. -/
def sentLate : List (Move × Exchange) :=
  trace (Exchange.next twoReads) idle (issueReads ++
    [.read_request 0 false, .read_request 1 true, .read_request_action 0 true,
      .read_request 1 false, .read_request_action 1 false, .read_request_finish 0 ⟨0, 0⟩,
      .read_request_finish 0 ⟨0, 0⟩])

/-- The block is allocated although a request for it has failed. -/
theorem retriesAfterError_fails :
    ¬ ∀ (mem_map : MemMap) (lmstore : LMStore)
      (num_ports log_block_size data_latency mm_block_size : ℕ) (run : List (Move × Exchange)),
      IsRun (Steps mem_map)
        (.new lmstore num_ports log_block_size data_latency mm_block_size) run →
      ∀ x ∈ ghosts note (fun _ => [])
        (.new lmstore num_ports log_block_size data_latency mm_block_size) run,
        RetriesAfterError x.1 x.2.1 x.2.2.1 x.2.2.2 := by
  intro h
  have hretries := h twoReads (LMStore.new 64 8 8 8 1024) 2 6 1 64 sentLate
    (isRun_trace (Exchange.next twoReads) idle _)
  have hallocated : ¬ ∀ x ∈ ghosts note (fun _ => []) idle sentLate,
      RetriesAfterError x.1 x.2.1 x.2.2.1 x.2.2.2 := by decide +kernel
  exact hallocated hretries

end MMLMStore.ReadRequestErrors
