import MMLMStore.PagedMemory

/-!
# Failed accesses

In safe mode an access stops at the first page that is not mapped or lacks a permission. By then
it has written to the pages in front, and marked them and the page at fault as modified.
-/
namespace MMLMStore.FailedAccesses

open ChunkedAccess PagedMemory

def permAt (m : Memory) (x : ℕ) : Option ℕ := (m.getPage x).map Page.perm

def Touches (a n x : ℕ) : Prop := ∃ i < n, advance Space a i / PageSize = x / PageSize

instance (a n x : ℕ) : Decidable (Touches a n x) :=
  inferInstanceAs (Decidable (∃ i, i < n ∧ _))

/-- The permission bits after an access to a range. -/
def marked (access : AccessType) (a n x perm : ℕ) : ℕ :=
  if access = .AccessWrite ∧ Touches a n x then perm ||| AccessType.AccessModified.bits else perm

def put (access : AccessType) (a : ℕ) (buffer : List Byte) (x : ℕ) : Option Byte :=
  if access.isWrite then written Space a buffer x else none

structure Accesses (access : AccessType) (m : Memory) (a : ℕ) (buffer : List Byte) (m' : Memory)
    (_ : List Byte) : Prop where
  permitted : ∀ i < buffer.length, m.Permits access (advance Space a i)
  bytes : ∀ x < Space, m'.byteAt x = (put access a buffer x).getD (m.byteAt x)
  perms : ∀ x < Space, permAt m' x = (permAt m x).map (marked access a buffer.length x)

structure Fails (access : AccessType) (m : Memory) (a : ℕ) (m' : Memory) : Prop where
  denied : ¬ m.Permits access a
  bytes : ∀ x < Space, m'.byteAt x = m.byteAt x
  perms : ∀ x < Space, permAt m' x = (permAt m x).map (marked access a 1 x)

def Same (m m' : Memory) : Prop :=
  ∀ x < Space, permAt m' x = permAt m x ∧ m'.byteAt x = m.byteAt x

section Chunks

variable {access : AccessType} {m : Memory} {a : ℕ}

theorem permits_iff {x : ℕ} : m.Permits access x ↔
    ∃ perm, permAt m x = some perm ∧ perm &&& access.bits = access.bits := by
  unfold Memory.Permits permAt
  cases m.getPage x <;> simp

theorem modified_and (haccess : access.isRead = true ∨ access.isWrite = true) (perm : ℕ) :
    (perm ||| AccessType.AccessModified.bits) &&& access.bits = perm &&& access.bits := by
  rw [Nat.and_or_distrib_right]
  cases access <;> first
    | exact Nat.or_zero _
    | exact absurd haccess (by decide)

theorem marked_and (haccess : access.isRead = true ∨ access.isWrite = true) (n x perm : ℕ) :
    marked access a n x perm &&& access.bits = perm &&& access.bits := by
  unfold marked
  split_ifs
  · exact modified_and haccess perm
  · rfl

theorem touches_add {n n' x : ℕ} :
    Touches a (n + n') x ↔ Touches a n x ∨ Touches (advance Space a n) n' x := by
  constructor
  · rintro ⟨i, hi, h⟩
    rcases lt_or_ge i n with hlt | hge
    · exact Or.inl ⟨i, hlt, h⟩
    · obtain ⟨j, rfl⟩ := Nat.exists_eq_add_of_le hge
      exact Or.inr ⟨j, by omega, by rwa [advance_advance]⟩
  · rintro (⟨i, hi, h⟩ | ⟨j, hj, h⟩)
    · exact ⟨i, by omega, h⟩
    · rw [advance_advance] at h
      exact ⟨n + j, by omega, h⟩

theorem marked_marked (n n' x perm : ℕ) :
    marked access (advance Space a n) n' x (marked access a n x perm) =
      marked access a (n + n') x perm := by
  unfold marked
  simp only [touches_add]
  by_cases hwrite : access = .AccessWrite
  · by_cases h : Touches a n x <;> by_cases h' : Touches (advance Space a n) n' x <;>
      simp [hwrite, h, h']
  · simp [hwrite]

theorem accesses_composes (haccess : access.isRead = true ∨ access.isWrite = true) :
    Composes Space (Accesses access) where
  nil m a := by
    refine ⟨fun i hi => absurd hi (Nat.not_lt_zero i), fun x hx => ?_, fun x hx => ?_⟩
    · unfold put
      split_ifs <;> rfl
    · have hnot : ¬ Touches a 0 x := fun ⟨i, hi, _⟩ => Nat.not_lt_zero i hi
      have hsame : marked access a 0 x = id := by
        funext perm
        exact if_neg fun h => hnot h.2
      rw [List.length_nil, hsame, Option.map_id]
      rfl
  append m a c m' out c' m'' out' ha hlen h h' := by
    refine ⟨fun i hi => ?_, fun x hx => ?_, fun x hx => ?_⟩
    · rcases lt_or_ge i c.length with hlt | hge
      · exact h.permitted i hlt
      · obtain ⟨j, rfl⟩ := Nat.exists_eq_add_of_le hge
        rw [List.length_append] at hi
        have hrest := h'.permitted j (by omega)
        rw [advance_advance, permits_iff, h.perms _ (advance_lt ha _)] at hrest
        obtain ⟨perm', hperm', hbits⟩ := hrest
        obtain ⟨perm, hperm, rfl⟩ := Option.map_eq_some_iff.mp hperm'
        rw [marked_and haccess] at hbits
        exact permits_iff.mpr ⟨perm, hperm, hbits⟩
    · rw [h'.bytes x hx, h.bytes x hx]
      unfold put
      split_ifs
      · rw [written_append ha hx hlen]
        cases written Space (advance Space a c.length) c' x <;> rfl
      · rfl
    · rw [h'.perms x hx, h.perms x hx, Option.map_map, List.length_append]
      refine congrArg (fun f => Option.map f (permAt m x)) (funext fun perm => ?_)
      exact marked_marked c.length c'.length x perm

theorem permAt_putPage (page : Page) (x : ℕ) : permAt (m.putPage a page) x =
    if x / PageSize = a / PageSize then some page.perm else permAt m x := by
  unfold permAt
  rw [getPage_putPage]
  split_ifs <;> rfl

theorem touches_chunk {n x : ℕ} (ha : a < Space) (hn : 0 < n)
    (hchunk : a % PageSize + n ≤ PageSize) :
    Touches a n x ↔ x / PageSize = a / PageSize := by
  have hpage : ∀ i < n, advance Space a i / PageSize = a / PageSize := by
    intro i hi
    obtain ⟨hadv, hdiv, -⟩ := advance_chunk pageSize_dvd ha hchunk hi
    rw [hadv, hdiv]
  constructor
  · rintro ⟨i, hi, h⟩
    rw [← h, hpage i hi]
  · intro h
    exact ⟨0, hn, (hpage 0 hn).trans h.symm⟩

/-- The page of a chunk when the permissions are checked. -/
def checkedPage (access : AccessType) (page : Page) : Page :=
  if access = .AccessWrite then page.addPerm AccessType.AccessModified.bits else page

theorem permAt_checked {n x : ℕ} {page page' : Page} (ha : a < Space) (hn : 0 < n)
    (hchunk : a % PageSize + n ≤ PageSize) (hpage : m.getPage a = some page)
    (hperm : page'.perm = (checkedPage access page).perm) :
    permAt (m.putPage a page') x = (permAt m x).map (marked access a n x) := by
  rw [permAt_putPage]
  by_cases hx : x / PageSize = a / PageSize
  · have hsame : permAt m x = some page.perm := by
      rw [permAt, Memory.getPage, pageTag_eq_iff.mpr hx]
      exact congrArg (Option.map Page.perm) hpage
    have htouches := (touches_chunk ha hn hchunk).mpr hx
    rw [if_pos hx, hsame, Option.map_some, hperm, checkedPage, marked]
    simp only [htouches, and_true]
    split_ifs <;> rfl
  · have hnot : marked access a n x = id := by
      funext perm
      exact if_neg fun h => hx ((touches_chunk ha hn hchunk).mp h.2)
    rw [if_neg hx, hnot, Option.map_id]
    rfl

theorem byteAt_putPage_self {page page' : Page} (hpage : m.getPage a = some page)
    (hbyte : ∀ i, page'.byte i = page.byte i) (x : ℕ) :
    (m.putPage a page').byteAt x = m.byteAt x := by
  rw [byteAt_putPage]
  split_ifs with hx
  · rw [hbyte, Memory.byteAt, Memory.getPage, pageTag_eq_iff.mpr hx]
    exact (congrArg (fun page => Option.elim page 0 fun page => page.byte (x % PageSize))
      hpage).symm
  · rfl

theorem byte_checkedPage (page : Page) (i : ℕ) :
    (checkedPage access page).byte i = page.byte i := by
  unfold checkedPage
  split_ifs <;> rfl

theorem checkedPage_and (haccess : access.isRead = true ∨ access.isWrite = true) (page : Page) :
    (checkedPage access page).perm &&& access.bits = page.perm &&& access.bits := by
  unfold checkedPage
  split_ifs
  · exact modified_and haccess page.perm
  · rfl

/-- In safe mode the permissions are checked on the page with its mark. -/
theorem accessPage_safe (hsafe : m.safe = true)
    (haccess : access.isRead = true ∨ access.isWrite = true) (page : Page) (chunk : List Byte) :
    m.AccessPage a page chunk access =
      if (checkedPage access page).perm &&& access.bits = access.bits then
        if access.isRead then
          (m.putPage a (checkedPage access page),
            .ok ((checkedPage access page).copyOut (a % PageSize) chunk.length))
        else
          (m.putPage a ((checkedPage access page).AllocateData.copyIn (a % PageSize) chunk),
            .ok chunk)
      else (m.putPage a (checkedPage access page), .error (.PermissionDenied a)) := by
  have hsafe' : ∀ page : Page, (m.putPage a page).safe = true := fun _ => hsafe
  generalize hpage : checkedPage access page = checked
  rw [checkedPage] at hpage
  simp only [Memory.AccessPage, hpage, hsafe', true_and, putPage_putPage, ne_eq, ite_not]
  split_ifs with hbits hread hwrite
  · rfl
  · rfl
  · exact absurd (haccess.resolve_left hread) hwrite
  · rfl

/-- All bytes of a chunk lie in the page of its address. -/
theorem permits_chunk {n i : ℕ} (ha : a < Space) (hchunk : a % PageSize + n ≤ PageSize)
    (hi : i < n) (h : m.Permits access a) : m.Permits access (advance Space a i) := by
  obtain ⟨hadv, hdiv, -⟩ := advance_chunk pageSize_dvd ha hchunk hi
  rw [Memory.Permits, Memory.getPage, hadv, pageTag_eq_iff.mpr hdiv]
  exact h

theorem permAt_unmapped {n : ℕ} (ha : a < Space) (hchunk : a % PageSize + n ≤ PageSize)
    (hpage : m.getPage a = none) (x : ℕ) :
    (permAt m x).map (marked access a n x) = permAt m x := by
  by_cases hx : x / PageSize = a / PageSize
  · have hnone : permAt m x = none := by
      rw [permAt, Memory.getPage, pageTag_eq_iff.mpr hx]
      exact congrArg (Option.map Page.perm) hpage
    rw [hnone]
    rfl
  · have hnot : marked access a n x = id := by
      funext perm
      refine if_neg ?_
      rintro ⟨-, i, hi, h⟩
      obtain ⟨hadv, hdiv, -⟩ := advance_chunk pageSize_dvd ha hchunk hi
      exact hx (by rw [← h, hadv, hdiv])
    rw [hnot, Option.map_id]
    rfl

/-- In safe mode a chunk is handled if its page permits it, and fails otherwise. -/
theorem accessAtPageBoundary_tries (haccess : access.isRead = true ∨ access.isWrite = true) :
    Tries Space PageSize (fun m a chunk => m.AccessAtPageBoundary a chunk access)
      (fun m => m.safe = true) (Accesses access) (Fails access) := by
  intro m a c hsafe ha hc hchunk
  have hpos := List.length_pos_iff.mpr hc
  have hone : a % PageSize + 1 ≤ PageSize := by omega
  simp only [Memory.AccessAtPageBoundary, if_pos hchunk]
  cases hpage : m.getPage a with
  | none =>
    simp only [hsafe, if_true]
    refine Or.inr ⟨m, _, rfl, ?_, fun _ _ => rfl, fun x hx => ?_⟩
    · rintro ⟨page, h, -⟩
      rw [hpage] at h
      cases h
    · exact (permAt_unmapped ha hone hpage x).symm
  | some page =>
    simp only [accessPage_safe hsafe haccess]
    have hperm := checkedPage_and haccess page
    split_ifs with hbits hread
    · refine Or.inl ⟨_, _, rfl, hsafe, fun i hi => ?_, fun x hx => ?_, fun x hx => ?_⟩
      · exact permits_chunk ha hchunk hi ⟨page, hpage, hperm.symm.trans hbits⟩
      · have hnot : access.isWrite = false := by
          cases access <;> first | rfl | exact absurd hread (by decide)
        rw [byteAt_putPage_self hpage (byte_checkedPage page), put, if_neg (by simp [hnot])]
        rfl
      · exact permAt_checked ha hpos hchunk hpage rfl
    · refine Or.inl ⟨_, _, rfl, hsafe, fun i hi => ?_, fun x hx => ?_, fun x hx => ?_⟩
      · exact permits_chunk ha hchunk hi ⟨page, hpage, hperm.symm.trans hbits⟩
      · rw [put, if_pos (haccess.resolve_left hread)]
        refine byteAt_written ha hchunk hx fun i => ?_
        rw [byte_checkedPage, hpage]
        rfl
      · exact permAt_checked ha hpos hchunk hpage rfl
    · refine Or.inr ⟨_, _, rfl, ?_, fun x hx => ?_, fun x hx => ?_⟩
      · rintro ⟨page', h, hbits'⟩
        obtain rfl : page = page' := Option.some.inj (hpage.symm.trans h)
        exact hbits (hperm.trans hbits')
      · exact byteAt_putPage_self hpage (byte_checkedPage page) x
      · exact permAt_checked ha Nat.one_pos hone hpage rfl

/-- An access that has stopped at a byte, with all bytes in front of it handled. -/
structure Stops (access : AccessType) (m : Memory) (a : ℕ) (buffer : List Byte) (k : ℕ)
    (m' : Memory) : Prop where
  permitted : ∀ i < k, m.Permits access (advance Space a i)
  denied : ¬ m.Permits access (advance Space a k)
  bytes : ∀ x < Space, m'.byteAt x = (put access a (buffer.take k) x).getD (m.byteAt x)
  perms : ∀ x < Space, permAt m' x = (permAt m x).map (marked access a (k + 1) x)

/-- An access in safe mode succeeds with all of its bytes permitted, or stops. -/
theorem access_safe (hsafe : m.safe = true)
    (haccess : access.isRead = true ∨ access.isWrite = true) (ha : a < Space) {buffer : List Byte}
    (hbuffer : buffer.length ≤ Space) :
    (∃ m' out, m.Access a buffer access = (m', .ok out) ∧
      ∀ i < buffer.length, m.Permits access (advance Space a i)) ∨
    ∃ k < buffer.length, ∃ m' e, m.Access a buffer access = (m', .error e) ∧
      Stops access m a buffer k m' := by
  rcases access_cases (s := { m with last_address := a }) pageSize_pos
    (accessAtPageBoundary_tries haccess) (accesses_composes haccess) hsafe ha hbuffer with
    ⟨m', out, hresult, -, hdone⟩ | ⟨k, hk, t, out, m', e, hdone, hfails, hresult⟩
  · exact Or.inl ⟨m', out, hresult, hdone.permitted⟩
  · have htake : (buffer.take k).length = k := by rw [List.length_take, min_eq_left hk.le]
    have hpermitted := hdone.permitted
    have hperms := hdone.perms
    rw [htake] at hpermitted hperms
    refine Or.inr ⟨k, hk, m', e, hresult, hpermitted, fun h => hfails.denied ?_, fun x hx => ?_,
      fun x hx => ?_⟩
    · obtain ⟨perm, hperm, hbits⟩ := permits_iff.mp h
      refine permits_iff.mpr ⟨marked access a k (advance Space a k) perm,
        (hperms _ (advance_lt ha k)).trans ?_, ?_⟩
      · exact congrArg (Option.map _) hperm
      · rw [marked_and haccess, hbits]
    · exact (hfails.bytes x hx).trans (hdone.bytes x hx)
    · rw [hfails.perms x hx, hperms x hx, Option.map_map]
      refine congrArg (fun f => Option.map f (permAt m x)) (funext fun perm => ?_)
      exact marked_marked k 1 x perm

/-- What a stopped access leaves as it was. -/
theorem Stops.same_iff {buffer : List Byte} {k : ℕ} {m' : Memory}
    (h : Stops access m a buffer k m') (ha : a < Space) (hk : k < buffer.length)
    (hbuffer : buffer.length ≤ Space) :
    Same m m' ↔
      (access.isWrite = true → ∀ i < k, buffer[i]? = some (m.byteAt (advance Space a i))) ∧
      (access = .AccessWrite → ∀ i ≤ k, ∀ perm, permAt m (advance Space a i) = some perm →
        perm ||| AccessType.AccessModified.bits = perm) := by
  constructor
  · refine fun hsame => ⟨fun hwrite i hi => ?_, fun hwrite i hi perm hperm => ?_⟩
    · have hi' : i < buffer.length := hi.trans hk
      have hbyte := (h.bytes _ (advance_lt ha i)).symm.trans (hsame _ (advance_lt ha i)).2
      rw [put, if_pos hwrite, written, distance_advance ha (hi'.trans_le hbuffer),
        List.getElem?_take_of_lt hi, List.getElem?_eq_getElem hi', Option.getD_some] at hbyte
      rw [List.getElem?_eq_getElem hi', hbyte]
    · have hmarked := (h.perms _ (advance_lt ha i)).symm.trans (hsame _ (advance_lt ha i)).1
      have htouches : Touches a (k + 1) (advance Space a i) := ⟨i, Nat.lt_succ_of_le hi, rfl⟩
      rw [hperm, Option.map_some, marked, if_pos ⟨hwrite, htouches⟩] at hmarked
      exact Option.some.inj hmarked
  · rintro ⟨hbytes, hmarks⟩ x hx
    constructor
    · rw [h.perms x hx]
      cases hperm : permAt m x with
      | none => rfl
      | some perm =>
        rw [Option.map_some, marked]
        split_ifs with hif
        · obtain ⟨hwrite, i, hi, hpage⟩ := hif
          refine congrArg some (hmarks hwrite i (Nat.le_of_lt_succ hi) perm ?_)
          rw [permAt, Memory.getPage, pageTag_eq_iff.mpr hpage]
          exact hperm
        · rfl
    · rw [h.bytes x hx]
      cases hput : put access a (buffer.take k) x with
      | none => rfl
      | some b =>
        unfold put at hput
        split_ifs at hput with hwrite
        have hlen : (buffer.take k).length ≤ Space := (List.length_take_le' k buffer).trans hbuffer
        obtain ⟨i, rfl, hget⟩ := (written_eq_some_iff ha hx hlen).mp hput
        have hi : i < k := by
          have hlt := (List.getElem?_eq_some_iff.mp hget).1
          rw [List.length_take] at hlt
          omega
        rw [List.getElem?_take_of_lt hi, hbytes hwrite i hi] at hget
        exact (Option.some.inj hget).symm

end Chunks

/-! Calls. -/

def accessOf : Call → AccessType
  | .Read _ _ => .AccessRead
  | .Write _ _ => .AccessWrite
  | .Init _ _ => .AccessInit

def bufferOf : Call → List Byte
  | .Read _ size => List.replicate size 0
  | .Write _ buffer => buffer
  | .Init _ buffer => buffer

theorem call_eq (m : Memory) (c : Call) :
    m.call c = m.Access c.address (bufferOf c) (accessOf c) := by
  cases c <;> rfl

theorem accessOf_spec (c : Call) : (accessOf c).isRead = true ∨ (accessOf c).isWrite = true := by
  cases c with
  | Read address size => exact Or.inl rfl
  | Write address buffer => exact Or.inr rfl
  | Init address buffer => exact Or.inr rfl

theorem length_bufferOf (c : Call) : (bufferOf c).length = c.size := by
  cases c <;> first | rfl | exact List.length_replicate

def KeptOnFailure (m : Memory) (c : Call) : Prop :=
  ∀ m' e, m.call c = (m', .error e) → Same m m'

/-- If some byte is the first that is not permitted, a write finds the bytes in front of it in
memory already, and `Write` finds its pages marked. -/
def Harmless (m : Memory) (c : Call) : Prop :=
  ∀ k < c.size, (∀ i < k, m.Permits (accessOf c) (advance Space c.address i)) →
    ¬ m.Permits (accessOf c) (advance Space c.address k) →
    ((accessOf c).isWrite = true →
      ∀ i < k, (bufferOf c)[i]? = some (m.byteAt (advance Space c.address i))) ∧
    (accessOf c = .AccessWrite →
      ∀ i ≤ k, ∀ perm, permAt m (advance Space c.address i) = some perm →
        perm ||| AccessType.AccessModified.bits = perm)

/-- A failed call changes nothing exactly if it is harmless. -/
theorem keptOnFailure_iff {m : Memory} {c : Call} (hsafe : m.safe = true) (hc : c.Valid) :
    KeptOnFailure m c ↔ Harmless m c := by
  have hlen : (bufferOf c).length ≤ Space := (length_bufferOf c).trans_le hc.2.le
  have hcases := access_safe hsafe (accessOf_spec c) hc.1 hlen
  rw [← call_eq, length_bufferOf] at hcases
  rcases hcases with ⟨m', out, hresult, hpermitted⟩ | ⟨k, hk, m', e, hresult, hstops⟩
  · refine iff_of_true (fun m'' e h => ?_) fun k hk _ hdenied => ?_
    · rw [hresult] at h
      cases h
    · exact absurd (hpermitted k hk) hdenied
  · have hsame := hstops.same_iff hc.1 ((length_bufferOf c).symm ▸ hk) hlen
    constructor
    · intro h j hj hpermitted hdenied
      -- there is only one first byte that is not permitted
      obtain rfl : j = k := by
        rcases lt_trichotomy j k with hlt | heq | hlt
        · exact absurd (hstops.permitted j hlt) hdenied
        · exact heq
        · exact absurd (hpermitted k hlt) hstops.denied
      exact hsame.mp (h m' e hresult)
    · intro h m'' e' hresult'
      obtain ⟨rfl, -⟩ := Prod.mk.inj (hresult.symm.trans hresult')
      exact hsame.mpr (h k hk hstops.permitted hstops.denied)

def onePage : Memory := (Memory.new true).putPage 0x1000 ⟨3, none⟩

theorem keptOnFailure_onePage : KeptOnFailure onePage (.Read 0x1fff 2) :=
  (keptOnFailure_iff rfl (by decide)).mpr fun _ _ _ _ =>
    ⟨fun h => absurd h (by decide), fun h => absurd h (by decide)⟩

/-- The byte in the mapped page is written before the other one fails. -/
theorem keptOnFailure_fails :
    ¬ ∀ (m : Memory) (c : Call), m.safe = true → c.Valid → KeptOnFailure m c := by
  intro h
  have hresult : onePage.call (.Write 0x1fff [7, 8]) =
      ((onePage.call (.Write 0x1fff [7, 8])).1, .error (.SegmentationFault 0x2000)) := by rfl
  have hsame := (h onePage (.Write 0x1fff [7, 8]) rfl (by decide) _ _ hresult 0x1fff (by decide)).2
  exact absurd hsame (by decide)

end MMLMStore.FailedAccesses
