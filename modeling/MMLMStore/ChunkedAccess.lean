import Mathlib

/-!
# Accesses in chunks to a circular address space

An access to a range of addresses is cut at the boundaries of blocks of a fixed size, and the
addresses wrap around at the size of the space. A relation that every chunk satisfies, and that
composes along adjacent chunks, holds of the whole access. Two such relations describe reads and
writes by the bytes that the addresses hold.
-/
namespace MMLMStore.ChunkedAccess

variable {S E B : Type*}

def advance (space a n : ℕ) : ℕ := (a + n) % space

def distance (space a x : ℕ) : ℕ := if a ≤ x then x - a else x + space - a

theorem advance_eq {space a n : ℕ} (ha : a < space) (hn : n ≤ space) :
    advance space a n = if a + n < space then a + n else a + n - space := by
  unfold advance
  split_ifs with h
  · exact Nat.mod_eq_of_lt h
  · rw [Nat.mod_eq_sub_mod (by omega), Nat.mod_eq_of_lt (by omega)]

theorem advance_lt {space a : ℕ} (ha : a < space) (n : ℕ) : advance space a n < space :=
  Nat.mod_lt _ (by omega)

theorem distance_lt {space a x : ℕ} (ha : a < space) (hx : x < space) :
    distance space a x < space := by
  unfold distance
  split_ifs <;> omega

theorem advance_distance {space a x : ℕ} (ha : a < space) (hx : x < space) :
    advance space a (distance space a x) = x := by
  rw [advance_eq ha (distance_lt ha hx).le]
  unfold distance
  split_ifs <;> omega

theorem distance_advance {space a i : ℕ} (ha : a < space) (hi : i < space) :
    distance space a (advance space a i) = i := by
  rw [advance_eq ha hi.le]
  unfold distance
  split_ifs <;> omega

theorem advance_inj {space a i j : ℕ} (ha : a < space) (hi : i < space) (hj : j < space)
    (h : advance space a i = advance space a j) : i = j := by
  rw [← distance_advance ha hi, h, distance_advance ha hj]

theorem advance_advance {space a n i : ℕ} :
    advance space (advance space a n) i = advance space a (n + i) := by
  unfold advance
  rw [Nat.mod_add_mod, Nat.add_assoc]

/-! The loop. -/

/-- Bytes in the first chunk of an access. -/
def chunkSize (block a size : ℕ) : ℕ := min size (block - a % block)

theorem chunkSize_pos {block a size : ℕ} (hblock : 0 < block) (hsize : 0 < size) :
    0 < chunkSize block a size := by
  have hmod := Nat.mod_lt a hblock
  unfold chunkSize
  omega

theorem chunkSize_le (block a size : ℕ) : chunkSize block a size ≤ size := min_le_left _ _

theorem mod_add_chunkSize_le {block : ℕ} (hblock : 0 < block) (a size : ℕ) :
    a % block + chunkSize block a size ≤ block := by
  have hmod := Nat.mod_lt a hblock
  unfold chunkSize
  omega

/-- Rounds of the loop; each returns what its chunk of the buffer holds afterwards. The loop stops
at the first failure. -/
def rounds (space block : ℕ) (f : S → ℕ → List B → S × Except E (List B)) :
    ℕ → S → ℕ → List B → S × Except E (List B)
  | 0, s, _, _ => (s, .ok [])
  | fuel + 1, s, a, buffer =>
    if buffer = [] then (s, .ok [])
    else
      let n := chunkSize block a buffer.length
      let (s', out) := f s a (buffer.take n)
      match out with
      | .error e => (s', .error e)
      | .ok out =>
        let (s'', rest) := rounds space block f fuel s' (advance space a n) (buffer.drop n)
        (s'', rest.map (out ++ ·))

/-- Every round handles at least one byte. -/
def access (space block : ℕ) (f : S → ℕ → List B → S × Except E (List B)) (s : S) (a : ℕ)
    (buffer : List B) : S × Except E (List B) :=
  rounds space block f buffer.length s a buffer

/-- The chunks that the rounds handle, with their addresses. -/
def roundChunks (space block : ℕ) : ℕ → ℕ → List B → List (ℕ × List B)
  | 0, _, _ => []
  | fuel + 1, a, buffer =>
    if buffer = [] then []
    else
      let n := chunkSize block a buffer.length
      (a, buffer.take n) :: roundChunks space block fuel (advance space a n) (buffer.drop n)

def chunks (space block a : ℕ) (buffer : List B) : List (ℕ × List B) :=
  roundChunks space block buffer.length a buffer

variable {space block : ℕ} {f : S → ℕ → List B → S × Except E (List B)} {I : S → Prop}
  {R : S → ℕ → List B → S → List B → Prop}

/-- From a good state a chunk within one block succeeds, and a relation of the state and the buffer
before to those after holds. -/
def Handles (space block : ℕ) (f : S → ℕ → List B → S × Except E (List B)) (I : S → Prop)
    (R : S → ℕ → List B → S → List B → Prop) : Prop :=
  ∀ s a c, I s → a < space → c ≠ [] → a % block + c.length ≤ block →
    ∃ s' out, f s a c = (s', .ok out) ∧ I s' ∧ R s a c s' out

def Chain (R : S → ℕ → List B → S → List B → Prop) : S → List (ℕ × List B) → S → List B → Prop
  | s, [], s', out => s' = s ∧ out = []
  | s, (a, c) :: cs, s', out =>
    ∃ t first rest, R s a c t first ∧ Chain R t cs s' rest ∧ out = first ++ rest

theorem rounds_chain (hblock : 0 < block) (hf : Handles space block f I R)
    {fuel : ℕ} {s : S} {a : ℕ} {buffer : List B} (hs : I s) (ha : a < space)
    (hfuel : buffer.length ≤ fuel) :
    ∃ s' out, rounds space block f fuel s a buffer = (s', .ok out) ∧ I s' ∧
      Chain R s (roundChunks space block fuel a buffer) s' out := by
  induction fuel generalizing s a buffer with
  | zero => exact ⟨s, [], rfl, hs, rfl, rfl⟩
  | succ fuel ih =>
    by_cases hnil : buffer = []
    · subst hnil
      exact ⟨s, [], by simp [rounds], hs, by simp [roundChunks, Chain]⟩
    · have hpos := chunkSize_pos (a := a) hblock (List.length_pos_iff.mpr hnil)
      have htake : (buffer.take (chunkSize block a buffer.length)).length =
          chunkSize block a buffer.length := by
        rw [List.length_take, min_eq_left (chunkSize_le block a _)]
      -- the first chunk, then the rest from where it ends
      obtain ⟨t, first, hfirst, ht, hR⟩ := hf s a (buffer.take (chunkSize block a buffer.length))
        hs ha (by rw [← List.length_pos_iff, htake]; exact hpos)
        (by rw [htake]; exact mod_add_chunkSize_le hblock a _)
      have hdrop : (buffer.drop (chunkSize block a buffer.length)).length ≤ fuel := by
        rw [List.length_drop]
        omega
      obtain ⟨s', rest, hrest, hs', hchain⟩ := ih (s := t)
        (a := advance space a (chunkSize block a buffer.length)) ht (advance_lt ha _) hdrop
      refine ⟨s', first ++ rest, ?_, hs', ?_⟩
      · simp only [rounds, if_neg hnil, hfirst, hrest]
        rfl
      · simp only [roundChunks, if_neg hnil]
        exact ⟨t, first, rest, hR, hchain, rfl⟩

theorem access_chain (hblock : 0 < block) (hf : Handles space block f I R) (buffer : List B)
    {s : S} {a : ℕ} (hs : I s) (ha : a < space) :
    ∃ s' out, access space block f s a buffer = (s', .ok out) ∧ I s' ∧
      Chain R s (chunks space block a buffer) s' out :=
  rounds_chain hblock hf hs ha le_rfl

structure Composes (space : ℕ) (R : S → ℕ → List B → S → List B → Prop) : Prop where
  nil : ∀ s a, R s a [] s []
  append : ∀ s a c s' out c' s'' out', a < space → c.length + c'.length ≤ space →
    R s a c s' out → R s' (advance space a c.length) c' s'' out' →
    R s a (c ++ c') s'' (out ++ out')

theorem Chain.compose (hR : Composes space R) {fuel : ℕ} {s s' : S} {a : ℕ} {buffer out : List B}
    (hblock : 0 < block) (ha : a < space) (hbuffer : buffer.length ≤ space)
    (hfuel : buffer.length ≤ fuel) (h : Chain R s (roundChunks space block fuel a buffer) s' out) :
    R s a buffer s' out := by
  induction fuel generalizing s a buffer out with
  | zero =>
    obtain rfl := List.length_eq_zero_iff.mp (Nat.le_zero.mp hfuel)
    obtain ⟨rfl, rfl⟩ := h
    exact hR.nil _ a
  | succ fuel ih =>
    by_cases hnil : buffer = []
    · subst hnil
      obtain ⟨rfl, rfl⟩ : s' = s ∧ out = [] := by simpa [roundChunks, Chain] using h
      exact hR.nil _ a
    · simp only [roundChunks, if_neg hnil] at h
      obtain ⟨t, first, rest, hfirst, hchain, rfl⟩ := h
      have hpos := chunkSize_pos (a := a) hblock (List.length_pos_iff.mpr hnil)
      have hle := chunkSize_le block a buffer.length
      have htake : (buffer.take (chunkSize block a buffer.length)).length =
          chunkSize block a buffer.length := by
        rw [List.length_take, min_eq_left hle]
      have hdrop : (buffer.drop (chunkSize block a buffer.length)).length =
          buffer.length - chunkSize block a buffer.length := List.length_drop
      have hrest := ih (advance_lt ha _) (by omega) (by omega) hchain
      have hjoin := hR.append s a _ t first (buffer.drop (chunkSize block a buffer.length)) s' rest
        ha (by omega) hfirst (by rw [htake]; exact hrest)
      rwa [List.take_append_drop] at hjoin

theorem access_spec (hblock : 0 < block) (hf : Handles space block f I R) (hR : Composes space R)
    {s : S} {a : ℕ} {buffer : List B} (hs : I s) (ha : a < space)
    (hbuffer : buffer.length ≤ space) :
    ∃ s' out, access space block f s a buffer = (s', .ok out) ∧ I s' ∧ R s a buffer s' out := by
  obtain ⟨s', out, hout, hs', hchain⟩ := access_chain hblock hf buffer hs ha
  exact ⟨s', out, hout, hs', hchain.compose hR hblock ha hbuffer le_rfl⟩

/-- From a good state a chunk within one block succeeds, as for `Handles`, or fails with a relation
of the state before and its address to the state after. -/
def Tries (space block : ℕ) (f : S → ℕ → List B → S × Except E (List B)) (I : S → Prop)
    (R : S → ℕ → List B → S → List B → Prop) (F : S → ℕ → S → Prop) : Prop :=
  ∀ s a c, I s → a < space → c ≠ [] → a % block + c.length ≤ block →
    (∃ s' out, f s a c = (s', .ok out) ∧ I s' ∧ R s a c s' out) ∨
      ∃ s' e, f s a c = (s', .error e) ∧ F s a s'

theorem rounds_cases {F : S → ℕ → S → Prop} (hblock : 0 < block) (hf : Tries space block f I R F)
    (hR : Composes space R) {fuel : ℕ} {s : S} {a : ℕ} {buffer : List B} (hs : I s)
    (ha : a < space) (hbuffer : buffer.length ≤ space) (hfuel : buffer.length ≤ fuel) :
    (∃ s' out, rounds space block f fuel s a buffer = (s', .ok out) ∧ I s' ∧
      R s a buffer s' out) ∨
    ∃ k < buffer.length, ∃ t out s' e, R s a (buffer.take k) t out ∧
      F t (advance space a k) s' ∧ rounds space block f fuel s a buffer = (s', .error e) := by
  induction fuel generalizing s a buffer with
  | zero =>
    obtain rfl := List.length_eq_zero_iff.mp (Nat.le_zero.mp hfuel)
    exact Or.inl ⟨s, [], rfl, hs, hR.nil s a⟩
  | succ fuel ih =>
    by_cases hnil : buffer = []
    · subst hnil
      exact Or.inl ⟨s, [], by simp [rounds], hs, hR.nil s a⟩
    · have hlen := List.length_pos_iff.mpr hnil
      have hpos := chunkSize_pos (a := a) hblock hlen
      have hle := chunkSize_le block a buffer.length
      have hin := mod_add_chunkSize_le hblock a buffer.length
      generalize hn : chunkSize block a buffer.length = n at hpos hle hin
      have htake : (buffer.take n).length = n := by rw [List.length_take, min_eq_left hle]
      have hdrop : (buffer.drop n).length = buffer.length - n := List.length_drop
      rcases hf s a (buffer.take n) hs ha (by rw [← List.length_pos_iff, htake]; exact hpos)
        (by rw [htake]; exact hin) with ⟨t, first, hfirst, ht, hRfirst⟩ | ⟨s', e, hfirst, hF⟩
      · -- the rest succeeds after the first chunk, or fails some bytes further
        have hjoin : ∀ c s' out, n + c.length ≤ space → R t (advance space a n) c s' out →
            R s a (buffer.take n ++ c) s' (first ++ out) := by
          intro c s' out hc hrest
          exact hR.append s a _ t first c s' out ha (by rw [htake]; exact hc) hRfirst
            (by rw [htake]; exact hrest)
        have hspace : (buffer.drop n).length ≤ space := by omega
        rcases ih ht (advance_lt ha n) hspace (by omega) with
          ⟨s', rest, hrest, hs', hRrest⟩ | ⟨k, hk, u, out, s', e, hRrest, hF, hrest⟩
        · refine Or.inl ⟨s', first ++ rest, ?_, hs', ?_⟩
          · simp only [rounds, if_neg hnil, hn, hfirst, hrest]
            rfl
          · have hall := hjoin _ s' rest (by omega) hRrest
            rwa [List.take_append_drop] at hall
        · have hshort : ((buffer.drop n).take k).length = k := by
            rw [List.length_take, min_eq_left hk.le]
          refine Or.inr ⟨n + k, by omega, u, first ++ out, s', e, ?_, ?_, ?_⟩
          · rw [List.take_add]
            exact hjoin _ u out (by omega) hRrest
          · rw [← advance_advance]
            exact hF
          · simp only [rounds, if_neg hnil, hn, hfirst, hrest]
            rfl
      · refine Or.inr ⟨0, hlen, s, [], s', e, hR.nil s a, ?_, ?_⟩
        · rw [advance, Nat.add_zero, Nat.mod_eq_of_lt ha]
          exact hF
        · simp only [rounds, if_neg hnil, hn, hfirst]

/-- An access succeeds, or fails at some byte after all bytes in front of it. -/
theorem access_cases {F : S → ℕ → S → Prop} (hblock : 0 < block) (hf : Tries space block f I R F)
    (hR : Composes space R) {s : S} {a : ℕ} {buffer : List B} (hs : I s) (ha : a < space)
    (hbuffer : buffer.length ≤ space) :
    (∃ s' out, access space block f s a buffer = (s', .ok out) ∧ I s' ∧ R s a buffer s' out) ∨
    ∃ k < buffer.length, ∃ t out s' e, R s a (buffer.take k) t out ∧
      F t (advance space a k) s' ∧ access space block f s a buffer = (s', .error e) :=
  rounds_cases hblock hf hR hs ha hbuffer le_rfl

/-! Reads and writes. -/

/-- The byte that a write to a range puts at an address. -/
def written (space a : ℕ) (bytes : List B) (x : ℕ) : Option B := bytes[distance space a x]?

theorem written_eq_some_iff {a x : ℕ} {bytes : List B} {b : B} (ha : a < space) (hx : x < space)
    (hbytes : bytes.length ≤ space) :
    written space a bytes x = some b ↔ ∃ i, advance space a i = x ∧ bytes[i]? = some b := by
  constructor
  · intro h
    exact ⟨distance space a x, advance_distance ha hx, h⟩
  · rintro ⟨i, rfl, hb⟩
    have hi : i < space := ((List.getElem?_eq_some_iff.mp hb).1).trans_le hbytes
    rwa [written, distance_advance ha hi]

theorem written_append {a x : ℕ} {bytes bytes' : List B} (ha : a < space) (hx : x < space)
    (hlen : bytes.length + bytes'.length ≤ space) :
    written space a (bytes ++ bytes') x =
      (written space (advance space a bytes.length) bytes' x).or (written space a bytes x) := by
  have hadv := advance_eq ha (show bytes.length ≤ space by omega)
  unfold written
  by_cases hd : distance space a x < bytes.length
  · -- the rest starts beyond, and is too short to come round
    have hout : bytes'.length ≤ distance space (advance space a bytes.length) x := by
      unfold distance at *
      split_ifs at * <;> omega
    rw [List.getElem?_append_left hd, List.getElem?_eq_none hout, Option.none_or]
  · have hrest : distance space (advance space a bytes.length) x =
        distance space a x - bytes.length := by
      unfold distance at *
      split_ifs at * <;> omega
    rw [List.getElem?_append_right (by omega), hrest,
      List.getElem?_eq_none (show bytes.length ≤ distance space a x by omega), Option.or_none]

/-! Ranges within one block. -/

theorem chunk_le_space {a n : ℕ} (hdvd : block ∣ space) (ha : a < space)
    (hn : a % block + n ≤ block) : a + n ≤ space := by
  obtain ⟨k, rfl⟩ := hdvd
  have hquot : a / block + 1 ≤ k := Nat.div_lt_of_lt_mul ha
  have hend := Nat.mul_le_mul_left block hquot
  have hsplit := Nat.div_add_mod a block
  rw [Nat.mul_add, Nat.mul_one] at hend
  omega

theorem advance_chunk {a n i : ℕ} (hdvd : block ∣ space) (ha : a < space)
    (hn : a % block + n ≤ block) (hi : i < n) :
    advance space a i = a + i ∧ (a + i) / block = a / block ∧ (a + i) % block = a % block + i := by
  refine ⟨Nat.mod_eq_of_lt ?_, (Nat.div_mod_unique (by omega)).mpr ⟨?_, by omega⟩⟩
  · have hle := chunk_le_space hdvd ha hn
    omega
  · have hsplit := Nat.mod_add_div a block
    omega

theorem written_chunk {a x : ℕ} {bytes : List B} (hdvd : block ∣ space) (ha : a < space)
    (hx : x < space) (hc : a % block + bytes.length ≤ block) :
    written space a bytes x =
      if x / block = a / block ∧ a % block ≤ x % block then bytes[x % block - a % block]?
      else none := by
  by_cases hin : distance space a x < bytes.length
  · -- the range is met where the block of its start has the address
    obtain ⟨hadv, hdiv, hmod⟩ := advance_chunk hdvd ha hc hin
    rw [advance_distance ha hx] at hadv
    rw [← hadv] at hdiv hmod
    rw [if_pos ⟨hdiv, by omega⟩, written]
    congr 1
    omega
  · rw [written, List.getElem?_eq_none (by omega)]
    split_ifs with hblock
    · have hsplit := Nat.div_add_mod x block
      have hsplit' := Nat.div_add_mod a block
      rw [hblock.1] at hsplit
      refine (List.getElem?_eq_none ?_).symm
      unfold distance at hin
      split_ifs at hin <;> omega
    · rfl

/-- The last of the values that the elements of a list give. -/
theorem getLast?_filterMap_concat {α : Type*} (g : α → Option B) (l : List α) (x : α) :
    ((l ++ [x]).filterMap g).getLast? = (g x).or (l.filterMap g).getLast? := by
  rw [List.filterMap_append]
  cases hx : g x with
  | none =>
    rw [List.filterMap_cons_none hx, List.filterMap_nil, List.append_nil, Option.none_or]
  | some b =>
    rw [List.filterMap_cons_some hx, List.filterMap_nil, List.getLast?_concat, Option.some_or]

/-- The buffer receives the bytes of its range, which all stay as they are. -/
def Reads (space : ℕ) (byteAt : S → ℕ → B) (s : S) (a : ℕ) (buffer : List B) (s' : S)
    (out : List B) : Prop :=
  out = (List.range buffer.length).map (fun i => byteAt s (advance space a i)) ∧
    ∀ x < space, byteAt s' x = byteAt s x

theorem reads_composes (byteAt : S → ℕ → B) : Composes space (Reads space byteAt) where
  nil _ _ := ⟨rfl, fun _ _ => rfl⟩
  append s a c s' out c' s'' out' ha _ h h' := by
    refine ⟨?_, fun x hx => (h'.2 x hx).trans (h.2 x hx)⟩
    rw [h.1, h'.1, List.length_append, List.range_add, List.map_append, List.map_map]
    congr 1
    refine List.map_congr_left fun i _ => ?_
    rw [h.2 _ (advance_lt (advance_lt ha _) i), advance_advance]
    rfl

/-- The range receives the bytes of the buffer, and all other bytes stay as they are. -/
def Writes (space : ℕ) (byteAt : S → ℕ → B) (s : S) (a : ℕ) (buffer : List B) (s' : S)
    (_ : List B) : Prop :=
  ∀ x < space, byteAt s' x = (written space a buffer x).getD (byteAt s x)

theorem writes_composes (byteAt : S → ℕ → B) : Composes space (Writes space byteAt) where
  nil _ _ _ _ := rfl
  append s a c s' out c' s'' out' ha hlen h h' x hx := by
    rw [h' x hx, h x hx, written_append ha hx hlen]
    cases written space (advance space a c.length) c' x <;> rfl

/-- A range receives the bytes of another one, and all other bytes stay as they are. -/
structure Moves (space : ℕ) (byteAt : S → ℕ → B) (s s' : S) (dest src size : ℕ) : Prop where
  inside : ∀ i < size, byteAt s' (advance space dest i) = byteAt s (advance space src i)
  outside : ∀ x < space, (∀ i < size, advance space dest i ≠ x) → byteAt s' x = byteAt s x

theorem Moves.nil (byteAt : S → ℕ → B) (s : S) (dest src : ℕ) :
    Moves space byteAt s s dest src 0 :=
  ⟨fun i hi => absurd hi (Nat.not_lt_zero i), fun _ _ _ => rfl⟩

/-- Adjacent ranges are moved one after the other if the source does not meet the destination. -/
theorem Moves.append {byteAt : S → ℕ → B} {s t s' : S} {dest src n n' : ℕ} (hdest : dest < space)
    (hsrc : src < space) (hsize : n + n' ≤ space)
    (hapart : ∀ i < n, ∀ j < n + n', advance space dest i ≠ advance space src j)
    (h : Moves space byteAt s t dest src n)
    (h' : Moves space byteAt t s' (advance space dest n) (advance space src n) n') :
    Moves space byteAt s s' dest src (n + n') := by
  refine ⟨fun i hi => ?_, fun x hx hrange => ?_⟩
  · rcases lt_or_ge i n with hlt | hge
    · rw [h'.outside _ (advance_lt hdest i), h.inside i hlt]
      intro j hj heq
      rw [advance_advance] at heq
      have hsame := advance_inj hdest (by omega) (by omega) heq
      omega
    · obtain ⟨j, rfl⟩ := Nat.exists_eq_add_of_le hge
      have hmoved := h'.inside j (by omega)
      rw [advance_advance, advance_advance] at hmoved
      rw [hmoved, h.outside _ (advance_lt hsrc _) fun k hk => hapart k hk _ hi]
  · rw [h'.outside x hx, h.outside x hx fun i hi => hrange i (by omega)]
    intro j hj
    rw [advance_advance]
    exact hrange _ (by omega)

end MMLMStore.ChunkedAccess
