import Mathlib

/-!
# Hexadecimal text

Formatting and scanning of hexadecimal numbers as lists of characters: variable-width
and zero-padded output, the scanner that reads the leading hexadecimal digits, and the
fixed-width form through which padded fields are concatenated and read back.
-/
namespace MMLMStore.HexText

abbrev Text := List Char

/-- Lower-case digits without leading zeros, as an output stream in base sixteen prints them. -/
def hexText (n : ℕ) : Text := Nat.toDigits 16 n

/-- Left-pad with zeros up to a minimum width; longer texts are kept whole. -/
def padLeft (width : ℕ) (t : Text) : Text := List.replicate (width - t.length) '0' ++ t

def hexValue (c : Char) : Option ℕ :=
  if '0' ≤ c ∧ c ≤ '9' then some (c.toNat - 48)
  else if 'a' ≤ c ∧ c ≤ 'f' then some (c.toNat - 87)
  else if 'A' ≤ c ∧ c ≤ 'F' then some (c.toNat - 55)
  else none

def readHexFrom (acc : ℕ) : Text → ℕ
  | [] => acc
  | c :: cs =>
    match hexValue c with
    | some d => readHexFrom (16 * acc + d) cs
    | none => acc

/-- Value of the longest prefix of hexadecimal digits, zero when there is none. -/
def readHex (t : Text) : ℕ := readHexFrom 0 t

/-- The `width` low digits of a number, leading zeros included. -/
def fixedHex : ℕ → ℕ → Text
  | 0, _ => []
  | width + 1, n => fixedHex width (n / 16) ++ [Nat.digitChar (n % 16)]

def IsHex (t : Text) : Prop := ∀ c ∈ t, (hexValue c).isSome

instance (t : Text) : Decidable (IsHex t) := inferInstanceAs (Decidable (∀ c ∈ t, _))

theorem hexValue_digitChar {d : ℕ} (hd : d < 16) : hexValue (Nat.digitChar d) = some d := by
  interval_cases d <;> decide

theorem readHexFrom_append (acc : ℕ) {t : Text} (ht : IsHex t) (u : Text) :
    readHexFrom acc (t ++ u) = readHexFrom (readHexFrom acc t) u := by
  induction t generalizing acc with
  | nil => rfl
  | cons c cs ih =>
    obtain ⟨d, hd⟩ := Option.isSome_iff_exists.mp (ht c (by simp))
    have hcs : IsHex cs := fun e he => ht e (by simp [he])
    simp only [List.cons_append, readHexFrom, hd, ih _ hcs]

@[simp] theorem length_fixedHex (width n : ℕ) : (fixedHex width n).length = width := by
  induction width generalizing n with
  | zero => rfl
  | succ width ih => simp [fixedHex, ih]

theorem isHex_append {t u : Text} (ht : IsHex t) (hu : IsHex u) : IsHex (t ++ u) := by
  intro c hc
  rcases List.mem_append.mp hc with hc | hc
  · exact ht c hc
  · exact hu c hc

theorem isHex_digit {d : ℕ} (hd : d < 16) : IsHex [Nat.digitChar d] := by
  intro c hc
  rw [List.mem_singleton.mp hc, hexValue_digitChar hd]
  rfl

theorem isHex_fixedHex (width n : ℕ) : IsHex (fixedHex width n) := by
  induction width generalizing n with
  | zero => simp [fixedHex, IsHex]
  | succ width ih => exact isHex_append (ih _) (isHex_digit (Nat.mod_lt _ (by norm_num)))

theorem isHex_hexText (n : ℕ) : IsHex (hexText n) := by
  induction n using Nat.strong_induction_on with
  | _ n ih =>
    unfold hexText
    by_cases hn : n < 16
    · rw [Nat.toDigits_of_lt_base hn]
      exact isHex_digit hn
    · rw [Nat.toDigits_of_base_le (by norm_num) (by omega)]
      exact isHex_append (ih _ (by omega)) (isHex_digit (Nat.mod_lt _ (by norm_num)))

theorem le_readHexFrom (acc : ℕ) {t : Text} (ht : IsHex t) :
    acc * 16 ^ t.length ≤ readHexFrom acc t := by
  induction t generalizing acc with
  | nil => simp [readHexFrom]
  | cons c cs ih =>
    obtain ⟨d, hd⟩ := Option.isSome_iff_exists.mp (ht c (by simp))
    have hi := ih (16 * acc + d) fun e he => ht e (by simp [he])
    simp only [readHexFrom, hd, List.length_cons, pow_succ]
    calc acc * (16 ^ cs.length * 16) = 16 * acc * 16 ^ cs.length := by ring
      _ ≤ (16 * acc + d) * 16 ^ cs.length := Nat.mul_le_mul_right _ (Nat.le_add_right _ _)
      _ ≤ _ := hi

theorem readHexFrom_digit (acc : ℕ) {d : ℕ} (hd : d < 16) :
    readHexFrom acc [Nat.digitChar d] = 16 * acc + d := by
  simp [readHexFrom, hexValue_digitChar hd]

/-- A fixed-width field that the number fits in is read back as that number. -/
theorem readHex_fixedHex {width n : ℕ} (hn : n < 16 ^ width) :
    readHex (fixedHex width n) = n := by
  induction width generalizing n with
  | zero => simp only [pow_zero, Nat.lt_one_iff] at hn; subst n; rfl
  | succ width ih =>
    have hdiv : n / 16 < 16 ^ width := by
      rw [pow_succ] at hn
      omega
    have hi := ih hdiv
    unfold readHex at hi ⊢
    rw [fixedHex, readHexFrom_append _ (isHex_fixedHex _ _), hi,
      readHexFrom_digit _ (Nat.mod_lt _ (by norm_num))]
    omega

theorem fixedHex_inj {width a b : ℕ} (ha : a < 16 ^ width) (hb : b < 16 ^ width) :
    fixedHex width a = fixedHex width b ↔ a = b := by
  constructor
  · intro h
    have hread := congrArg readHex h
    rwa [readHex_fixedHex ha, readHex_fixedHex hb] at hread
  · exact congrArg (fixedHex width)

theorem length_hexText_le_iff {n width : ℕ} (hw : 0 < width) :
    (hexText n).length ≤ width ↔ n < 16 ^ width :=
  Nat.length_toDigits_le_iff (by norm_num) hw

theorem length_hexText_pos (n : ℕ) : 0 < (hexText n).length := Nat.length_toDigits_pos

theorem length_padLeft (width : ℕ) (t : Text) : (padLeft width t).length = max width t.length := by
  simp only [padLeft, List.length_append, List.length_replicate]
  omega

theorem padLeft_hexText {width n : ℕ} (hw : 0 < width) (hn : n < 16 ^ width) :
    padLeft width (hexText n) = fixedHex width n := by
  induction width generalizing n with
  | zero => omega
  | succ width ih =>
    by_cases hsmall : n < 16
    · have hzero : ∀ k, fixedHex k 0 = List.replicate k '0' := by
        intro k
        induction k with
        | zero => rfl
        | succ k hk => simp [fixedHex, hk, List.replicate_succ']
      rw [hexText, Nat.toDigits_of_lt_base hsmall, fixedHex, Nat.div_eq_of_lt hsmall,
        Nat.mod_eq_of_lt hsmall, hzero]
      simp [padLeft]
    · have hwidth : 0 < width := by
        rcases Nat.eq_zero_or_pos width with rfl | h
        · simp at hn; omega
        · exact h
      have hi := ih hwidth (n := n / 16) (by rw [pow_succ] at hn; omega)
      rw [hexText, Nat.toDigits_of_base_le (by norm_num) (by omega), fixedHex, ← hi]
      simp [padLeft, hexText]

/-- Adjacent fixed-width fields are the field of the combined number. -/
theorem fixedHex_append (v w a : ℕ) {b : ℕ} (hb : b < 16 ^ w) :
    fixedHex v a ++ fixedHex w b = fixedHex (v + w) (a * 16 ^ w + b) := by
  induction w generalizing b with
  | zero => simp only [pow_zero, Nat.lt_one_iff] at hb; subst b; simp [fixedHex]
  | succ w ih =>
    have hdiv : (a * 16 ^ (w + 1) + b) / 16 = a * 16 ^ w + b / 16 := by
      rw [pow_succ, ← Nat.mul_assoc]
      omega
    have hmod : (a * 16 ^ (w + 1) + b) % 16 = b % 16 := by
      rw [pow_succ, ← Nat.mul_assoc]
      omega
    rw [← Nat.add_assoc v w 1, fixedHex, fixedHex, hdiv, hmod, ← List.append_assoc,
      ih (b := b / 16) (by rw [pow_succ] at hb; omega)]

end MMLMStore.HexText
