import Mathlib.Data.List.TakeWhile
import RuneSolver.Json.Token
import RuneSolver.Proofs.Json.Grammar
import RuneSolver.Proofs.Text.Numeral

/-!
Numbers of JSON texts. They have the form that the grammar gives them, they are made of the
characters that a scan keeps together, they start as a scan expects it, and the numerals of whole
numbers are among them.
-/

namespace RuneSolver

namespace Json

/-- A digit is no small letter. -/
lemma isLower_of_isDigit {c : Char} (h : c.isDigit = true) : c.isLower = false := by
  have hhigh : c.val.toNat ≤ 57 := (Char.isDigit_iff_toNat.mp h).2
  have hlow : ¬ 'a'.val ≤ c.val := fun hle => by
    have hletter : 97 ≤ c.val.toNat := UInt32.le_iff_toNat_le.mp hle
    omega
  change (decide ('a'.val ≤ c.val) && decide (c.val ≤ 'z'.val)) = false
  rw [decide_eq_false hlow, Bool.false_and]

/-! ### The form of numbers -/

section Form

variable {cs ds rest : List Char}

/-- Digits end here. -/
def EndsDigits (cs : List Char) : Prop := ∀ c ∈ cs.head?, c.isDigit = false

lemma takeWhile_isDigit (h : ∀ c ∈ ds, c.isDigit = true) (hrest : EndsDigits rest) :
    (ds ++ rest).takeWhile Char.isDigit = ds ∧ (ds ++ rest).dropWhile Char.isDigit = rest := by
  rw [List.takeWhile_append_of_pos h, List.dropWhile_append_of_pos h]
  cases rest with
  | nil => simp
  | cons c rest =>
    have hc : c.isDigit = false := hrest c rfl
    simp [hc]

lemma isDigits_iff : isDigits cs = true ↔ Digits cs := by
  rw [isDigits, Bool.and_eq_true, List.all_eq_true, Digits]
  simp

lemma isExponent_iff : isExponent cs = true ↔ ExponentText cs := by
  constructor
  · intro h
    cases cs with
    | nil => exact .inl rfl
    | cons letter cs =>
      unfold isExponent at h
      rw [Bool.and_eq_true, Bool.or_eq_true, beq_iff_eq, beq_iff_eq] at h
      obtain ⟨hletter, hdigits⟩ := h
      split at hdigits
      · next ds =>
        exact .inr ⟨letter, ['+'], ds, hletter, .inr (.inl rfl), isDigits_iff.mp hdigits, rfl⟩
      · next ds =>
        exact .inr ⟨letter, ['-'], ds, hletter, .inr (.inr rfl), isDigits_iff.mp hdigits, rfl⟩
      · exact .inr ⟨letter, [], cs, hletter, .inl rfl, isDigits_iff.mp hdigits, rfl⟩
  · rintro (rfl | ⟨letter, sign, ds, hletter, hsign, hdigits, rfl⟩)
    · rfl
    · unfold isExponent
      rw [Bool.and_eq_true, Bool.or_eq_true, beq_iff_eq, beq_iff_eq]
      refine ⟨hletter, ?_⟩
      rcases hsign with rfl | rfl | rfl
      · rw [List.nil_append]
        split
        · exact absurd (hdigits.2 '+' List.mem_cons_self) (by decide)
        · exact absurd (hdigits.2 '-' List.mem_cons_self) (by decide)
        · exact isDigits_iff.mpr hdigits
      · exact isDigits_iff.mpr hdigits
      · exact isDigits_iff.mpr hdigits

lemma ExponentText.endsDigits (h : ExponentText cs) : EndsDigits cs := by
  rcases h with rfl | ⟨letter, sign, ds, hletter, -, -, rfl⟩
  · exact fun _ hc => by cases hc
  · intro c hc
    cases hc
    rcases hletter with rfl | rfl <;> decide

lemma FractionText.endsDigits (h : FractionText cs) (hrest : ExponentText rest) :
    EndsDigits (cs ++ rest) := by
  rcases h with rfl | ⟨ds, -, rfl⟩
  · exact hrest.endsDigits
  · intro c hc
    cases hc
    decide

lemma isFraction_iff : isFraction cs = true ↔
    ∃ fraction exponent, FractionText fraction ∧ ExponentText exponent ∧
      cs = fraction ++ exponent := by
  constructor
  · intro h
    unfold isFraction at h
    split at h
    · next cs =>
      rw [Bool.and_eq_true, isExponent_iff] at h
      refine ⟨'.' :: cs.takeWhile Char.isDigit, cs.dropWhile Char.isDigit,
        .inr ⟨_, ⟨by simpa using h.1, fun c hc => List.mem_takeWhile_imp hc⟩, rfl⟩, h.2, ?_⟩
      rw [List.cons_append, List.takeWhile_append_dropWhile]
    · exact ⟨[], cs, .inl rfl, isExponent_iff.mp h, rfl⟩
  · rintro ⟨fraction, exponent, rfl | ⟨ds, hdigits, rfl⟩, hexponent, rfl⟩
    · unfold isFraction
      split
      · rcases hexponent with hnil | ⟨letter, sign, ds, hletter, -, -, heq⟩
        · cases hnil
        · cases heq
          exact absurd hletter (by decide)
      · exact isExponent_iff.mpr hexponent
    · obtain ⟨htake, hdrop⟩ := takeWhile_isDigit hdigits.2 hexponent.endsDigits
      rw [List.cons_append, isFraction, htake, hdrop, isExponent_iff.mpr hexponent]
      simpa using hdigits.1

lemma isUnsigned_iff : isUnsigned cs = true ↔
    ∃ whole rest, WholeText whole ∧ isFraction rest = true ∧ cs = whole ++ rest := by
  constructor
  · intro h
    unfold isUnsigned at h
    split at h
    · next cs => exact ⟨['0'], cs, .inl rfl, h, rfl⟩
    · next hzero =>
      rw [Bool.and_eq_true] at h
      refine ⟨cs.takeWhile Char.isDigit, cs.dropWhile Char.isDigit, .inr ⟨⟨by simpa using h.1,
        fun c hc => List.mem_takeWhile_imp hc⟩, fun hhead => ?_⟩, h.2, ?_⟩
      · obtain ⟨ds, hds⟩ := List.head?_eq_some_iff.mp hhead
        have hcs := List.takeWhile_append_dropWhile (p := Char.isDigit) (l := cs)
        rw [hds, List.cons_append] at hcs
        exact hzero _ hcs.symm
      · rw [List.takeWhile_append_dropWhile]
  · rintro ⟨whole, rest, rfl | ⟨hdigits, hhead⟩, hrest, rfl⟩
    · exact hrest
    · have hends : EndsDigits rest := by
        obtain ⟨fraction, exponent, hfraction, hexponent, rfl⟩ := isFraction_iff.mp hrest
        exact hfraction.endsDigits hexponent
      obtain ⟨htake, hdrop⟩ := takeWhile_isDigit hdigits.2 hends
      obtain ⟨c, ds, rfl⟩ := List.exists_cons_of_ne_nil hdigits.1
      unfold isUnsigned
      split
      · next heq =>
        cases heq
        exact absurd rfl hhead
      · rw [htake, hdrop, hrest]
        rfl

/-- **The form of a number** is the one of the grammar. -/
theorem isNumber_iff : isNumber cs = true ↔ NumberText cs := by
  constructor
  · intro h
    unfold isNumber at h
    split at h
    · obtain ⟨whole, rest, hwhole, hrest, rfl⟩ := isUnsigned_iff.mp h
      obtain ⟨fraction, exponent, hfraction, hexponent, rfl⟩ := isFraction_iff.mp hrest
      exact ⟨['-'], whole, fraction, exponent, .inr rfl, hwhole, hfraction, hexponent, rfl⟩
    · obtain ⟨whole, rest, hwhole, hrest, rfl⟩ := isUnsigned_iff.mp h
      obtain ⟨fraction, exponent, hfraction, hexponent, rfl⟩ := isFraction_iff.mp hrest
      exact ⟨[], whole, fraction, exponent, .inl rfl, hwhole, hfraction, hexponent, rfl⟩
  · rintro ⟨sign, whole, fraction, exponent, hsign, hwhole, hfraction, hexponent, rfl⟩
    have hunsigned : isUnsigned (whole ++ (fraction ++ exponent)) = true :=
      isUnsigned_iff.mpr ⟨whole, _, hwhole,
        isFraction_iff.mpr ⟨fraction, exponent, hfraction, hexponent, rfl⟩, rfl⟩
    rcases hsign with rfl | rfl
    · unfold isNumber
      split
      · next heq =>
        rcases hwhole with rfl | ⟨hdigits, -⟩
        · cases heq
        · obtain ⟨c, ds, rfl⟩ := List.exists_cons_of_ne_nil hdigits.1
          cases heq
          exact absurd (hdigits.2 '-' List.mem_cons_self) (by decide)
      · exact hunsigned
    · exact hunsigned

end Form

/-! ### The characters of numbers -/

/-- Every character is one of those that a scan takes for a part of a number. -/
abbrev NumberChars (cs : List Char) : Prop := ∀ c ∈ cs, isNumberChar c = true

lemma numberChars_of_digits {cs : List Char} (h : ∀ c ∈ cs, c.isDigit = true) :
    NumberChars cs := by
  intro c hc
  simp [isNumberChar, h c hc]

lemma numberChars_of_isNumber {cs : List Char} (h : isNumber cs = true) : NumberChars cs := by
  obtain ⟨sign, whole, fraction, exponent, hsign, hwhole, hfraction, hexponent, rfl⟩ :=
    isNumber_iff.mp h
  have hnil : NumberChars [] := List.forall_mem_nil _
  have hsingle {c : Char} (hc : isNumberChar c = true) : NumberChars [c] :=
    List.forall_mem_singleton.mpr hc
  have hparts : NumberChars sign ∧ NumberChars whole ∧ NumberChars fraction ∧
      NumberChars exponent := by
    refine ⟨?_, ?_, ?_, ?_⟩
    · rcases hsign with rfl | rfl
      · exact hnil
      · exact hsingle rfl
    · rcases hwhole with rfl | ⟨hdigits, -⟩
      · exact hsingle rfl
      · exact numberChars_of_digits hdigits.2
    · rcases hfraction with rfl | ⟨ds, hdigits, rfl⟩
      · exact hnil
      · exact List.forall_mem_cons.mpr ⟨rfl, numberChars_of_digits hdigits.2⟩
    · rcases hexponent with rfl | ⟨letter, sign, ds, hletter, hsign, hdigits, rfl⟩
      · exact hnil
      · refine List.forall_mem_cons.mpr
          ⟨?_, List.forall_mem_append.mpr ⟨?_, numberChars_of_digits hdigits.2⟩⟩
        · rcases hletter with rfl | rfl <;> rfl
        · rcases hsign with rfl | rfl | rfl
          · exact hnil
          · exact hsingle rfl
          · exact hsingle rfl
  simpa only [NumberChars, List.forall_mem_append] using hparts

/-- A number starts with its sign or with a digit. -/
lemma exists_cons_of_isNumber {cs : List Char} (h : isNumber cs = true) :
    ∃ c rest, cs = c :: rest ∧ (c == '-' || c.isDigit) = true := by
  obtain ⟨sign, whole, fraction, exponent, rfl | rfl, hwhole, -, -, rfl⟩ := isNumber_iff.mp h
  · rcases hwhole with rfl | ⟨hdigits, -⟩
    · exact ⟨_, _, rfl, rfl⟩
    · obtain ⟨c, ds, rfl⟩ := List.exists_cons_of_ne_nil hdigits.1
      exact ⟨c, _, rfl, by rw [hdigits.2 c List.mem_cons_self, Bool.or_true]⟩
  · exact ⟨_, _, rfl, rfl⟩

end Json

/-! ### Numerals as numbers -/

namespace Text

/-- Only the numeral of zero starts with a zero. -/
lemma natural_eq_zero_cons {n : ℕ} {cs : List Char} (h : natural n = '0' :: cs) :
    n = 0 ∧ cs = [] := by
  induction n using Nat.strongRecOn generalizing cs with
  | ind n ih =>
    rw [natural, Nat.toDigits_eq_if (by decide)] at h
    split at h
    · next hlt =>
      obtain ⟨hdigit, rfl⟩ := List.cons.inj h
      have hall : ∀ d < 10, Nat.digitChar d = '0' → d = 0 := by decide
      exact ⟨hall n hlt hdigit, rfl⟩
    · next hge =>
      obtain ⟨c, rest, hquotient⟩ := List.exists_cons_of_ne_nil (natural_ne_nil (n / 10))
      change natural (n / 10) ++ _ = _ at h
      rw [hquotient, List.cons_append] at h
      obtain ⟨rfl, -⟩ := List.cons.inj h
      have hzero := (ih (n / 10) (by omega) hquotient).1
      omega

lemma isDigits_natural (n : ℕ) : Json.isDigits (natural n) = true := by
  rw [Json.isDigits, Bool.and_eq_true, List.all_eq_true]
  exact ⟨by simpa using natural_ne_nil n, fun c hc => isDigit_of_mem_natural hc⟩

lemma isUnsigned_natural (n : ℕ) : Json.isUnsigned (natural n) = true := by
  have hdigits : ∀ c ∈ natural n, c.isDigit = true := fun c hc => isDigit_of_mem_natural hc
  unfold Json.isUnsigned
  split
  · next cs h =>
    obtain ⟨-, rfl⟩ := natural_eq_zero_cons h
    rfl
  · have hnone : Json.isFraction [] = true := rfl
    rw [List.takeWhile_eq_self_iff.mpr hdigits, List.dropWhile_eq_nil_iff.mpr hdigits, hnone]
    simpa using natural_ne_nil n

lemma isNumber_natural (n : ℕ) : Json.isNumber (natural n) = true := by
  unfold Json.isNumber
  split
  · next cs h => exact absurd h (natural_ne_cons (by decide))
  · exact isUnsigned_natural n

theorem isNumber_integer (i : ℤ) : Json.isNumber (integer i) = true := by
  cases i with
  | ofNat n => exact isNumber_natural n
  | negSucc n => exact isUnsigned_natural (n + 1)

/-- Zero is written without a sign. -/
lemma integer_ne_minus_zero (i : ℤ) : integer i ≠ ['-', '0'] := by
  cases i with
  | ofNat n => exact natural_ne_cons (by decide)
  | negSucc n =>
    intro h
    have hzero := natural_eq_zero_cons (List.cons.inj h).2
    omega

/-! ### Numbers as numerals -/

section Numerals

open Json

variable {cs : List Char}

lemma natural_of_wholeText (h : WholeText cs) : natural (Nat.ofDigitChars 10 cs 0) = cs := by
  rcases h with rfl | ⟨⟨hne, hdigits⟩, hhead⟩
  · rfl
  · exact natural_ofDigitChars hne hdigits fun h => absurd h hhead

/-- Without a fraction and an exponent there is only the whole part. -/
lemma wholeText_of_isUnsigned (h : isUnsigned cs = true) (hdigits : ∀ c ∈ cs, c.isDigit = true) :
    WholeText cs := by
  obtain ⟨whole, rest, hwhole, hrest, rfl⟩ := isUnsigned_iff.mp h
  obtain ⟨fraction, exponent, hfraction, hexponent, rfl⟩ := isFraction_iff.mp hrest
  have hends := hfraction.endsDigits hexponent
  cases hparts : fraction ++ exponent with
  | nil => rwa [List.append_nil]
  | cons c cs =>
    rw [hparts] at hends hdigits
    have hc := hdigits c (List.mem_append_right _ List.mem_cons_self)
    rw [hends c rfl] at hc
    cases hc

/-- A number of nothing but digits is the numeral of its value. -/
lemma natural_of_isNumber (h : isNumber cs = true) (hdigits : ∀ c ∈ cs, c.isDigit = true) :
    natural (Nat.ofDigitChars 10 cs 0) = cs := by
  unfold isNumber at h
  split at h
  · exact absurd (hdigits '-' List.mem_cons_self) (by decide)
  · exact natural_of_wholeText (wholeText_of_isUnsigned h hdigits)

/-- **A number that is read as a whole one** is its numeral, unless it is a zero with a sign. -/
theorem integer_of_readInteger {below above : ℕ} {i : ℤ} (hform : isNumber cs = true)
    (hzero : cs ≠ ['-', '0']) (h : readInteger below above cs = .ok i) :
    integer i = cs ∧ -(below : ℤ) ≤ i ∧ i ≤ above := by
  unfold readInteger at h
  split at h
  · cases h
  · obtain ⟨c, rest, hcons, hstart⟩ := exists_cons_of_isNumber hform
    cases hcons
    cases hstart
  · next rest =>
    cases hread : readMagnitude below .tooSmall rest with
    | error e => rw [hread] at h; cases h
    | ok n =>
      rw [hread] at h
      cases h
      obtain ⟨-, hdigits, rfl, hle⟩ := readMagnitude_eq_ok_iff.mp hread
      have hnatural := natural_of_wholeText (wholeText_of_isUnsigned hform hdigits)
      generalize Nat.ofDigitChars 10 rest 0 = n at hnatural hle ⊢
      cases n with
      | zero => exact absurd (congrArg ('-' :: ·) hnatural).symm hzero
      | succ n =>
        refine ⟨congrArg ('-' :: ·) hnatural, ?_⟩
        simp only [Int.ofNat_eq_natCast]
        omega
  · cases hread : readMagnitude above .tooLarge cs with
    | error e => rw [hread] at h; cases h
    | ok n =>
      rw [hread] at h
      cases h
      obtain ⟨-, hdigits, rfl, hle⟩ := readMagnitude_eq_ok_iff.mp hread
      have hnatural := natural_of_isNumber hform hdigits
      refine ⟨hnatural, ?_⟩
      simp only [Int.ofNat_eq_natCast]
      omega

end Numerals

end Text

end RuneSolver
