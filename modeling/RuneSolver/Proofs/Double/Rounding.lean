import Mathlib

/-!
The rounding of doubles. A real number is given by a significand that it is cut off to, with two
bits for what was cut off, and an exponent. Main statement: such a number becomes a significand of
at most fifty-three bits next to it, at the exponent that its size asks for.
-/

namespace RuneSolver.Double

open Float.Model
open Float.Model.UnpackedFloat

/-! ### Numbers -/

/-- The real number with a sign and a magnitude. -/
def signed : Sign → ℝ → ℝ
  | .negative, x => -x
  | .positive, x => x

/-- The number that an unpacked double stands for; what stands for none gets zero. -/
noncomputable def unpackedValue : UnpackedFloat → ℝ
  | .finite s m e _ => signed s (m * 2 ^ e)
  | _ => 0

/-! ### Cut off numbers -/

/-- The significand is a number without what comes after the point, and the two bits say whether
this is nothing, less than a half, a half or more. -/
def CutOff : ExtendedMantissa → ℝ → Prop
  | ⟨m, false, false⟩, y => y = m
  | ⟨m, false, true⟩, y => m < y ∧ y < m + 1 / 2
  | ⟨m, true, false⟩, y => y = m + 1 / 2
  | ⟨m, true, true⟩, y => m + 1 / 2 < y ∧ y < m + 1

namespace CutOff

variable {em : ExtendedMantissa} {y : ℝ}

lemma bounds (h : CutOff em y) : em.mantissa ≤ y ∧ y < em.mantissa + 1 := by
  obtain ⟨m, _ | _, _ | _⟩ := em <;> simp only [CutOff] at h ⊢ <;> constructor <;> linarith

/-- A half of a number is cut off by one more bit. -/
lemma shiftRightOne (h : CutOff em y) : CutOff em.shiftRightOne (y / 2) := by
  obtain ⟨m, roundBit, stickyBit⟩ := em
  have hsplit : (m : ℝ) = 2 * (m / 2 : ℕ) + (m % 2 : ℕ) := by
    exact_mod_cast (Nat.div_add_mod m 2).symm
  rw [ExtendedMantissa.shiftRightOne]
  rcases Nat.mod_two_eq_zero_or_one m with hbit | hbit <;> rw [hbit] at hsplit ⊢ <;>
    cases roundBit <;> cases stickyBit <;>
    simp only [CutOff, Nat.cast_zero, Nat.cast_one, bne_self_eq_false, Nat.reduceBNe,
      Bool.or_false, Bool.or_true] at hsplit h ⊢ <;>
    first | linarith | constructor <;> linarith

lemma shiftRight (h : CutOff em y) (k : ℕ) : CutOff (em >>> k) (y / 2 ^ k) := by
  change CutOff (k.repeat ExtendedMantissa.shiftRightOne em) (y / 2 ^ k)
  induction k with
  | zero => simpa [Nat.repeat] using h
  | succ k ih =>
    rw [Nat.repeat, pow_succ, ← div_div]
    exact ih.shiftRightOne

/-- No number is further than a half from the significand that it is rounded to. -/
lemma abs_roundedMantissa_sub_le (h : CutOff em y) : |em.roundedMantissa - y| ≤ 1 / 2 := by
  rw [abs_sub_comm, abs_le]
  obtain ⟨m, _ | _, _ | _⟩ := em <;> simp only [CutOff] at h
  · change -(1 / 2) ≤ y - (m : ℝ) ∧ y - (m : ℝ) ≤ 1 / 2
    constructor <;> linarith
  · change -(1 / 2) ≤ y - (m : ℝ) ∧ y - (m : ℝ) ≤ 1 / 2
    constructor <;> linarith
  · -- a half is rounded to an even significand
    have hle : m ≤ m + m % 2 ∧ m + m % 2 ≤ m + 1 := by omega
    have hge : (m : ℝ) ≤ (m + m % 2 : ℕ) := by exact_mod_cast hle.1
    have hle' : ((m + m % 2 : ℕ) : ℝ) ≤ m + 1 := by exact_mod_cast hle.2
    change -(1 / 2) ≤ y - ((m + m % 2 : ℕ) : ℝ) ∧ y - ((m + m % 2 : ℕ) : ℝ) ≤ 1 / 2
    constructor <;> linarith
  · change -(1 / 2) ≤ y - ((m + 1 : ℕ) : ℝ) ∧ y - ((m + 1 : ℕ) : ℝ) ≤ 1 / 2
    push_cast
    constructor <;> linarith

end CutOff

lemma cutOff_exact (m : ℕ) : CutOff (.ofMantissaAndAccuracy m .exact) m := rfl

/-! ### Rounded numbers -/

/-- A number that is not negative is next to a significand at the exponent for its size. -/
structure RoundsTo (x : ℝ) (m : ℕ) (t : ℤ) : Prop where
  nonneg : 0 ≤ x
  le_exponent : -1074 ≤ t
  lt : x < 2 ^ (t + 53)
  full : t = -1074 ∨ 2 ^ (t + 52) ≤ x
  near : |m * 2 ^ t - x| ≤ 2 ^ t / 2

/-- Above an exponent, powers of two are whole numbers of its unit. -/
lemma two_zpow_eq_natCast_mul {a t : ℤ} (h : t ≤ a) :
    (2 : ℝ) ^ a = ((2 ^ (a - t).toNat : ℕ) : ℝ) * 2 ^ t := by
  have hsum : a = ((a - t).toNat : ℤ) + t := by omega
  conv_lhs => rw [hsum]
  rw [zpow_add₀ two_ne_zero, zpow_natCast, Nat.cast_pow, Nat.cast_ofNat]

namespace RoundsTo

variable {x : ℝ} {m n : ℕ} {t a b : ℤ}

lemma le_of_lt (h : RoundsTo x m t) (hx : x < n * 2 ^ t + 2 ^ t / 2) : m ≤ n := by
  have hunit : (0 : ℝ) < 2 ^ t := by positivity
  have hnear := (abs_le.mp h.near).2
  have hlt : (m : ℝ) * 2 ^ t < (n + 1 : ℕ) * 2 ^ t := by
    push_cast
    linarith
  have hmn : m < n + 1 := by exact_mod_cast lt_of_mul_lt_mul_right hlt hunit.le
  omega

lemma le_of_le (h : RoundsTo x m t) (hx : n * 2 ^ t ≤ x) : n ≤ m := by
  have hunit : (0 : ℝ) < 2 ^ t := by positivity
  have hnear := (abs_le.mp h.near).1
  have hlt : (n : ℝ) * 2 ^ t < (m + 1 : ℕ) * 2 ^ t := by
    push_cast
    linarith
  have hnm : n < m + 1 := by exact_mod_cast lt_of_mul_lt_mul_right hlt hunit.le
  omega

/-- Whole numbers of the unit are not changed. -/
lemma eq_of_eq (h : RoundsTo x m t) (hx : x = n * 2 ^ t) : m = n := by
  have hunit : (0 : ℝ) < 2 ^ t := by positivity
  exact le_antisymm (h.le_of_lt (by linarith)) (h.le_of_le hx.ge)

lemma mantissa_le (h : RoundsTo x m t) : m ≤ 2 ^ 53 := by
  have hunit : (0 : ℝ) < 2 ^ t := by positivity
  have hlt := h.lt
  rw [two_zpow_eq_natCast_mul (show t ≤ t + 53 by omega),
    show (t + 53 - t).toNat = 53 by omega] at hlt
  exact h.le_of_lt (hlt.trans (lt_add_of_pos_right _ (half_pos hunit)))

lemma le_mantissa (h : RoundsTo x m t) : t = -1074 ∨ 2 ^ 52 ≤ m := by
  refine h.full.imp_right fun hle => ?_
  rw [two_zpow_eq_natCast_mul (show t ≤ t + 52 by omega),
    show (t + 52 - t).toNat = 52 by omega] at hle
  exact h.le_of_le hle

/-- **Rounding does not pass a power of two.** What exceeds it by less than a half of the unit
above is rounded to the power. -/
lemma mul_le_two_zpow (h : RoundsTo x m t) (hb : -1022 ≤ b) (hx : x < 2 ^ b + 2 ^ (b - 53)) :
    (m * 2 ^ t : ℝ) ≤ 2 ^ b := by
  have hunit : (0 : ℝ) < 2 ^ t := by positivity
  -- the unit is one of those that the power is a whole number of
  have htb : t ≤ b - 52 := by
    rcases h.full with ht | hle
    · omega
    · have hsmall : (2 : ℝ) ^ (b - 53) ≤ 2 ^ b := zpow_le_zpow_right₀ one_le_two (by omega)
      have hlt : (2 : ℝ) ^ (t + 52) < 2 ^ (b + 1) := by
        rw [zpow_add_one₀ two_ne_zero b]
        linarith
      have hexp : t + 52 < b + 1 := (zpow_lt_zpow_iff_right₀ one_lt_two).mp hlt
      omega
  have hexcess : x < 2 ^ b + 2 ^ t / 2 := by
    rcases htb.eq_or_lt with rfl | hlt
    · have hhalf : (2 : ℝ) ^ (b - 52) / 2 = 2 ^ (b - 53) := by
        rw [show b - 53 = b - 52 - 1 by omega, zpow_sub_one₀ two_ne_zero, div_eq_mul_inv]
      rwa [hhalf]
    · have hle : (2 : ℝ) ^ (t + 53) ≤ 2 ^ b := zpow_le_zpow_right₀ one_le_two (by omega)
      linarith [h.lt]
  rw [two_zpow_eq_natCast_mul (show t ≤ b by omega)] at hexcess ⊢
  refine mul_le_mul_of_nonneg_right ?_ hunit.le
  exact Nat.cast_le.mpr (h.le_of_lt hexcess)

lemma two_zpow_le_mul (h : RoundsTo x m t) (ha : -1074 ≤ a) (hx : 2 ^ a ≤ x) :
    (2 ^ a : ℝ) ≤ m * 2 ^ t := by
  have hunit : (0 : ℝ) < 2 ^ t := by positivity
  rcases le_or_gt t a with hta | hta
  · rw [two_zpow_eq_natCast_mul hta] at hx ⊢
    refine mul_le_mul_of_nonneg_right ?_ hunit.le
    exact Nat.cast_le.mpr (h.le_of_le hx)
  · have hm : 2 ^ 52 ≤ m := h.le_mantissa.resolve_left (by omega)
    have hone : (1 : ℝ) ≤ m := Nat.one_le_cast.mpr (by omega)
    calc (2 : ℝ) ^ a ≤ 2 ^ t := zpow_le_zpow_right₀ one_le_two hta.le
      _ ≤ m * 2 ^ t := le_mul_of_one_le_left hunit.le hone

/-- Rounding keeps the order of different numbers. -/
lemma mul_le_mul_of_lt {x' : ℝ} {m' : ℕ} {t' : ℤ} (h : RoundsTo x m t) (h' : RoundsTo x' m' t')
    (hlt : x < x') : (m * 2 ^ t : ℝ) ≤ m' * 2 ^ t' := by
  have hunit : (0 : ℝ) < 2 ^ t := by positivity
  rcases lt_trichotomy t t' with ht | rfl | ht
  · -- the power that the larger number has reached lies between the two
    have hlow := h.le_exponent
    have hfull : (2 : ℝ) ^ (t' + 52) ≤ x' := h'.full.resolve_left (by omega)
    have hle : (2 : ℝ) ^ (t + 53) ≤ 2 ^ (t' + 52) := zpow_le_zpow_right₀ one_le_two (by omega)
    have hhalf : (0 : ℝ) < 2 ^ (t' + 52 - 53) := by positivity
    calc (m * 2 ^ t : ℝ) ≤ 2 ^ (t' + 52) := h.mul_le_two_zpow (by omega) (by linarith [h.lt])
      _ ≤ m' * 2 ^ t' := h'.two_zpow_le_mul (by omega) hfull
  · have hnear := (abs_le.mp h.near).2
    have hnear' := (abs_le.mp h'.near).1
    have hunits : (m : ℝ) * 2 ^ t < (m' + 1 : ℕ) * 2 ^ t := by
      push_cast
      linarith
    have hmm' : m < m' + 1 := by exact_mod_cast lt_of_mul_lt_mul_right hunits hunit.le
    exact mul_le_mul_of_nonneg_right (Nat.cast_le.mpr (by omega)) hunit.le
  · have hlow := h'.le_exponent
    have hfull : (2 : ℝ) ^ (t + 52) ≤ x := h.full.resolve_left (by omega)
    have hle : (2 : ℝ) ^ (t' + 53) ≤ 2 ^ (t + 52) := zpow_le_zpow_right₀ one_le_two (by omega)
    linarith [h'.lt]

end RoundsTo

/-! ### Rounding of unpacked doubles -/

/-- A significand of at most fifty-three bits, with all of them unless the exponent is the least. -/
structure Canonical (m : ℕ) (e : ℤ) : Prop where
  mantissa_lt : m < 2 ^ 53
  le_exponent : -1074 ≤ e
  full : e = -1074 ∨ 2 ^ 52 ≤ m

/-- An unpacked double has a sign and, behind it, a number as its value. -/
def HasMagnitude (s : Sign) (x : ℝ) : UnpackedFloat → Prop
  | .zero s' => s' = s ∧ x = 0
  | .finite s' m e _ => s' = s ∧ Canonical m e ∧ x = m * 2 ^ e
  | _ => False

/-- The exponent that a significand is brought to. -/
def exponentFor (m : ℕ) (e : ℤ) : ℤ := max (m.log2 + 1 + e - 53) (-1074)

lemma targetExponent_eq (m : ℕ) (e : ℤ) :
    Format.binary64.targetExponent (totalExponent m e) = exponentFor m e := rfl

lemma shiftToTargetExponent_eq {m : ℕ} {e : ℤ} {acc : Accuracy} (he : e ≤ exponentFor m e) :
    shiftToTargetExponent Format.binary64 m e acc =
      (ExtendedMantissa.ofMantissaAndAccuracy m acc >>> (exponentFor m e - e).toNat,
        exponentFor m e) := by
  have hsum : e + ((exponentFor m e - e).toNat : ℤ) = exponentFor m e := by omega
  simp only [shiftToTargetExponent, targetExponent_eq, shiftToExponent, hsum]

lemma log2_lt_of_lt {m k : ℕ} (hm : m < 2 ^ (k + 1)) : m.log2 < k + 1 := by
  rcases Nat.eq_zero_or_pos m with rfl | hpos
  · exact Nat.succ_pos k
  · exact (Nat.log2_lt hpos.ne').mpr hm

/-- A significand of at most fifty-three bits is brought to its exponent without a loss: it is
there already, or it has one bit too many, and this one is zero. -/
lemma RoundsTo.shift_eq {x : ℝ} {m : ℕ} {t : ℤ} (h : RoundsTo x m t) :
    ∃ m' e', shiftToTargetExponent Format.binary64 m t .exact = (⟨m', false, false⟩, e') ∧
      Canonical m' e' ∧ (m * 2 ^ t : ℝ) = m' * 2 ^ e' := by
  have ht := h.le_exponent
  rcases h.mantissa_le.eq_or_lt with rfl | hlt
  · have hexp : exponentFor (2 ^ 53) t = t + 1 := by
      rw [exponentFor, Nat.log2_two_pow]
      omega
    refine ⟨2 ^ 52, t + 1, ?_, ⟨by norm_num, by omega, Or.inr le_rfl⟩, ?_⟩
    · rw [shiftToTargetExponent_eq (by omega), hexp, show (t + 1 - t).toNat = 1 by omega]
      rfl
    · have hsum : (2 : ℝ) ^ (t + 1) = 2 ^ t * 2 := zpow_add_one₀ two_ne_zero t
      rw [hsum]
      push_cast
      linarith
  · have hlog : m.log2 < 53 := log2_lt_of_lt hlt
    have hexp : exponentFor m t = t := by
      rw [exponentFor]
      rcases h.le_mantissa with hleast | hfull
      · omega
      · have hge : 52 ≤ m.log2 := (Nat.le_log2 (by omega)).mpr hfull
        omega
    refine ⟨m, t, ?_, ⟨hlt, ht, h.le_mantissa⟩, rfl⟩
    rw [shiftToTargetExponent_eq (by omega), hexp, sub_self]
    rfl

lemma ofMantissaAndAccuracy_mantissa (m : ℕ) (acc : Accuracy) :
    (ExtendedMantissa.ofMantissaAndAccuracy m acc).mantissa = m := by
  rcases acc with _ | (_ | _ | _) <;> rfl

/-- A cut off number is next to the significand that it is rounded to at its exponent. -/
lemma CutOff.roundsTo {m : ℕ} {e : ℤ} {acc : Accuracy} {y : ℝ}
    (hy : CutOff (.ofMantissaAndAccuracy m acc) y) (he : e ≤ exponentFor m e) :
    RoundsTo (y * 2 ^ e) (ExtendedMantissa.ofMantissaAndAccuracy m acc >>>
      (exponentFor m e - e).toNat).roundedMantissa (exponentFor m e) := by
  obtain ⟨hmy, hym⟩ := hy.bounds
  rw [ofMantissaAndAccuracy_mantissa] at hmy hym
  have hunit : (0 : ℝ) < 2 ^ e := by positivity
  constructor
  case nonneg => exact mul_nonneg ((Nat.cast_nonneg m).trans hmy) hunit.le
  case le_exponent => exact le_max_right _ _
  case lt =>
    have hpow : ((m + 1 : ℕ) : ℝ) ≤ ((2 ^ (m.log2 + 1) : ℕ) : ℝ) :=
      Nat.cast_le.mpr Nat.lt_log2_self
    push_cast at hpow
    calc y * 2 ^ e < 2 ^ (m.log2 + 1) * 2 ^ e :=
          mul_lt_mul_of_pos_right (hym.trans_le hpow) hunit
      _ = 2 ^ (m.log2 + 1 + e) := by
        rw [← zpow_natCast, ← zpow_add₀ two_ne_zero, Nat.cast_succ]
      _ ≤ 2 ^ (exponentFor m e + 53) :=
        zpow_le_zpow_right₀ one_le_two (by rw [exponentFor]; omega)
  case full =>
    rcases le_or_gt (m.log2 + 1 + e - 53) (-1074) with hle | hgt
    · exact Or.inl (max_eq_right hle)
    · refine Or.inr ?_
      have hne : m ≠ 0 := by
        rintro rfl
        rw [exponentFor, Nat.log2_zero] at he
        rw [Nat.log2_zero] at hgt
        omega
      have hpow : ((2 ^ m.log2 : ℕ) : ℝ) ≤ m := Nat.cast_le.mpr (Nat.log2_self_le hne)
      push_cast at hpow
      have hexp : exponentFor m e + 52 = m.log2 + e := by
        rw [exponentFor]
        omega
      rw [hexp, zpow_add₀ two_ne_zero, zpow_natCast]
      exact mul_le_mul_of_nonneg_right (hpow.trans hmy) hunit.le
  case near =>
    have hshift : y * 2 ^ e = y / 2 ^ (exponentFor m e - e).toNat * 2 ^ exponentFor m e := by
      rw [two_zpow_eq_natCast_mul he]
      push_cast
      rw [← mul_assoc, div_mul_cancel₀ y (by positivity)]
    have hunit' : (0 : ℝ) < 2 ^ exponentFor m e := by positivity
    have hnear := (hy.shiftRight (exponentFor m e - e).toNat).abs_roundedMantissa_sub_le
    rw [hshift, ← sub_mul, abs_mul, abs_of_pos hunit']
    exact (mul_le_mul_of_nonneg_right hnear hunit'.le).trans_eq (one_div_mul_eq_div 2 _)

/-- **A cut off number is rounded to the double next to it.** -/
theorem roundWithAccuracy_spec (s : Sign) {m : ℕ} {e : ℤ} {acc : Accuracy} {y : ℝ}
    (hy : CutOff (.ofMantissaAndAccuracy m acc) y) (he : e ≤ exponentFor m e) :
    ∃ r t, RoundsTo (y * 2 ^ e) r t ∧
      HasMagnitude s (r * 2 ^ t) (roundWithAccuracy Format.binary64 s m e acc) := by
  have hround := hy.roundsTo he
  obtain ⟨m', e', hshift, hcanonical, heq⟩ := hround.shift_eq
  refine ⟨_, _, hround, ?_⟩
  rw [heq]
  simp only [roundWithAccuracy, shiftToTargetExponent_eq he, hshift]
  split
  case isTrue hzero => exact ⟨rfl, by simp [hzero]⟩
  case isFalse => exact ⟨rfl, hcanonical, rfl⟩

lemma round_spec (s : Sign) {m : ℕ} (hm : m ≠ 0) (e : ℤ) :
    ∃ r t, RoundsTo (m * 2 ^ e) r t ∧
      HasMagnitude s (r * 2 ^ t) (UnpackedFloat.round Format.binary64 s m e) := by
  have hmore : ((m <<< (e - exponentFor m e).toNat : ℕ) : ℝ) *
      2 ^ (e - ((e - exponentFor m e).toNat : ℤ)) = m * 2 ^ e := by
    rw [Nat.shiftLeft_eq]
    push_cast
    rw [mul_assoc, ← zpow_natCast, ← zpow_add₀ two_ne_zero, add_sub_cancel]
  have hlog : (m <<< (e - exponentFor m e).toNat).log2 = m.log2 + (e - exponentFor m e).toNat := by
    rw [Nat.log2_eq_iff (by rw [Nat.shiftLeft_eq]; positivity), Nat.shiftLeft_eq]
    constructor
    · rw [pow_add]
      exact Nat.mul_le_mul_right _ (Nat.log2_self_le hm)
    · rw [add_right_comm, pow_add]
      exact Nat.mul_lt_mul_of_pos_right Nat.lt_log2_self (by positivity)
  have hspec := roundWithAccuracy_spec s (cutOff_exact (m <<< (e - exponentFor m e).toNat))
    (e := e - ((e - exponentFor m e).toNat : ℤ)) (by
      simp only [exponentFor] at hlog ⊢
      omega)
  rwa [hmore] at hspec

end RuneSolver.Double
