import RuneSolver.Proofs.Double.Packing

/-!
The arithmetic of doubles. Main statements: the sum, the product and the quotient of two finite
doubles and the double of a word are the rounded values; a rounded value is finite unless it is too
large, and it lies between the same powers of two as the value.
-/

namespace RuneSolver.Double

open Float.Model
open Float.Model.UnpackedFloat

/-! ### Values -/

@[simp] lemma abs_signed (s : Sign) (x : ℝ) : |signed s x| = |x| := by
  cases s
  · exact abs_neg x
  · rfl

lemma signed_div_signed (s s' : Sign) (x y : ℝ) :
    signed s x / signed s' y = signed (s / s') (x / y) := by
  cases s <;> cases s' <;> simp only [signed, neg_div, div_neg, neg_neg] <;> rfl

lemma signed_mul_signed (s s' : Sign) (x y : ℝ) :
    signed s x * signed s' y = signed (s * s') (x * y) := by
  cases s <;> cases s' <;> simp only [signed, neg_mul, mul_neg, neg_neg]

lemma signed_apply_mul (s : Sign) (m : ℕ) (x : ℝ) : signed s (m * x) = (s.apply m : ℤ) * x := by
  cases s <;> simp [signed, Sign.apply]

noncomputable def value (x : Float) : ℝ := unpackedValue x.toModel.unpack

/-- A finite double is a zero or canonical, with an exponent that is not too large. -/
lemma unpack_cases {x : Float} (hx : x.isFinite) :
    (∃ s, x.toModel.unpack = .zero s ∧ value x = 0) ∨
      ∃ s m e hm, x.toModel.unpack = .finite s m e hm ∧ Canonical m e ∧ e ≤ 971 ∧
        value x = signed s (m * 2 ^ e) := by
  change x.toModel.unpack.isFinite = true at hx
  rw [value]
  cases hunpack : x.toModel.unpack with
  | infinity s => rw [hunpack] at hx; cases hx
  | notANumber => rw [hunpack] at hx; cases hx
  | zero s => exact Or.inl ⟨s, rfl, rfl⟩
  | finite s m e hm =>
    obtain ⟨hcanonical, he⟩ := canonical_of_unpack hunpack
    exact Or.inr ⟨s, m, e, hm, rfl, hcanonical, he, rfl⟩

lemma unpack_pack_zero (s : Sign) : (Float.Model.pack (.zero s)).unpack = .zero s :=
  unpack_packedZero

lemma HasMagnitude.value_pack {s : Sign} {x : ℝ} {u : UnpackedFloat} (h : HasMagnitude s x u)
    (hx : x < 2 ^ (1024 : ℤ)) :
    (Float.ofModel (Float.Model.pack u)).isFinite ∧
      value (.ofModel (Float.Model.pack u)) = signed s x := by
  change (Float.Model.pack u).unpack.isFinite ∧ unpackedValue (Float.Model.pack u).unpack = _
  cases u with
  | infinity => exact h.elim
  | notANumber => exact h.elim
  | zero s' =>
    obtain ⟨rfl, rfl⟩ := h
    rw [unpack_pack_zero]
    refine ⟨rfl, ?_⟩
    cases s' <;> simp [unpackedValue, signed]
  | finite s' m e hm =>
    obtain ⟨rfl, hcanonical, rfl⟩ := h
    have he : e ≤ 971 := by
      rcases hcanonical.full with hleast | hfull
      · omega
      · have hle : (2 ^ 52 : ℝ) * 2 ^ e ≤ m * 2 ^ e :=
          mul_le_mul_of_nonneg_right (by exact_mod_cast hfull) (by positivity)
        rw [← zpow_natCast, ← zpow_add₀ two_ne_zero] at hle
        have hlt := (zpow_lt_zpow_iff_right₀ one_lt_two).mp (hle.trans_lt hx)
        omega
    rw [unpack_pack hcanonical he]
    exact ⟨rfl, rfl⟩

/-! ### Rounded values -/

/-- A double is the rounded value of a real number; one that is too large has none. -/
inductive Rounds (x : ℝ) (y : Float) : Prop
  | intro (s : Sign) (X : ℝ) (m : ℕ) (t : ℤ) (sign : x = signed s X) (round : RoundsTo X m t)
    (value : (m * 2 ^ t : ℝ) < 2 ^ (1024 : ℤ) → y.isFinite ∧ value y = signed s (m * 2 ^ t))

/-- A finite double is not larger than a power of two, whatever its sign. -/
structure Within (y : Float) (b : ℤ) : Prop where
  isFinite : y.isFinite
  abs_value_le : |value y| ≤ 2 ^ b

/-- A finite double lies between two powers of two. -/
structure Between (y : Float) (a b : ℤ) : Prop where
  isFinite : y.isFinite
  two_zpow_le : 2 ^ a ≤ value y
  le_two_zpow : value y ≤ 2 ^ b

namespace Rounds

variable {x : ℝ} {y : Float} {a b : ℤ} {n : ℕ}

/-- What exceeds a power of two by less than a half of the unit above is rounded away. -/
lemma within (h : Rounds x y) (hb : -1022 ≤ b) (hb' : b ≤ 1023)
    (hx : |x| < 2 ^ b + 2 ^ (b - 53)) : Within y b := by
  obtain ⟨s, X, m, t, rfl, hround, hvalue⟩ := h
  rw [abs_signed, abs_of_nonneg hround.nonneg] at hx
  have hle := hround.mul_le_two_zpow hb hx
  have hlt : (2 : ℝ) ^ b < 2 ^ (1024 : ℤ) := zpow_lt_zpow_right₀ one_lt_two (by omega)
  obtain ⟨hfinite, heq⟩ := hvalue (hle.trans_lt hlt)
  refine ⟨hfinite, ?_⟩
  rw [heq, abs_signed, abs_of_nonneg (by positivity)]
  exact hle

lemma between (h : Rounds x y) (ha : -1022 ≤ a) (hb : b ≤ 1023) (hxa : 2 ^ a ≤ x)
    (hxb : x ≤ 2 ^ b) : Between y a b := by
  have hpos : (0 : ℝ) < 2 ^ a := by positivity
  have hab : a ≤ b := (zpow_le_zpow_iff_right₀ one_lt_two).mp (hxa.trans hxb)
  have hhalf : (0 : ℝ) < 2 ^ (b - 53) := by positivity
  obtain ⟨s, X, m, t, rfl, hround, hvalue⟩ := h
  cases s with
  | negative =>
    -- a number that is not below a power of two is not negative
    have hnonneg := hround.nonneg
    change 2 ^ a ≤ -X at hxa
    linarith
  | positive =>
    change 2 ^ a ≤ X at hxa
    change X ≤ 2 ^ b at hxb
    have hle := hround.mul_le_two_zpow (show -1022 ≤ b by omega) (by linarith)
    have hlt : (2 : ℝ) ^ b < 2 ^ (1024 : ℤ) := zpow_lt_zpow_right₀ one_lt_two (by omega)
    obtain ⟨hfinite, heq⟩ := hvalue (hle.trans_lt hlt)
    change value y = m * 2 ^ t at heq
    exact ⟨hfinite, heq ▸ hround.two_zpow_le_mul (by omega) hxa, heq ▸ hle⟩

/-- A number that is neither negative nor too large is rounded to a finite double. -/
lemma exists_roundsTo (h : Rounds x y) (hx : 0 ≤ x) (hx' : x ≤ 2 ^ (1023 : ℤ)) :
    ∃ m t, RoundsTo x m t ∧ y.isFinite ∧ value y = m * 2 ^ t := by
  obtain ⟨s, X, m, t, rfl, hround, hvalue⟩ := h
  cases s with
  | negative =>
    -- only zero is negative without being less than zero
    have hnonneg := hround.nonneg
    change 0 ≤ -X at hx
    obtain rfl : X = 0 := by linarith
    obtain rfl : m = 0 := hround.eq_of_eq (by rw [Nat.cast_zero, zero_mul])
    obtain ⟨hfinite, heq⟩ := hvalue (by simp)
    refine ⟨0, t, ?_, hfinite, ?_⟩
    · rwa [signed, neg_zero]
    · rw [heq, signed, Nat.cast_zero, zero_mul, neg_zero]
  | positive =>
    change X ≤ 2 ^ (1023 : ℤ) at hx'
    have hhalf : (0 : ℝ) < 2 ^ ((1023 : ℤ) - 53) := by positivity
    have hle := hround.mul_le_two_zpow (b := 1023) (by omega) (by linarith)
    have hlt : (2 : ℝ) ^ (1023 : ℤ) < 2 ^ (1024 : ℤ) := zpow_lt_zpow_right₀ one_lt_two (by omega)
    obtain ⟨hfinite, heq⟩ := hvalue (hle.trans_lt hlt)
    exact ⟨m, t, hround, hfinite, heq⟩

lemma value_nonneg (h : Rounds x y) (hx : 0 ≤ x) (hx' : x ≤ 2 ^ (1023 : ℤ)) : 0 ≤ value y := by
  obtain ⟨m, t, -, -, hvalue⟩ := h.exists_roundsTo hx hx'
  rw [hvalue]
  positivity

lemma value_le_value {x' : ℝ} {y' : Float} (h : Rounds x y) (h' : Rounds x' y') (hx : 0 ≤ x)
    (hlt : x < x') (hx' : x' ≤ 2 ^ (1023 : ℤ)) : value y ≤ value y' := by
  obtain ⟨m, t, hround, -, hvalue⟩ := h.exists_roundsTo hx (hlt.le.trans hx')
  obtain ⟨m', t', hround', -, hvalue'⟩ := h'.exists_roundsTo (hx.trans hlt.le) hx'
  rw [hvalue, hvalue']
  exact hround.mul_le_mul_of_lt hround' hlt

/-- What a number with all its bits loses is a small part of it. -/
lemma abs_value_sub_le (h : Rounds x y) (hx : 2 ^ (-1022 : ℤ) ≤ x) (hx' : x ≤ 2 ^ (1023 : ℤ)) :
    |value y - x| ≤ x * 2 ^ (-53 : ℤ) := by
  have hpos : (0 : ℝ) < 2 ^ (-1022 : ℤ) := by positivity
  obtain ⟨m, t, hround, -, hvalue⟩ := h.exists_roundsTo (hpos.le.trans hx) hx'
  have hfull : (2 : ℝ) ^ (t + 52) ≤ x := by
    rcases hround.full with rfl | hfull
    · exact hx
    · exact hfull
  rw [hvalue]
  calc |m * 2 ^ t - x| ≤ 2 ^ t / 2 := hround.near
    _ = 2 ^ (t + 52) * 2 ^ (-53 : ℤ) := by
      rw [← zpow_add₀ two_ne_zero, show t + 52 + -53 = t - 1 by omega, zpow_sub_one₀ two_ne_zero,
        div_eq_mul_inv]
    _ ≤ x * 2 ^ (-53 : ℤ) := mul_le_mul_of_nonneg_right hfull (by positivity)

/-- Whole numbers of at most fifty-three bits, followed by zeros, are not changed. -/
lemma value_eq_mul {n : ℤ} {k : ℕ} (h : Rounds (n * 2 ^ k) y) (hn : n.natAbs < 2 ^ 53)
    (hk : k ≤ 970) : y.isFinite ∧ value y = n * 2 ^ k := by
  obtain ⟨s, X, m, t, hX, hround, hvalue⟩ := h
  have hpow : (0 : ℝ) < 2 ^ k := by positivity
  have hnat : X = n.natAbs * 2 ^ k := by
    rw [← abs_of_nonneg hround.nonneg, ← abs_signed s, ← hX, abs_mul, abs_of_pos hpow,
      Nat.cast_natAbs, Int.cast_abs]
  have hlt : X < 2 ^ (53 + k : ℤ) := by
    have hbits : (n.natAbs : ℝ) < 2 ^ (53 : ℤ) := by exact_mod_cast hn
    rw [hnat, zpow_add₀ two_ne_zero, zpow_natCast]
    exact mul_lt_mul_of_pos_right hbits hpow
  have ht : t ≤ k := by
    rcases hround.full with hleast | hfull
    · omega
    · have hexp := (zpow_lt_zpow_iff_right₀ one_lt_two).mp (hfull.trans_lt hlt)
      omega
  have hunits := two_zpow_eq_natCast_mul ht
  rw [zpow_natCast] at hunits
  have hwhole : X = (n.natAbs * 2 ^ (k - t).toNat : ℕ) * 2 ^ t := by
    rw [Nat.cast_mul, mul_assoc, ← hunits, hnat]
  rw [hround.eq_of_eq hwhole, ← hwhole, ← hX] at hvalue
  exact hvalue (hlt.trans (zpow_lt_zpow_right₀ one_lt_two (by omega)))

/-- Whole numbers of at most fifty-three bits are not changed. -/
lemma value_eq {n : ℤ} (h : Rounds n y) (hn : n.natAbs < 2 ^ 53) : y.isFinite ∧ value y = n := by
  rw [← mul_one (n : ℝ), ← pow_zero (2 : ℝ)] at h ⊢
  exact h.value_eq_mul hn (by omega)

end Rounds

lemma HasMagnitude.rounds {s : Sign} {x : ℝ} {m : ℕ} {t : ℤ} {u : UnpackedFloat}
    (h : HasMagnitude s (m * 2 ^ t) u) (hround : RoundsTo x m t) :
    Rounds (signed s x) (.ofModel (Float.Model.pack u)) :=
  ⟨s, x, m, t, rfl, hround, h.value_pack⟩

lemma Canonical.roundsTo {m : ℕ} {e : ℤ} (h : Canonical m e) : RoundsTo (m * 2 ^ e) m e where
  nonneg := by positivity
  le_exponent := h.le_exponent
  lt := by
    rw [two_zpow_eq_natCast_mul (show e ≤ e + 53 by omega), show (e + 53 - e).toNat = 53 by omega]
    exact mul_lt_mul_of_pos_right (Nat.cast_lt.mpr h.mantissa_lt) (by positivity)
  full := h.full.imp_right fun hfull => by
    rw [two_zpow_eq_natCast_mul (show e ≤ e + 52 by omega), show (e + 52 - e).toNat = 52 by omega]
    exact mul_le_mul_of_nonneg_right (Nat.cast_le.mpr hfull) (by positivity)
  near := by
    rw [sub_self, abs_zero]
    positivity

lemma rounds_zero (s : Sign) : Rounds 0 (.ofModel (Float.Model.pack (.zero s))) := by
  have hzero : Canonical 0 (-1074) := ⟨by decide, le_rfl, Or.inl rfl⟩
  have hround := hzero.roundsTo
  rw [Nat.cast_zero, zero_mul] at hround
  have hmagnitude : HasMagnitude s ((0 : ℕ) * 2 ^ (-1074 : ℤ)) (.zero s) := ⟨rfl, by simp⟩
  have hrounds := hmagnitude.rounds hround
  cases s
  · rwa [signed, neg_zero] at hrounds
  · exact hrounds

/-- A finite double is its own rounded value. -/
lemma rounds_self {x : Float} (hx : x.isFinite) :
    Rounds (value x) (.ofModel (Float.Model.pack x.toModel.unpack)) := by
  rcases unpack_cases hx with ⟨s, hunpack, hvalue⟩ | ⟨s, m, e, hm, hunpack, hcanonical, -, hvalue⟩
  · rw [hunpack, hvalue]
    exact rounds_zero s
  · rw [hunpack, hvalue]
    exact HasMagnitude.rounds ⟨rfl, hcanonical, rfl⟩ hcanonical.roundsTo

/-- A double is what its unpacked form is packed to. -/
lemma ofModel_pack_unpack (x : Float) : .ofModel (Float.Model.pack x.toModel.unpack) = x := by
  obtain ⟨⟨bits, hvalid⟩⟩ := x
  simp only [Float.Model.pack, Float.Model.unpack, UnpackedFloat.pack_unpack_of_valid hvalid]

lemma rounds_value {x : Float} (hx : x.isFinite) : Rounds (value x) x := by
  have hself := rounds_self hx
  rwa [ofModel_pack_unpack] at hself

/-! ### Operations -/

lemma rounds_normalize (n : ℤ) (e : ℤ) (s : Sign) :
    Rounds (n * 2 ^ e) (.ofModel (Float.Model.pack
      (UnpackedFloat.normalize Format.binary64 n e s))) := by
  rw [UnpackedFloat.normalize]
  rcases lt_trichotomy n 0 with hneg | rfl | hpos
  · rw [Int.compare_eq_lt.mpr hneg]
    obtain ⟨r, t, hround, hmagnitude⟩ :=
      round_spec .negative (show (-n).toNat ≠ 0 by omega) e
    have hrounds := hmagnitude.rounds hround
    rw [signed_apply_mul, Sign.apply, Int.toNat_of_nonneg (by omega), neg_neg] at hrounds
    exact hrounds
  · rw [Int.compare_eq_eq.mpr rfl, Int.cast_zero, zero_mul]
    exact rounds_zero s
  · rw [Int.compare_eq_gt.mpr hpos]
    obtain ⟨r, t, hround, hmagnitude⟩ := round_spec .positive (show n.toNat ≠ 0 by omega) e
    have hrounds := hmagnitude.rounds hround
    rw [signed_apply_mul, Sign.apply, Int.toNat_of_nonneg hpos.le] at hrounds
    exact hrounds

lemma rounds_ofInt (n : ℤ) : Rounds n (.ofModel (.ofInt n)) := by
  have hrounds := rounds_normalize n 0 .positive
  rw [zpow_zero, mul_one] at hrounds
  exact hrounds

/-- **The double of a word is its rounded value.** -/
theorem rounds_toFloat (n : UInt64) : Rounds n.toNat n.toFloat := by
  rw [← Int.cast_natCast]
  exact rounds_ofInt n.toNat

lemma decreaseExponent_value {m : ℕ} {e t : ℤ} (h : t ≤ e) :
    ((decreaseExponent m e t).1 : ℝ) * 2 ^ t = m * 2 ^ e := by
  rw [two_zpow_eq_natCast_mul h, ← mul_assoc, ← Nat.cast_mul, ← Nat.shiftLeft_eq]
  rfl

/-- **A sum of finite doubles is the rounded sum.** -/
theorem rounds_add {x y : Float} (hx : x.isFinite) (hy : y.isFinite) :
    Rounds (value x + value y) (x + y) := by
  change Rounds _ (.ofModel (Float.Model.pack
    (UnpackedFloat.add Format.binary64 x.toModel.unpack y.toModel.unpack)))
  rcases unpack_cases hx with ⟨s, hxu, hxv⟩ | ⟨s, m, e, hm, hxu, -, -, hxv⟩
  · rcases unpack_cases hy with ⟨s', hyu, hyv⟩ | ⟨s', m', e', hm', hyu, -, -, -⟩
    · rw [hxu, hyu, hxv, hyv, add_zero, UnpackedFloat.add]
      split <;> exact rounds_zero _
    · have hself := rounds_self hy
      rw [hyu] at hself
      rw [hxv, zero_add, hxu, hyu]
      exact hself
  · rcases unpack_cases hy with ⟨s', hyu, hyv⟩ | ⟨s', m', e', hm', hyu, -, -, hyv⟩
    · have hself := rounds_self hx
      rw [hxu] at hself
      rw [hyv, add_zero, hxu, hyu]
      exact hself
    · rw [hxu, hyu, hxv, hyv, UnpackedFloat.add]
      have hsum := rounds_normalize (s.apply (decreaseExponent m e (min e e')).1 +
        s'.apply (decreaseExponent m' e' (min e e')).1) (min e e') .positive
      rw [Int.cast_add, add_mul, ← signed_apply_mul, ← signed_apply_mul,
        decreaseExponent_value (min_le_left e e'), decreaseExponent_value (min_le_right e e')]
        at hsum
      exact hsum

/-- A product has enough bits for its exponent. -/
lemma Canonical.add_le_exponentFor_mul {m m' : ℕ} {e e' : ℤ} (h : Canonical m e)
    (h' : Canonical m' e') (hm : 0 < m) (hm' : 0 < m') :
    e + e' ≤ exponentFor (m * m') (e + e') := by
  rw [exponentFor]
  by_cases hfull : 2 ^ 52 ≤ m * m'
  · have hlog := (Nat.le_log2 (Nat.mul_pos hm hm').ne').mpr hfull
    omega
  · -- neither factor has all its bits, so that both have the least exponent
    have hle := Nat.le_mul_of_pos_right m hm'
    have hle' := Nat.le_mul_of_pos_left m' hm
    have hleast := h.full.resolve_right (by omega)
    have hleast' := h'.full.resolve_right (by omega)
    omega

/-- **A product of finite doubles is the rounded product.** -/
theorem rounds_mul {x y : Float} (hx : x.isFinite) (hy : y.isFinite) :
    Rounds (value x * value y) (x * y) := by
  change Rounds _ (.ofModel (Float.Model.pack
    (UnpackedFloat.mul Format.binary64 x.toModel.unpack y.toModel.unpack)))
  rcases unpack_cases hx with ⟨s, hxu, hxv⟩ | ⟨s, m, e, hm, hxu, hcanonical, -, hxv⟩
  · rcases unpack_cases hy with ⟨s', hyu, -⟩ | ⟨s', m', e', hm', hyu, -, -, -⟩ <;>
      rw [hxu, hyu, hxv, zero_mul] <;> exact rounds_zero _
  · rcases unpack_cases hy with ⟨s', hyu, hyv⟩ | ⟨s', m', e', hm', hyu, hcanonical', -, hyv⟩
    · rw [hxu, hyu, hyv, mul_zero]
      exact rounds_zero _
    · have hproduct : (m * 2 ^ e * (m' * 2 ^ e') : ℝ) = (m * m' : ℕ) * 2 ^ (e + e') := by
        rw [Nat.cast_mul, zpow_add₀ two_ne_zero, mul_mul_mul_comm]
      obtain ⟨r, t, hround, hmagnitude⟩ := roundWithAccuracy_spec (s * s')
        (cutOff_exact (m * m')) (hcanonical.add_le_exponentFor_mul hcanonical' hm hm')
      rw [hxu, hyu, hxv, hyv, UnpackedFloat.mul, signed_mul_signed, hproduct]
      exact hmagnitude.rounds hround

/-- A fraction is cut off to its whole part, and the rest says what is cut off. -/
lemma cutOff_div (m : ℕ) {d : ℕ} (hd : 0 < d) :
    CutOff (.ofMantissaAndAccuracy (m / d) (accuracyOfFraction (m % d) d)) (m / d : ℝ) := by
  have hpos : (0 : ℝ) < d := Nat.cast_pos.mpr hd
  have hsplit : (m : ℝ) / d = (m / d : ℕ) + (m % d : ℕ) / d := by
    rw [div_eq_iff hpos.ne', add_mul, div_mul_cancel₀ _ hpos.ne']
    exact_mod_cast (Nat.div_add_mod' m d).symm
  have hlt : ((m % d : ℕ) : ℝ) < d := Nat.cast_lt.mpr (Nat.mod_lt m hd)
  rw [hsplit, accuracyOfFraction]
  split
  case isTrue hzero =>
    rw [hzero, Nat.cast_zero, zero_div, add_zero]
    exact cutOff_exact _
  case isFalse hne =>
    have hrest : (0 : ℝ) < (m % d : ℕ) := Nat.cast_pos.mpr (Nat.pos_of_ne_zero hne)
    rcases lt_trichotomy (2 * (m % d)) d with hless | hhalf | hmore
    · have hless' : 2 * ((m % d : ℕ) : ℝ) < d := by exact_mod_cast hless
      rw [Nat.compare_eq_lt.mpr hless]
      exact ⟨lt_add_of_pos_right _ (div_pos hrest hpos),
        add_lt_add_right ((div_lt_iff₀ hpos).mpr (by linarith)) _⟩
    · have hhalf' : 2 * ((m % d : ℕ) : ℝ) = d := by exact_mod_cast hhalf
      rw [Nat.compare_eq_eq.mpr hhalf]
      exact congrArg _ ((div_eq_iff hpos.ne').mpr (by linarith))
    · have hmore' : (d : ℝ) < 2 * ((m % d : ℕ) : ℝ) := by exact_mod_cast hmore
      rw [Nat.compare_eq_gt.mpr hmore]
      exact ⟨add_lt_add_right ((lt_div_iff₀ hpos).mpr (by linarith)) _,
        add_lt_add_right ((div_lt_one hpos).mpr hlt) _⟩

/-- The exponent that a quotient is computed at. -/
def quotientExponent (m : ℕ) (e : ℤ) (m' : ℕ) (e' : ℤ) : ℤ :=
  min (e - e') (max (m.log2 + 1 + e - (m'.log2 + 1 + e') - 53) (-1074))

/-- The significand that is divided, with as many more bits as the quotient needs. -/
def dividend (m : ℕ) (e : ℤ) (m' : ℕ) (e' : ℤ) : ℕ :=
  (decreaseExponent m (e - e') (quotientExponent m e m' e')).1

lemma dividend_value (m : ℕ) (e : ℤ) (m' : ℕ) (e' : ℤ) :
    (dividend m e m' e' : ℝ) * 2 ^ quotientExponent m e m' e' = m * 2 ^ (e - e') :=
  decreaseExponent_value (min_le_left _ _)

lemma divCore_eq (m : ℕ) (e : ℤ) (m' : ℕ) (e' : ℤ) :
    divCore Format.binary64 m e m' e' =
      (dividend m e m' e' / m', quotientExponent m e m' e',
        accuracyOfFraction (dividend m e m' e' % m') m') :=
  rfl

/-- The quotient has enough bits for its exponent. -/
lemma quotientExponent_le {m m' : ℕ} (e e' : ℤ) (hm : 0 < m) (hm' : 0 < m') :
    quotientExponent m e m' e' ≤
      exponentFor (dividend m e m' e' / m') (quotientExponent m e m' e') := by
  rw [exponentFor]
  rcases le_or_gt (quotientExponent m e m' e') (-1074) with hleast | hgt
  · exact hleast.trans (le_max_right _ _)
  · have hshift : m'.log2 + 53 ≤ m.log2 + (e - e' - quotientExponent m e m' e').toNat := by
      rw [quotientExponent] at hgt ⊢
      omega
    have hmany : 2 ^ 52 * m' ≤ dividend m e m' e' := by
      calc 2 ^ 52 * m' ≤ 2 ^ 52 * 2 ^ (m'.log2 + 1) :=
            Nat.mul_le_mul_left _ Nat.lt_log2_self.le
        _ = 2 ^ (m'.log2 + 53) := by rw [← pow_add, show 52 + (m'.log2 + 1) = m'.log2 + 53 by omega]
        _ ≤ 2 ^ (m.log2 + (e - e' - quotientExponent m e m' e').toNat) :=
          Nat.pow_le_pow_right two_pos hshift
        _ = 2 ^ m.log2 * 2 ^ (e - e' - quotientExponent m e m' e').toNat := pow_add _ _ _
        _ ≤ m * 2 ^ (e - e' - quotientExponent m e m' e').toNat :=
          Nat.mul_le_mul_right _ (Nat.log2_self_le hm.ne')
        _ = dividend m e m' e' := (Nat.shiftLeft_eq _ _).symm
    have hquotient : 2 ^ 52 ≤ dividend m e m' e' / m' := (Nat.le_div_iff_mul_le hm').mpr hmany
    have hlog := (Nat.le_log2 (by omega)).mpr hquotient
    omega

/-- **A quotient of finite doubles is the rounded quotient.** -/
theorem rounds_div {x y : Float} (hx : x.isFinite) (hy : y.isFinite) (hne : value y ≠ 0) :
    Rounds (value x / value y) (x / y) := by
  change Rounds _ (.ofModel (Float.Model.pack
    (UnpackedFloat.div Format.binary64 x.toModel.unpack y.toModel.unpack)))
  obtain ⟨-, -, hyv⟩ | ⟨s', m', e', hm', hyu, -, -, hyv⟩ := unpack_cases hy
  · exact absurd hyv hne
  rcases unpack_cases hx with ⟨s, hxu, hxv⟩ | ⟨s, m, e, hm, hxu, -, -, hxv⟩
  · rw [hxu, hyu, hxv, zero_div, UnpackedFloat.div]
    exact rounds_zero _
  · have hquotient : (m * 2 ^ e / (m' * 2 ^ e') : ℝ) =
        dividend m e m' e' / m' * 2 ^ quotientExponent m e m' e' := by
      rw [div_mul_eq_mul_div, dividend_value, zpow_sub₀ two_ne_zero, mul_div_assoc', div_div,
        mul_comm (2 ^ e')]
    obtain ⟨r, t, hround, hmagnitude⟩ := roundWithAccuracy_spec (s / s')
      (cutOff_div (dividend m e m' e') hm') (quotientExponent_le e e' hm hm')
    rw [hxu, hyu, hxv, hyv, UnpackedFloat.div, signed_div_signed, divCore_eq, hquotient]
    exact hmagnitude.rounds hround

/-! ### Powers of two -/

lemma Between.pos {x : Float} {a b : ℤ} (h : Between x a b) : 0 < value x :=
  lt_of_lt_of_le (zpow_pos two_pos a) h.two_zpow_le

/-- All positive doubles lie between the least of them and the power above the largest one. -/
lemma between_of_pos {x : Float} (hx : x.isFinite) (hpos : 0 < value x) :
    Between x (-1074) 1024 := by
  obtain ⟨-, -, hvalue⟩ | ⟨s, m, e, hm, -, hcanonical, he, hvalue⟩ := unpack_cases hx
  · exact absurd hvalue hpos.ne'
  have hround := hcanonical.roundsTo
  cases s with
  | negative =>
    have hnonneg := hround.nonneg
    change value x = -(m * 2 ^ e) at hvalue
    linarith
  | positive =>
    have hone : (1 : ℝ) ≤ m := Nat.one_le_cast.mpr hm
    change value x = m * 2 ^ e at hvalue
    refine ⟨hx, ?_, ?_⟩
    · rw [hvalue]
      exact (zpow_le_zpow_right₀ one_le_two hcanonical.le_exponent).trans
        (le_mul_of_one_le_left (by positivity) hone)
    · rw [hvalue]
      exact hround.lt.le.trans (zpow_le_zpow_right₀ one_le_two (by omega))

lemma Between.mono {x : Float} {a b a' b' : ℤ} (h : Between x a b) (ha : a' ≤ a) (hb : b ≤ b') :
    Between x a' b' :=
  ⟨h.isFinite, (zpow_le_zpow_right₀ one_le_two ha).trans h.two_zpow_le,
    h.le_two_zpow.trans (zpow_le_zpow_right₀ one_le_two hb)⟩

lemma between_toFloat {n : UInt64} (hn : n.toNat ≠ 0) :
    Between n.toFloat n.toNat.log2 (n.toNat.log2 + 1) ∧ n.toNat.log2 ≤ 63 := by
  have hlog : n.toNat.log2 < 64 := (Nat.log2_lt hn).mpr n.toNat_lt
  refine ⟨(rounds_toFloat n).between (by omega) (by omega) ?_ ?_, by omega⟩
  · exact_mod_cast Nat.log2_self_le hn
  · exact_mod_cast (Nat.lt_log2_self (n := n.toNat)).le

lemma within_toFloat (n : UInt64) : Within n.toFloat 64 := by
  have hlt : (n.toNat : ℝ) < 2 ^ (64 : ℤ) := by exact_mod_cast n.toNat_lt
  have hhalf : (0 : ℝ) < 2 ^ ((64 : ℤ) - 53) := by positivity
  refine (rounds_toFloat n).within (by omega) (by omega) ?_
  rw [abs_of_nonneg (Nat.cast_nonneg _)]
  linarith

lemma Between.div {x y : Float} {a b c d : ℤ} (hx : Between x a b) (hy : Between y c d)
    (hlow : -1022 ≤ a - d) (hhigh : b - c ≤ 1023) : Between (x / y) (a - d) (b - c) := by
  refine (rounds_div hx.isFinite hy.isFinite hy.pos.ne').between hlow hhigh ?_ ?_
  · rw [zpow_sub₀ two_ne_zero]
    exact div_le_div₀ hx.pos.le hx.two_zpow_le hy.pos hy.le_two_zpow
  · rw [zpow_sub₀ two_ne_zero]
    exact div_le_div₀ (by positivity) hx.le_two_zpow (by positivity) hy.two_zpow_le

end RuneSolver.Double
