import RuneSolver.Language.Model
import RuneSolver.Proofs.Double.Arithmetic
import RuneSolver.Proofs.Language.Order

/-!
The order of doubles. Main statements: finite doubles are ordered by their values, and minus
infinity is below all of them; a sum with it and a quotient of it by a positive number are minus
infinity again.
-/

namespace RuneSolver.Double

open Float.Model
open Float.Model.UnpackedFloat
open RuneSolver.Language

/-! ### Finite doubles -/

/-- The magnitude grows with the exponent first and with the significand second. -/
lemma Canonical.mul_lt_mul {m m' : ℕ} {e e' : ℤ} (h : Canonical m e) (h' : Canonical m' e')
    (hlt : e < e' ∨ e = e' ∧ m < m') : (m * 2 ^ e : ℝ) < m' * 2 ^ e' := by
  have hunit : (0 : ℝ) < 2 ^ e := by positivity
  rcases hlt with hlt | ⟨rfl, hlt⟩
  · have hfull : 2 ^ 52 ≤ m' := h'.full.resolve_left (by have := h.le_exponent; omega)
    have hmant := h.mantissa_lt
    have hunits : m < m' * 2 ^ (e' - e).toNat := by
      calc m < 2 ^ 52 * 2 ^ 1 := by omega
        _ ≤ m' * 2 ^ (e' - e).toNat :=
          Nat.mul_le_mul hfull (Nat.pow_le_pow_right two_pos (by omega))
    rw [two_zpow_eq_natCast_mul hlt.le, ← mul_assoc, ← Nat.cast_mul]
    exact mul_lt_mul_of_pos_right (Nat.cast_lt.mpr hunits) hunit
  · exact mul_lt_mul_of_pos_right (Nat.cast_lt.mpr hlt) hunit

/-- A place of a finite double, with the value there. -/
inductive Places (p : Rank) (x : ℝ) : Prop
  | zero (place : p = ⟨0, 0, 0⟩) (value : x = 0)
  | negative {m : ℕ} {e : ℤ} (pos : 0 < m) (canonical : Canonical m e) (place : p = ⟨-1, -e, -m⟩)
    (value : x = -(m * 2 ^ e))
  | positive {m : ℕ} {e : ℤ} (pos : 0 < m) (canonical : Canonical m e) (place : p = ⟨1, e, m⟩)
    (value : x = m * 2 ^ e)

lemma exists_places {x : Float} (hx : x.isFinite) :
    ∃ p, rankOf? x = some p ∧ Places p (value x) := by
  rw [rankOf?]
  rcases unpack_cases hx with ⟨s, hunpack, hvalue⟩ | ⟨s, m, e, hm, hunpack, hcanonical, -, hvalue⟩
  · rw [hunpack, hvalue]
    exact ⟨⟨0, 0, 0⟩, rfl, .zero rfl rfl⟩
  · rw [hunpack, hvalue]
    cases s with
    | negative => exact ⟨⟨-1, -e, -m⟩, rfl, .negative hm hcanonical rfl rfl⟩
    | positive => exact ⟨⟨1, e, m⟩, rfl, .positive hm hcanonical rfl rfl⟩

namespace Places

variable {p q : Rank} {x y : ℝ}

lemma lt (hp : Places p x) (hq : Places q y) (h : p.Before q) : x < y := by
  have hmagnitude {m : ℕ} {e : ℤ} (hm : 0 < m) : (0 : ℝ) < m * 2 ^ e :=
    mul_pos (Nat.cast_pos.mpr hm) (by positivity)
  rcases hp with ⟨rfl, rfl⟩ | ⟨hm, hcanonical, rfl, rfl⟩ | ⟨hm, hcanonical, rfl, rfl⟩ <;>
    rcases hq with ⟨rfl, rfl⟩ | ⟨hm', hcanonical', rfl, rfl⟩ | ⟨hm', hcanonical', rfl, rfl⟩ <;>
    simp only [Rank.Before] at h
  case zero.zero => omega
  case zero.negative => omega
  case zero.positive => exact hmagnitude hm'
  case negative.zero => exact neg_lt_zero.mpr (hmagnitude hm)
  case negative.negative => exact neg_lt_neg (hcanonical'.mul_lt_mul hcanonical (by omega))
  case negative.positive => exact (neg_lt_zero.mpr (hmagnitude hm)).trans (hmagnitude hm')
  case positive.zero => omega
  case positive.negative => omega
  case positive.positive => exact hcanonical.mul_lt_mul hcanonical' (by omega)

lemma unique (hx : Places p x) (hy : Places p y) : x = y := by
  rcases hx with ⟨rfl, rfl⟩ | ⟨-, -, rfl, rfl⟩ | ⟨-, -, rfl, rfl⟩ <;>
    rcases hy with ⟨hp, rfl⟩ | ⟨-, -, hp, rfl⟩ | ⟨-, -, hp, rfl⟩ <;>
    simp_all

end Places

/-- **Finite doubles are ordered by their values.** -/
theorem lt_iff_value_lt {x y : Float} (hx : x.isFinite) (hy : y.isFinite) :
    x < y ↔ value x < value y := by
  obtain ⟨p, hpx, hp⟩ := exists_places hx
  obtain ⟨q, hqy, hq⟩ := exists_places hy
  have hbefore : x < y ↔ p.Before q := by
    rw [lt_iff_before, hpx, hqy]
    simp
  rw [hbefore]
  refine ⟨hp.lt hq, fun hlt => ?_⟩
  -- places of which none is before the other are one place, and then the values are equal
  by_contra hnot
  rcases Classical.em (q.Before p) with hqp | hqp
  · exact lt_asymm hlt (hq.lt hp hqp)
  · obtain rfl := Rank.eq_of_not_before hnot hqp
    exact hlt.ne (hp.unique hq)

theorem le_iff_value_le {x y : Float} (hx : x.isFinite) (hy : y.isFinite) :
    x ≤ y ↔ value x ≤ value y := by
  obtain ⟨p, hpx, -⟩ := exists_places hx
  obtain ⟨q, hqy, -⟩ := exists_places hy
  have hle : x ≤ y ↔ (x.toModel.unpack.compare y.toModel.unpack).any (·.isLE) = true := by
    change decide ((x.toModel.unpack.compare y.toModel.unpack).any (·.isLE) = true) = true ↔ _
    rw [decide_eq_true_iff]
  have hnot : x ≤ y ↔ ¬y < x := by
    rw [hle, compare_eq_rank, ← rankOf?, ← rankOf?, lt_iff_before, hpx, hqy]
    simp [Rank.isLE_compare_iff]
  rw [hnot, lt_iff_value_lt hy hx, not_lt]

lemma Canonical.eq_of_mul_eq {m m' : ℕ} {e e' : ℤ} (h : Canonical m e) (h' : Canonical m' e')
    (heq : (m * 2 ^ e : ℝ) = m' * 2 ^ e') : m = m' ∧ e = e' := by
  rcases lt_trichotomy e e' with hlt | rfl | hlt
  · exact absurd heq (h.mul_lt_mul h' (Or.inl hlt)).ne
  · have hunit : (2 : ℝ) ^ e ≠ 0 := by positivity
    exact ⟨Nat.cast_injective (mul_right_cancel₀ hunit heq), rfl⟩
  · exact absurd heq.symm (h'.mul_lt_mul h (Or.inl hlt)).ne

lemma eq_of_signed_eq {s s' : Sign} {x y : ℝ} (hx : 0 < x) (hy : 0 < y)
    (h : signed s x = signed s' y) : s = s' ∧ x = y := by
  cases s <;> cases s' <;> simp only [signed] at h
  case negative.negative => exact ⟨rfl, neg_injective h⟩
  case negative.positive => linarith
  case positive.negative => linarith
  case positive.positive => exact ⟨rfl, h⟩

/-- Finite doubles with the same value are equal, zeros apart. -/
lemma eq_of_value_eq {x y : Float} (hx : x.isFinite) (hy : y.isFinite) (hne : value x ≠ 0)
    (h : value x = value y) : x = y := by
  obtain ⟨-, -, hzero⟩ | ⟨s, m, e, hm, hxu, hcanonical, -, hxv⟩ := unpack_cases hx
  · exact absurd hzero hne
  obtain ⟨-, -, hzero⟩ | ⟨s', m', e', hm', hyu, hcanonical', -, hyv⟩ := unpack_cases hy
  · exact absurd (h.trans hzero) hne
  have hpos : (0 : ℝ) < m * 2 ^ e := by positivity
  have hpos' : (0 : ℝ) < m' * 2 ^ e' := by positivity
  obtain ⟨rfl, hmagnitude⟩ := eq_of_signed_eq hpos hpos' (hxv.symm.trans (h.trans hyv))
  obtain ⟨rfl, rfl⟩ := hcanonical.eq_of_mul_eq hcanonical' hmagnitude
  rw [← ofModel_pack_unpack x, hxu, ← hyu, ofModel_pack_unpack]

/-- Both zeros are equal to zero, and nothing else that is finite is. -/
lemma beq_zero_iff {x : Float} (hx : x.isFinite) : (x == 0.0) = true ↔ value x = 0 := by
  have hzero : (0.0 : Float).toModel.unpack = .zero .positive := rfl
  have hbeq : (x == 0.0) = (x.toModel.unpack.compare (.zero .positive) == some .eq) := by
    rw [← hzero]
    rfl
  rw [hbeq]
  rcases unpack_cases hx with ⟨s, hunpack, hvalue⟩ | ⟨s, m, e, hm, hunpack, -, -, hvalue⟩
  · rw [hunpack, hvalue]
    exact iff_of_true rfl rfl
  · have hpos : (0 : ℝ) < m * 2 ^ e := mul_pos (Nat.cast_pos.mpr hm) (by positivity)
    have hne : value x ≠ 0 := by
      rw [hvalue, ← abs_pos, abs_signed]
      exact abs_pos.mpr hpos.ne'
    rw [hunpack]
    refine iff_of_false ?_ hne
    cases s <;> exact Bool.false_ne_true

/-! ### Minus infinity -/

lemma negativeInfinity_eq :
    negativeInfinity = .ofModel (Float.Model.pack (.infinity .negative)) := by
  decide +kernel

lemma unpack_negativeInfinity : negativeInfinity.toModel.unpack = .infinity .negative := by
  rw [negativeInfinity_eq]
  rfl

lemma not_isFinite_negativeInfinity : ¬negativeInfinity.isFinite := by
  decide +kernel

lemma negativeInfinity_lt {x : Float} (hx : x.isFinite) : negativeInfinity < x := by
  obtain ⟨p, hpx, hp⟩ := exists_places hx
  refine lt_iff_before.mpr ⟨⟨-2, 0, 0⟩, p, ?_, hpx, Or.inl ?_⟩
  · rw [rankOf?, unpack_negativeInfinity]
    rfl
  · rcases hp with ⟨rfl, -⟩ | ⟨-, -, rfl, -⟩ | ⟨-, -, rfl, -⟩ <;> norm_num

lemma negativeInfinity_add {x : Float} (hx : x.isFinite ∨ x = negativeInfinity) :
    negativeInfinity + x = negativeInfinity := by
  have hsum : negativeInfinity + x = .ofModel (Float.Model.pack
      (UnpackedFloat.add Format.binary64 (.infinity .negative) x.toModel.unpack)) := by
    rw [← unpack_negativeInfinity]
    rfl
  rw [hsum, negativeInfinity_eq]
  rcases hx with hx | rfl
  · rcases unpack_cases hx with ⟨s, hunpack, -⟩ | ⟨s, m, e, hm, hunpack, -⟩ <;> rw [hunpack] <;> rfl
  · rw [unpack_negativeInfinity]
    rfl

lemma add_negativeInfinity {x : Float} (hx : x.isFinite) :
    x + negativeInfinity = negativeInfinity := by
  have hsum : x + negativeInfinity = .ofModel (Float.Model.pack
      (UnpackedFloat.add Format.binary64 x.toModel.unpack (.infinity .negative))) := by
    rw [← unpack_negativeInfinity]
    rfl
  rw [hsum, negativeInfinity_eq]
  rcases unpack_cases hx with ⟨s, hunpack, -⟩ | ⟨s, m, e, hm, hunpack, -⟩ <;> rw [hunpack] <;> rfl

lemma negativeInfinity_div {x : Float} (hx : x.isFinite) (hpos : 0 < value x) :
    negativeInfinity / x = negativeInfinity := by
  have hquotient : negativeInfinity / x = .ofModel (Float.Model.pack
      (UnpackedFloat.div Format.binary64 (.infinity .negative) x.toModel.unpack)) := by
    rw [← unpack_negativeInfinity]
    rfl
  obtain ⟨-, -, hzero⟩ | ⟨s, m, e, hm, hunpack, -, -, hvalue⟩ := unpack_cases hx
  · exact absurd hzero hpos.ne'
  cases s with
  | negative =>
    have hnonneg : (0 : ℝ) ≤ m * 2 ^ e := by positivity
    change value x = -(m * 2 ^ e) at hvalue
    linarith
  | positive =>
    rw [hquotient, hunpack, negativeInfinity_eq]
    rfl

end RuneSolver.Double
