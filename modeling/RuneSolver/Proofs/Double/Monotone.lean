import RuneSolver.Proofs.Double.Order

/-!
Functions of doubles that keep their order. What rounds a strictly increasing function keeps the
order of doubles, but where the function has different values, the rounded ones may be equal. Main
statements: the doubles of words, products with a positive double and quotients by one are such
functions.
-/

namespace RuneSolver.Double

variable {x y c : Float} {m n : UInt64}

/-- Rounding asks for a bound far above all that words lead to. -/
lemma le_large {r : ℝ} {b : ℤ} (hr : r ≤ 2 ^ b) (hb : b ≤ 1023) : r ≤ 2 ^ (1023 : ℤ) :=
  hr.trans (zpow_le_zpow_right₀ one_le_two hb)

/-- **Rounding a strictly increasing function keeps the order of doubles.** -/
theorem value_le_value_of_rounds {f : Float → Float} {g : ℝ → ℝ}
    (hf : ∀ z, z.isFinite → Rounds (g (value z)) (f z)) (hg : StrictMono g) (hzero : g 0 = 0)
    (hx : x.isFinite) (hy : y.isFinite) (hnonneg : 0 ≤ value x) (hle : value x ≤ value y)
    (hbound : g (value y) ≤ 2 ^ (1023 : ℤ)) : value (f x) ≤ value (f y) := by
  have hfx := hf x hx
  have hfy := hf y hy
  rcases hle.eq_or_lt with heq | hlt
  · -- a value has one double only, except zero, which stays zero
    rcases hnonneg.eq_or_lt with hnone | hpos
    · rw [← hnone, hzero, ← Int.cast_zero] at hfx
      rw [← heq, ← hnone, hzero, ← Int.cast_zero] at hfy
      rw [(hfx.value_eq (by decide)).2, (hfy.value_eq (by decide)).2]
    · rw [eq_of_value_eq hx hy hpos.ne' heq]
  · exact hfx.value_le_value hfy (hzero ▸ hg.monotone hnonneg) (hg hlt) hbound

lemma value_mul_le_value_mul (hc : c.isFinite) (hpos : 0 < value c) (hx : x.isFinite)
    (hy : y.isFinite) (hnonneg : 0 ≤ value x) (hle : value x ≤ value y)
    (hbound : value y * value c ≤ 2 ^ (1023 : ℤ)) : value (x * c) ≤ value (y * c) :=
  value_le_value_of_rounds (f := (· * c)) (g := (· * value c)) (fun _ hz => rounds_mul hz hc)
    (fun _ _ hlt => mul_lt_mul_of_pos_right hlt hpos) (zero_mul _) hx hy hnonneg hle hbound

lemma value_div_le_value_div (hc : c.isFinite) (hpos : 0 < value c) (hx : x.isFinite)
    (hy : y.isFinite) (hnonneg : 0 ≤ value x) (hle : value x ≤ value y)
    (hbound : value y / value c ≤ 2 ^ (1023 : ℤ)) : value (x / c) ≤ value (y / c) :=
  value_le_value_of_rounds (f := (· / c)) (g := (· / value c))
    (fun _ hz => rounds_div hz hc hpos.ne')
    (fun _ _ hlt => div_lt_div_of_pos_right hlt hpos) (zero_div _) hx hy hnonneg hle hbound

/-! ### Words -/

lemma natCast_toNat_le (n : UInt64) : (n.toNat : ℝ) ≤ 2 ^ (1023 : ℤ) := by
  have hlt : (n.toNat : ℝ) < 2 ^ (64 : ℤ) := by exact_mod_cast n.toNat_lt
  exact le_large hlt.le (by omega)

lemma value_toFloat_nonneg (n : UInt64) : 0 ≤ value n.toFloat :=
  (rounds_toFloat n).value_nonneg (Nat.cast_nonneg _) (natCast_toNat_le n)

lemma value_toFloat_le_value_toFloat (h : m ≤ n) : value m.toFloat ≤ value n.toFloat := by
  rcases (UInt64.le_iff_toNat_le.mp h).eq_or_lt with heq | hlt
  · rw [UInt64.toNat_inj.mp heq]
  · exact (rounds_toFloat m).value_le_value (rounds_toFloat n) (Nat.cast_nonneg _)
      (Nat.cast_lt.mpr hlt) (natCast_toNat_le n)

lemma one_le_value_toFloat (h : n ≠ 0) : 1 ≤ value n.toFloat := by
  have hne : n.toNat ≠ 0 := fun hzero => h (UInt64.toNat_inj.mp hzero)
  exact (one_le_zpow₀ one_le_two (Int.natCast_nonneg _)).trans (between_toFloat hne).1.two_zpow_le

lemma value_toFloat_pos (h : n ≠ 0) : 0 < value n.toFloat :=
  zero_lt_one.trans_le (one_le_value_toFloat h)

/-- Words of at most fifty-three bits are not changed. -/
lemma value_toFloat (h : n.toNat < 2 ^ 53) : value n.toFloat = n.toNat := by
  have hrounds := rounds_toFloat n
  rw [← Int.cast_natCast] at hrounds ⊢
  exact (hrounds.value_eq h).2

end RuneSolver.Double
