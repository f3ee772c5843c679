import RuneSolver.Proofs.Double.Monotone
import RuneSolver.Proofs.Job.Progress

/-!
The percentage of a job as a double. Three roundings lie between the exact ratio and the report: of
the two words, of the product and of the quotient. Main statements: the more is done, the higher the
percentage; of a job that is finished it is a hundred, or the double next to it where the total is
so large that the product is rounded.
-/

namespace RuneSolver.Job.Progress

open RuneSolver.Double

variable {p q : Progress} {total : UInt64}

lemma percent_of_eq_zero (h : p.total = 0) : p.percent = 100.0 := if_pos h

lemma percent_of_ne_zero (h : p.total ≠ 0) :
    p.percent = p.done.toFloat * 100.0 / p.total.toFloat := if_neg h

lemma hundred : (100.0 : Float).isFinite ∧ value 100.0 = 100 := by
  have hvalue : value 100.0 = ((7036874417766400 : ℕ) : ℝ) * 2 ^ (-46 : ℤ) := rfl
  refine ⟨rfl, ?_⟩
  rw [hvalue]
  norm_num

/-- The double below a hundred. -/
lemma below_hundred : (99.99999999999999 : Float).isFinite ∧
    value 99.99999999999999 = 100 - 2 ^ (-46 : ℤ) := by
  have hvalue : value 99.99999999999999 = ((7036874417766399 : ℕ) : ℝ) * 2 ^ (-46 : ℤ) := rfl
  refine ⟨rfl, ?_⟩
  rw [hvalue]
  norm_num

/-- The double above a hundred. -/
lemma above_hundred : (100.00000000000001 : Float).isFinite ∧
    value 100.00000000000001 = 100 + 2 ^ (-46 : ℤ) := by
  have hvalue : value 100.00000000000001 = ((7036874417766401 : ℕ) : ℝ) * 2 ^ (-46 : ℤ) := rfl
  refine ⟨rfl, ?_⟩
  rw [hvalue]
  norm_num

/-! ### Products with a hundred -/

lemma rounds_mul_hundred (n : UInt64) :
    Rounds (value n.toFloat * 100) (n.toFloat * 100.0) := by
  have hproduct := rounds_mul (within_toFloat n).isFinite hundred.1
  rwa [hundred.2] at hproduct

lemma toFloat_mul_hundred_nonneg (n : UInt64) : 0 ≤ value n.toFloat * 100 :=
  mul_nonneg (value_toFloat_nonneg n) (by norm_num)

lemma toFloat_mul_hundred_le (n : UInt64) : value n.toFloat * 100 ≤ 2 ^ (71 : ℤ) := by
  have hle := (le_abs_self _).trans (within_toFloat n).abs_value_le
  norm_num at hle ⊢
  linarith

lemma within_mul_hundred (n : UInt64) : Within (n.toFloat * 100.0) 71 := by
  have hhalf : (0 : ℝ) < 2 ^ ((71 : ℤ) - 53) := by positivity
  have hle := toFloat_mul_hundred_le n
  refine (rounds_mul_hundred n).within (by omega) (by omega) ?_
  rw [abs_of_nonneg (toFloat_mul_hundred_nonneg n)]
  linarith

lemma value_mul_hundred_nonneg (n : UInt64) : 0 ≤ value (n.toFloat * 100.0) :=
  (rounds_mul_hundred n).value_nonneg (toFloat_mul_hundred_nonneg n)
    (le_large (toFloat_mul_hundred_le n) (by omega))

/-- The quotient of a product with a hundred by a total is not larger than the product. -/
lemma quotient_le_large (n : UInt64) (h : total ≠ 0) :
    value (n.toFloat * 100.0) / value total.toFloat ≤ 2 ^ (1023 : ℤ) := by
  have hproduct := (le_abs_self _).trans (within_mul_hundred n).abs_value_le
  have hquotient := div_le_self (value_mul_hundred_nonneg n) (one_le_value_toFloat h)
  exact hquotient.trans (le_large hproduct (by omega))

lemma rounds_percent (h : p.total ≠ 0) :
    Rounds (value (p.done.toFloat * 100.0) / value p.total.toFloat) p.percent := by
  rw [percent_of_ne_zero h]
  exact rounds_div (within_mul_hundred _).isFinite (within_toFloat _).isFinite
    (value_toFloat_pos h).ne'

lemma isFinite_percent (p : Progress) : p.percent.isFinite := by
  rcases eq_or_ne p.total 0 with h | h
  · rw [percent_of_eq_zero h]
    exact hundred.1
  · have hnonneg := div_nonneg (value_mul_hundred_nonneg p.done) (value_toFloat_nonneg p.total)
    obtain ⟨-, -, -, hfinite, -⟩ :=
      (rounds_percent h).exists_roundsTo hnonneg (quotient_le_large p.done h)
    exact hfinite

/-- **The more is done, the higher the percentage.** -/
theorem percent_le_percent (htotal : p.total = q.total) (h : p.done ≤ q.done) :
    p.percent ≤ q.percent := by
  rw [le_iff_value_le (isFinite_percent p) (isFinite_percent q)]
  rcases eq_or_ne q.total 0 with hzero | hne
  · rw [percent_of_eq_zero hzero, percent_of_eq_zero (htotal.trans hzero)]
  · have hproducts : value (p.done.toFloat * 100.0) ≤ value (q.done.toFloat * 100.0) := by
      refine value_mul_le_value_mul hundred.1 ?_ (within_toFloat _).isFinite
        (within_toFloat _).isFinite (value_toFloat_nonneg _) (value_toFloat_le_value_toFloat h) ?_
      · rw [hundred.2]
        norm_num
      · rw [hundred.2]
        exact le_large (toFloat_mul_hundred_le _) (by omega)
    rw [percent_of_ne_zero hne, percent_of_ne_zero (htotal ▸ hne), htotal]
    exact value_div_le_value_div (within_toFloat _).isFinite (value_toFloat_pos hne)
      (within_mul_hundred _).isFinite (within_mul_hundred _).isFinite (value_mul_hundred_nonneg _)
      hproducts (quotient_le_large _ hne)

/-! ### Finished jobs -/

/-- A job of which everything is done. -/
def finished (total : UInt64) : Progress := ⟨total, total⟩

lemma ratio_finished (total : UInt64) : (finished total).ratio = 100 := ratio_of_done rfl

/-- The double of the quotient is rounded from a number that is much nearer to a hundred than the
doubles next to it. -/
lemma abs_quotient_sub_lt (h : total ≠ 0) :
    |value (total.toFloat * 100.0) / value total.toFloat - 100| < 2 ^ (-46 : ℤ) := by
  have hone := one_le_value_toFloat h
  have hpos := value_toFloat_pos h
  have hnear := (rounds_mul_hundred total).abs_value_sub_le
    ((zpow_le_one_of_nonpos₀ one_le_two (by omega)).trans (by linarith))
    (le_large (toFloat_mul_hundred_le total) (by omega))
  rw [div_sub' hpos.ne', abs_div, abs_of_pos hpos, div_lt_iff₀ hpos]
  calc |value (total.toFloat * 100.0) - value total.toFloat * 100|
      ≤ value total.toFloat * 100 * 2 ^ (-53 : ℤ) := hnear
    _ = 100 * 2 ^ (-53 : ℤ) * value total.toFloat := by ring
    _ < 2 ^ (-46 : ℤ) * value total.toFloat := mul_lt_mul_of_pos_right (by norm_num) hpos

/-- **A finished job reports a hundred, up to the last place.** -/
theorem percent_finished_bounds (total : UInt64) :
    99.99999999999999 ≤ (finished total).percent ∧
      (finished total).percent ≤ 100.00000000000001 := by
  rw [le_iff_value_le below_hundred.1 (isFinite_percent _),
    le_iff_value_le (isFinite_percent _) above_hundred.1, below_hundred.2, above_hundred.2]
  rcases eq_or_ne total 0 with rfl | h
  · rw [percent_of_eq_zero rfl, hundred.2]
    constructor <;> norm_num
  · obtain ⟨hlow, hhigh⟩ := abs_lt.mp (abs_quotient_sub_lt h)
    have hsmall : (2 : ℝ) ^ (-46 : ℤ) ≤ 1 := zpow_le_one_of_nonpos₀ one_le_two (by omega)
    have hlarge : (100 + 2 ^ (-46 : ℤ) : ℝ) ≤ 2 ^ (1023 : ℤ) :=
      le_large (b := 7) (by norm_num) (by omega)
    have hrounds : Rounds (value (total.toFloat * 100.0) / value total.toFloat)
        (finished total).percent := rounds_percent (p := finished total) h
    have hbelow := rounds_value below_hundred.1
    have habove := rounds_value above_hundred.1
    rw [below_hundred.2] at hbelow
    rw [above_hundred.2] at habove
    rw [← below_hundred.2, ← above_hundred.2]
    exact ⟨hbelow.value_le_value hrounds (by linarith) (by linarith) (quotient_le_large total h),
      hrounds.value_le_value habove (by linarith) (by linarith) hlarge⟩

/-- **A finished job reports a hundred** as long as twenty-five times its total has at most
fifty-three bits. -/
theorem percent_finished (h : 25 * total.toNat < 2 ^ 53) : (finished total).percent = 100.0 := by
  rcases eq_or_ne total 0 with rfl | hne
  · exact percent_of_eq_zero rfl
  have hproduct := rounds_mul_hundred total
  have hfactors : value total.toFloat * 100 = ((25 * total.toNat : ℕ) : ℤ) * 2 ^ 2 := by
    rw [value_toFloat (by omega)]
    push_cast
    ring
  rw [hfactors] at hproduct
  have hvalue := (hproduct.value_eq_mul (by omega) (by omega)).2
  have hquotient : Rounds (value (total.toFloat * 100.0) / value total.toFloat)
      (finished total).percent := rounds_percent (p := finished total) hne
  rw [hvalue, ← hfactors, mul_div_cancel_left₀ _ (value_toFloat_pos hne).ne',
    ← Int.cast_ofNat] at hquotient
  obtain ⟨hfinite, heq⟩ := hquotient.value_eq (by decide)
  have hhundred : value (finished total).percent = value 100.0 := by
    rw [heq, hundred.2, Int.cast_ofNat]
  exact eq_of_value_eq hfinite hundred.1 (by rw [hhundred, hundred.2]; norm_num) hhundred

/-- Above the bound the report can miss a hundred by the last place, on either side. -/
example : (finished 360287970189641).percent < 100.0 ∧
    100.0 < (finished 360287970189643).percent := by decide

end RuneSolver.Job.Progress
