import Mathlib.Analysis.SpecialFunctions.Log.Base
import RuneSolver.Proofs.Double.Order
import RuneSolver.Proofs.Language.Frequencies
import RuneSolver.Proofs.Language.Windows

/-!
The smoothing of scores. An n-gram outside a table counts as a hundredth of an occurrence, but one
that is listed with frequency zero counts as nothing. Main statement: the score of a text is finite
unless one of its windows is listed with frequency zero; then it is minus infinity, however the
other windows score. Any other listed n-gram scores above all that are not listed.
-/

namespace RuneSolver.Language

open RuneSolver.Double

/-! ### The logarithm -/

/-- A decimal logarithm of doubles: minus infinity at zero, and elsewhere not further from the
logarithm of the value than a half, where a library is off by some last places only. -/
structure IsDecimalLog (log : Float → Float) : Prop where
  log_zero : ∀ x, x.isFinite → value x = 0 → log x = negativeInfinity
  isFinite : ∀ x, x.isFinite → 0 < value x → (log x).isFinite
  near : ∀ x, x.isFinite → 0 < value x → |value (log x) - Real.logb 10 (value x)| ≤ 1 / 2

lemma logb_two_zpow (a : ℤ) : Real.logb 10 (2 ^ a) = a * Real.logb 10 2 := by
  rw [Real.logb, Real.log_zpow, mul_div_assoc, Real.logb]

/-- Sixteen is more than ten, and the fourteenth power of two is not above the fifth one of ten. -/
lemma logb_two_bounds : 1 < 4 * Real.logb 10 2 ∧ 14 * Real.logb 10 2 ≤ 5 := by
  have hten : (1 : ℝ) < 10 := by norm_num
  constructor
  · have hpow := logb_two_zpow 4
    push_cast at hpow
    rw [← hpow, Real.lt_logb_iff_rpow_lt hten (by norm_num)]
    norm_num
  · have hpow := logb_two_zpow 14
    push_cast at hpow
    rw [← hpow, Real.logb_le_iff_le_rpow hten (by norm_num)]
    norm_num

/-- A number between two powers of two has its logarithm between theirs. -/
lemma logb_value_bounds {x : Float} {a b : ℤ} (hx : Between x a b) :
    a * Real.logb 10 2 ≤ Real.logb 10 (value x) ∧
      Real.logb 10 (value x) ≤ b * Real.logb 10 2 := by
  rw [← logb_two_zpow, ← logb_two_zpow]
  exact ⟨Real.logb_le_logb_of_le (by norm_num) (by positivity) hx.two_zpow_le,
    Real.logb_le_logb_of_le (by norm_num) hx.pos hx.le_two_zpow⟩

namespace IsDecimalLog

variable {log : Float → Float} {x : Float} {a b : ℤ}

lemma between (hlog : IsDecimalLog log) (hx : Between x a b) :
    (log x).isFinite ∧ a * Real.logb 10 2 - 1 / 2 ≤ value (log x) ∧
      value (log x) ≤ b * Real.logb 10 2 + 1 / 2 := by
  obtain ⟨hlow, hhigh⟩ := abs_le.mp (hlog.near x hx.isFinite hx.pos)
  obtain ⟨hle, hge⟩ := logb_value_bounds hx
  exact ⟨hlog.isFinite x hx.isFinite hx.pos, by linarith, by linarith⟩

lemma within (hlog : IsDecimalLog log) (hx : Between x a b) (ha : -100 ≤ a) (hb : b ≤ 100) :
    Within (log x) 7 := by
  obtain ⟨hfinite, hlow, hhigh⟩ := hlog.between hx
  obtain ⟨htwo, hone⟩ := logb_two_bounds
  have hlow' : -100 * Real.logb 10 2 ≤ a * Real.logb 10 2 :=
    mul_le_mul_of_nonneg_right (by exact_mod_cast ha) (by linarith)
  have hhigh' : b * Real.logb 10 2 ≤ 100 * Real.logb 10 2 :=
    mul_le_mul_of_nonneg_right (by exact_mod_cast hb) (by linarith)
  have hbound : (2 : ℝ) ^ (7 : ℤ) = 128 := by norm_num
  refine ⟨hfinite, abs_le.mpr ⟨?_, ?_⟩⟩ <;> linarith

end IsDecimalLog

/-- The quotient of a frequency that is not zero by a sum. -/
lemma between_share {n c : UInt64} (hn : n.toNat ≠ 0) (hc : c.toNat ≠ 0) :
    Between (c.toFloat / n.toFloat) (c.toNat.log2 - (n.toNat.log2 + 1))
      (c.toNat.log2 + 1 - n.toNat.log2) := by
  obtain ⟨hsum, hlog⟩ := between_toFloat hn
  obtain ⟨hcount, hlog'⟩ := between_toFloat hc
  exact hcount.div hsum (by omega) (by omega)

lemma between_hundredth : Between 0.01 (-7) (-6) := by
  have hvalue : value 0.01 = ((5764607523034235 : ℕ) : ℝ) * 2 ^ (-59 : ℤ) := rfl
  refine ⟨by decide +kernel, ?_, ?_⟩ <;> rw [hvalue] <;> norm_num

/-- The quotient of a hundredth by a sum. -/
lemma between_hundredth_share {n : UInt64} (hn : n.toNat ≠ 0) :
    Between (0.01 / n.toFloat) (-7 - (n.toNat.log2 + 1)) (-6 - n.toNat.log2) := by
  obtain ⟨hsum, hlog⟩ := between_toFloat hn
  exact between_hundredth.div hsum (by omega) (by omega)

/-- The quotient of nothing by a sum. -/
lemma zero_share {n : UInt64} (hn : n.toNat ≠ 0) :
    ((0 : UInt64).toFloat / n.toFloat).isFinite ∧ value ((0 : UInt64).toFloat / n.toFloat) = 0 := by
  obtain ⟨hsum, -⟩ := between_toFloat hn
  have hzero : value (0 : UInt64).toFloat = 0 := rfl
  have hfinite : (0 : UInt64).toFloat.isFinite := by decide +kernel
  have hrounds := rounds_div hfinite hsum.isFinite hsum.pos.ne'
  rw [hzero, zero_div, ← Int.cast_zero] at hrounds
  obtain ⟨hshare, hvalue⟩ := hrounds.value_eq (by decide)
  exact ⟨hshare, by rw [hvalue, Int.cast_zero]⟩

/-! ### Models by a logarithm -/

/-- The decimal logarithm with minus infinity at zero. -/
def decimalLog (x : Float) : Float := if x == 0.0 then negativeInfinity else Float.log10 x

namespace Model

/-- The model of frequencies by a logarithm. -/
def ofFrequenciesBy (log : Float → Float) (f : Frequencies) : Model :=
  ⟨f.width, log (0.01 / f.total.toFloat),
    f.counts.map fun _ count => log (count.toFloat / f.total.toFloat)⟩

def parseBy (log : Float → Float) (source : String) (width : ℕ) (separator : Char) :
    Except (Fault FrequencyError) Model :=
  (Frequencies.parse source width separator).map (ofFrequenciesBy log)

variable {log : Float → Float} {source : String} {width : ℕ} {separator : Char}
  {entries : List (String × UInt64)} {m : Model} {total : UInt64}

lemma decimalLog_of_pos {x : Float} {a b : ℤ} (hx : Between x a b) :
    decimalLog x = Float.log10 x :=
  if_neg fun hbeq => hx.pos.ne' ((beq_zero_iff hx.isFinite).mp hbeq)

lemma ofFrequencies_eq {f : Frequencies} (hf : f.total.toNat ≠ 0) :
    ofFrequencies f = ofFrequenciesBy decimalLog f := by
  have hshare : (fun (_ : String) count => logShare count f.total) =
      fun _ count => decimalLog (count.toFloat / f.total.toFloat) := by
    funext _ count
    rw [logShare]
    split
    case isTrue hzero =>
      obtain ⟨hfinite, hvalue⟩ := zero_share hf
      rw [hzero, decimalLog, if_pos ((beq_zero_iff hfinite).mpr hvalue)]
    case isFalse hne =>
      have hcount : count.toNat ≠ 0 := fun h => hne (UInt64.toNat_inj.mp h)
      rw [decimalLog_of_pos (between_share hf hcount)]
  rw [ofFrequencies, ofFrequenciesBy, hshare, logUnseen,
    decimalLog_of_pos (between_hundredth_share hf)]

/-- An accepted table has a sum that is not zero. -/
lemma total_ne_zero {f : Frequencies} (h : Frequencies.parse source width separator = .ok f) :
    f.total.toNat ≠ 0 := by
  obtain ⟨-, entries, total, -, -, hne, rfl⟩ := Frequencies.parse_eq_ok_iff.mp h
  exact fun hzero => hne (UInt64.toNat_inj.mp hzero)

lemma parse_eq_parseBy (source : String) (width : ℕ) (separator : Char) :
    parse source width separator = parseBy decimalLog source width separator := by
  rw [parse, parseBy]
  cases h : Frequencies.parse source width separator with
  | error e => rfl
  | ok f => exact congrArg Except.ok (ofFrequencies_eq (total_ne_zero h))

/-- The scores are the logarithms of the shares of some entries in a sum that is not zero. -/
structure SmoothedBy (m : Model) (log : Float → Float) (width : ℕ)
    (entries : List (String × UInt64)) (total : UInt64) : Prop where
  total_ne_zero : total.toNat ≠ 0
  width_eq : m.width = width
  ngramScore_eq : ∀ ngram, m.ngramScore ngram =
    ((last? entries (String.ofList ngram)).map fun count =>
      log (count.toFloat / total.toFloat)).getD (log (0.01 / total.toFloat))

/-- The sum is the exact one. -/
lemma smoothedBy_of_parseBy (hparse : parseBy log source width separator = .ok m)
    (hentries : HasEntries width separator source entries) :
    ∃ total : UInt64, total.toNat = exactMass entries ∧ m.SmoothedBy log width entries total := by
  rw [parseBy] at hparse
  cases h : Frequencies.parse source width separator with
  | error e =>
    rw [h] at hparse
    cases hparse
  | ok f =>
    rw [h] at hparse
    cases hparse
    have hne := total_ne_zero h
    obtain ⟨-, entries', total, hentries', htotal, -, rfl⟩ := Frequencies.parse_eq_ok_iff.mp h
    rw [hentries.unique hentries']
    refine ⟨total, htotal, hne, rfl, fun ngram => ?_⟩
    rw [ngramScore, Std.HashMap.getD_eq_getD_getElem?, ofFrequenciesBy, Std.HashMap.getElem?_map,
      Counts.getElem?_ofEntries]

namespace SmoothedBy

variable {ngram other : List Char} {count : UInt64}

lemma ngramScore_of_unlisted (h : m.SmoothedBy log width entries total)
    (hngram : last? entries (String.ofList ngram) = none) :
    m.ngramScore ngram = log (0.01 / total.toFloat) := by
  rw [h.ngramScore_eq, hngram]
  rfl

lemma ngramScore_of_listed (h : m.SmoothedBy log width entries total)
    (hngram : last? entries (String.ofList ngram) = some count) :
    m.ngramScore ngram = log (count.toFloat / total.toFloat) := by
  rw [h.ngramScore_eq, hngram]
  rfl

lemma ngramScore_of_zero (h : m.SmoothedBy log width entries total) (hlog : IsDecimalLog log)
    (hngram : last? entries (String.ofList ngram) = some 0) :
    m.ngramScore ngram = negativeInfinity := by
  obtain ⟨hfinite, hvalue⟩ := zero_share h.total_ne_zero
  rw [h.ngramScore_of_listed hngram, hlog.log_zero _ hfinite hvalue]

lemma within_ngramScore (h : m.SmoothedBy log width entries total) (hlog : IsDecimalLog log)
    (hngram : last? entries (String.ofList ngram) ≠ some 0) : Within (m.ngramScore ngram) 7 := by
  obtain ⟨-, htotal⟩ := between_toFloat h.total_ne_zero
  cases hlast : last? entries (String.ofList ngram) with
  | none =>
    rw [h.ngramScore_of_unlisted hlast]
    exact hlog.within (between_hundredth_share h.total_ne_zero) (by omega) (by omega)
  | some count =>
    have hcount : count.toNat ≠ 0 := by
      intro hzero
      rw [hlast, UInt64.toNat_inj.mp (hzero.trans UInt64.toNat_zero.symm)] at hngram
      exact hngram rfl
    obtain ⟨-, hcount'⟩ := between_toFloat hcount
    rw [h.ngramScore_of_listed hlast]
    exact hlog.within (between_share h.total_ne_zero hcount) (by omega) (by omega)

/-- An n-gram that is listed with a positive frequency scores above any that is not listed. -/
lemma ngramScore_lt (h : m.SmoothedBy log width entries total) (hlog : IsDecimalLog log)
    (hngram : last? entries (String.ofList ngram) = some count) (hcount : count.toNat ≠ 0)
    (hother : last? entries (String.ofList other) = none) :
    m.ngramScore other < m.ngramScore ngram := by
  obtain ⟨hfinite, hlow, -⟩ := hlog.between (between_share h.total_ne_zero hcount)
  obtain ⟨hfinite', -, hhigh⟩ := hlog.between (between_hundredth_share h.total_ne_zero)
  obtain ⟨htwo, -⟩ := logb_two_bounds
  rw [h.ngramScore_of_listed hngram, h.ngramScore_of_unlisted hother,
    lt_iff_value_lt hfinite' hfinite]
  -- the shares are five powers of two apart, and the two logarithms are off by less than that
  have hmore : (0 : ℝ) ≤ count.toNat.log2 * Real.logb 10 2 :=
    mul_nonneg (Nat.cast_nonneg _) (by linarith)
  push_cast at hlow hhigh
  linarith

end SmoothedBy

end Model

/-! ### Sums -/

/-- Sums of small scores do not grow: what a score adds to a large sum is rounded away. -/
lemma within_foldl_add {xs : List Float} {sum : Float} (hsum : Within sum 70)
    (hxs : ∀ x ∈ xs, Within x 7) : Within (xs.foldl (· + ·) sum) 70 := by
  induction xs generalizing sum with
  | nil => exact hsum
  | cons x xs ih =>
    have hx := hxs x List.mem_cons_self
    -- a score is less than a half of the last place of numbers as large as the bound
    have hexcess : |value sum + value x| < 2 ^ (70 : ℤ) + 2 ^ (70 - 53 : ℤ) := by
      calc |value sum + value x| ≤ |value sum| + |value x| := abs_add_le _ _
        _ ≤ 2 ^ (70 : ℤ) + 2 ^ (7 : ℤ) := add_le_add hsum.abs_value_le hx.abs_value_le
        _ < 2 ^ (70 : ℤ) + 2 ^ (70 - 53 : ℤ) :=
          add_lt_add_right (zpow_lt_zpow_right₀ one_lt_two (by omega)) _
    have hnext := (rounds_add hsum.isFinite hx.isFinite).within (by omega) (by omega) hexcess
    exact ih hnext fun y hy => hxs y (List.mem_cons_of_mem x hy)

lemma foldl_add_negativeInfinity {xs : List Float}
    (hxs : ∀ x ∈ xs, Within x 7 ∨ x = negativeInfinity) :
    xs.foldl (· + ·) negativeInfinity = negativeInfinity := by
  induction xs with
  | nil => rfl
  | cons x xs ih =>
    rw [List.foldl_cons, negativeInfinity_add ((hxs x List.mem_cons_self).imp_left Within.isFinite)]
    exact ih fun y hy => hxs y (List.mem_cons_of_mem x hy)

/-- One lost score loses the whole sum. -/
lemma foldl_add_of_mem {xs : List Float} {sum : Float} (hsum : Within sum 70)
    (hxs : ∀ x ∈ xs, Within x 7 ∨ x = negativeInfinity)
    (hmem : negativeInfinity ∈ xs) : xs.foldl (· + ·) sum = negativeInfinity := by
  obtain ⟨before, after, rfl, hfirst⟩ := List.eq_append_cons_of_mem hmem
  have hbefore : ∀ x ∈ before, Within x 7 := by
    intro x hx
    refine (hxs x (List.mem_append_left _ hx)).resolve_right ?_
    rintro rfl
    exact hfirst hx
  -- all sums up to the first lost score are finite, and all behind it are lost
  have hfinite := (within_foldl_add hsum hbefore).isFinite
  rw [List.foldl_append, List.foldl_cons, add_negativeInfinity hfinite]
  exact foldl_add_negativeInfinity fun x hx =>
    hxs x (List.mem_append_right _ (List.mem_cons_of_mem _ hx))

/-! ### Texts -/

lemma ne_nil_of_isVaried {cs : List Char} (h : isVaried cs = true) : cs ≠ [] := by
  rintro rfl
  cases h

/-- A text has a window that is listed with frequency zero. -/
def HasZero (entries : List (String × UInt64)) (width : ℕ) (cs : List Char) : Prop :=
  ∃ window ∈ windows width cs, last? entries (String.ofList window) = some 0

namespace Model.SmoothedBy

variable {log : Float → Float} {width : ℕ} {entries : List (String × UInt64)} {m : Model}
  {total : UInt64} {cs : List Char}

lemma sum_eq (m : Model) (ngrams : List (List Char)) :
    m.sum ngrams = (ngrams.map m.ngramScore).foldl (· + ·) 0.0 := by
  rw [sum, List.foldl_map]

lemma within_zero : Within 0.0 70 := by
  have hvalue : value 0.0 = 0 := rfl
  refine ⟨by decide +kernel, ?_⟩
  rw [hvalue, abs_zero]
  positivity

lemma between_length (hcs : cs ≠ []) (hlength : cs.length < 2 ^ 64) :
    Between cs.length.toUInt64.toFloat 0 64 := by
  have hnat : cs.length.toUInt64.toNat = cs.length := UInt64.toNat_ofNat_of_lt' hlength
  have hpos := List.length_pos_of_ne_nil hcs
  obtain ⟨hbetween, hlog⟩ := between_toFloat (n := cs.length.toUInt64) (by omega)
  exact hbetween.mono (by omega) (by omega)

/-- The score of a text without such a window is finite. -/
lemma isFinite_scoreJudged (h : m.SmoothedBy log width entries total) (hlog : IsDecimalLog log)
    (hcs : cs ≠ []) (hlength : cs.length < 2 ^ 64) (hzero : ¬HasZero entries width cs) :
    (m.scoreJudged cs).isFinite := by
  have hsmall : ∀ x ∈ (windows width cs).map m.ngramScore, Within x 7 := by
    intro x hx
    obtain ⟨window, hwindow, rfl⟩ := List.mem_map.mp hx
    exact h.within_ngramScore hlog fun hlast => hzero ⟨window, hwindow, hlast⟩
  have hsum := within_foldl_add within_zero hsmall
  have hbetween := between_length hcs hlength
  have hone : (1 : ℝ) ≤ value cs.length.toUInt64.toFloat := hbetween.two_zpow_le
  rw [scoreJudged_of_ne_nil hcs, sum_eq, h.width_eq]
  refine ((rounds_div hsum.isFinite hbetween.isFinite hbetween.pos.ne').within
    (show -1022 ≤ (70 : ℤ) by omega) (by omega) ?_).isFinite
  rw [abs_div, abs_of_pos hbetween.pos]
  calc |value (((windows width cs).map m.ngramScore).foldl (· + ·) 0.0)| /
        value cs.length.toUInt64.toFloat
      ≤ |value (((windows width cs).map m.ngramScore).foldl (· + ·) 0.0)| :=
        div_le_self (abs_nonneg _) hone
    _ ≤ 2 ^ (70 : ℤ) := hsum.abs_value_le
    _ < 2 ^ (70 : ℤ) + 2 ^ (70 - 53 : ℤ) := lt_add_of_pos_right _ (by positivity)

/-- One such window makes the score minus infinity. -/
lemma scoreJudged_of_hasZero (h : m.SmoothedBy log width entries total) (hlog : IsDecimalLog log)
    (hcs : cs ≠ []) (hlength : cs.length < 2 ^ 64) (hzero : HasZero entries width cs) :
    m.scoreJudged cs = negativeInfinity := by
  obtain ⟨window, hwindow, hlast⟩ := hzero
  have hlost : ∀ x ∈ (windows width cs).map m.ngramScore, Within x 7 ∨ x = negativeInfinity := by
    intro x hx
    obtain ⟨ngram, -, rfl⟩ := List.mem_map.mp hx
    rcases Classical.em (last? entries (String.ofList ngram) = some 0) with hngram | hngram
    · exact Or.inr (h.ngramScore_of_zero hlog hngram)
    · exact Or.inl (h.within_ngramScore hlog hngram)
  have hmem : negativeInfinity ∈ (windows width cs).map m.ngramScore :=
    List.mem_map.mpr ⟨window, hwindow, h.ngramScore_of_zero hlog hlast⟩
  have hbetween := between_length hcs hlength
  rw [scoreJudged_of_ne_nil hcs, sum_eq, h.width_eq,
    foldl_add_of_mem within_zero hlost hmem,
    negativeInfinity_div hbetween.isFinite hbetween.pos]

/-- Scores above minus infinity are those of texts without such a window. -/
lemma negativeInfinity_lt_scoreJudged_iff (h : m.SmoothedBy log width entries total)
    (hlog : IsDecimalLog log) (hcs : cs ≠ []) (hlength : cs.length < 2 ^ 64) :
    negativeInfinity < m.scoreJudged cs ↔ ¬HasZero entries width cs := by
  constructor
  · intro hlt hzero
    rw [h.scoreJudged_of_hasZero hlog hcs hlength hzero] at hlt
    exact not_lt_self _ hlt
  · exact fun hzero => negativeInfinity_lt (h.isFinite_scoreJudged hlog hcs hlength hzero)

end Model.SmoothedBy

end RuneSolver.Language
