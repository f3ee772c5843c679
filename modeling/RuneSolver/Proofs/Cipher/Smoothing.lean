import Mathlib.Algebra.Order.Round
import RuneSolver.Proofs.Cipher.Selection
import RuneSolver.Proofs.Language.Smoothing

/-!
The texts that a search can select. Main statement: a text with enough different characters is a
candidate unless one of its windows is listed with frequency zero, whatever its other windows are.
-/

namespace RuneSolver.Cipher.Solver

open RuneSolver.Language

/-- A search finds a candidate if one of its texts is varied and scores above minus infinity. -/
lemma isSome_search_iff {s : Solver} {formulas : List Formula} {d : Document} :
    (s.search formulas d).isSome ↔ ∃ trial ∈ s.trials formulas, ∃ text,
      s.decipher trial.1 d trial.2 = .ok text ∧ isVaried (judged text) = true ∧
        negativeInfinity < s.model.score text := by
  have hcandidate : ∀ f shift, (s.candidate? d f shift).isSome ↔ ∃ text,
      s.decipher f d shift = .ok text ∧ isVaried (judged text) = true ∧
        negativeInfinity < s.model.score text := by
    intro f shift
    rw [candidate?]
    cases s.decipher f d shift with
    | error e => simp
    | ok text => simp
  simp only [← hcandidate]
  rw [Option.isSome_iff_ne_none, search_eq_foldl_better, ne_eq,
    foldl_better_eq_none_iff fun _ => lt_score_of_mem_candidates, candidates,
    List.filterMap_eq_nil_iff]
  push Not
  simp only [ne_eq, Option.isSome_iff_ne_none]

end RuneSolver.Cipher.Solver

namespace RuneSolver.Language

open RuneSolver.Double RuneSolver.Cipher

variable {log : Float → Float} {source : String} {width : ℕ} {separator : Char}
  {entries : List (String × UInt64)} {m : Model}

namespace Model

/-- **Smoothing fails for n-grams that are listed with frequency zero, and for them only.** A text
scores finite unless one of its windows is listed so; then it scores minus infinity. Of the other
n-grams, each listed one scores above all that are not listed. A search finds a candidate if one of
its texts is varied and has no such window. -/
theorem isFinite_score_iff (log : Float → Float) (hlog : IsDecimalLog log)
    (hparse : parseBy log source width separator = .ok m)
    (hentries : HasEntries width separator source entries) :
    parse source width separator = parseBy decimalLog source width separator ∧
      (∀ text, judged text ≠ [] → (judged text).length < 2 ^ 64 →
        ((m.score text).isFinite ↔ ¬HasZero entries width (judged text)) ∧
          (HasZero entries width (judged text) → m.score text = negativeInfinity)) ∧
      (∀ ngram other count, last? entries (String.ofList ngram) = some count →
        last? entries (String.ofList other) = none →
          (count ≠ 0 → m.ngramScore other < m.ngramScore ngram) ∧
            (count = 0 → m.ngramScore ngram < m.ngramScore other)) ∧
      ∀ (s : Solver) (formulas : List Formula) (d : Document), s.model = m →
        (∀ trial ∈ s.trials formulas, ∀ text, s.decipher trial.1 d trial.2 = .ok text →
          (judged text).length < 2 ^ 64) →
        ((s.search formulas d).isSome ↔ ∃ trial ∈ s.trials formulas, ∃ text,
          s.decipher trial.1 d trial.2 = .ok text ∧ isVaried (judged text) = true ∧
            ¬HasZero entries width (judged text)) := by
  obtain ⟨total, -, hm⟩ := smoothedBy_of_parseBy hparse hentries
  refine ⟨parse_eq_parseBy source width separator, fun text htext hlength => ⟨?_, ?_⟩, ?_, ?_⟩
  · constructor
    · intro hfinite hzero
      rw [score, hm.scoreJudged_of_hasZero hlog htext hlength hzero] at hfinite
      exact not_isFinite_negativeInfinity hfinite
    · exact hm.isFinite_scoreJudged hlog htext hlength
  · exact hm.scoreJudged_of_hasZero hlog htext hlength
  · intro ngram other count hngram hother
    refine ⟨fun hcount => ?_, ?_⟩
    · exact hm.ngramScore_lt hlog hngram (fun h => hcount (UInt64.toNat_inj.mp h)) hother
    · rintro rfl
      rw [hm.ngramScore_of_zero hlog hngram]
      exact negativeInfinity_lt (hm.within_ngramScore hlog
        (by rw [hother]; exact (Option.some_ne_none 0).symm)).isFinite
  · rintro s formulas d rfl hlength
    rw [Solver.isSome_search_iff]
    constructor
    · rintro ⟨trial, htrial, text, htext, hvaried, hlt⟩
      exact ⟨trial, htrial, text, htext, hvaried, (hm.negativeInfinity_lt_scoreJudged_iff hlog
        (ne_nil_of_isVaried hvaried) (hlength trial htrial text htext)).mp hlt⟩
    · rintro ⟨trial, htrial, text, htext, hvaried, hzero⟩
      exact ⟨trial, htrial, text, htext, hvaried, (hm.negativeInfinity_lt_scoreJudged_iff hlog
        (ne_nil_of_isVaried hvaried) (hlength trial htrial text htext)).mpr hzero⟩

end Model

/-! ### A table with a frequency of zero -/

/-- The whole number next to the decimal logarithm, which is the logarithm of a power of ten. -/
noncomputable def nearestLog (x : Float) : Float :=
  if value x = 0 then negativeInfinity
  else .ofModel (.ofInt (round (Real.logb 10 (value x))))

lemma nearestLog_of_pos {x : Float} (hx : x.isFinite) (hpos : 0 < value x) :
    (nearestLog x).isFinite ∧ value (nearestLog x) = round (Real.logb 10 (value x)) := by
  rw [nearestLog, if_neg hpos.ne']
  refine (rounds_ofInt _).value_eq ?_
  obtain ⟨hlow, hhigh⟩ := logb_value_bounds (between_of_pos hx hpos)
  obtain ⟨htwo, hone⟩ := logb_two_bounds
  have hnear := abs_le.mp (abs_sub_round (Real.logb 10 (value x)))
  push_cast at hlow hhigh
  have hge : (-2000 : ℝ) ≤ round (Real.logb 10 (value x)) := by linarith
  have hle : (round (Real.logb 10 (value x)) : ℝ) ≤ 2000 := by linarith
  have hge' : -2000 ≤ round (Real.logb 10 (value x)) := by exact_mod_cast hge
  have hle' : round (Real.logb 10 (value x)) ≤ 2000 := by exact_mod_cast hle
  omega

lemma isDecimalLog_nearestLog : IsDecimalLog nearestLog where
  log_zero x _ hzero := if_pos hzero
  isFinite x hx hpos := (nearestLog_of_pos hx hpos).1
  near x hx hpos := by
    rw [(nearestLog_of_pos hx hpos).2, abs_sub_comm]
    exact abs_sub_round _

/-- One and a hundredth have the logarithms zero and minus two. -/
lemma nearestLog_values : nearestLog 1.0 = 0.0 ∧ nearestLog 0.01 = -2.0 := by
  have hone : value 1.0 = 1 := by
    have hvalue : value 1.0 = ((4503599627370496 : ℕ) : ℝ) * 2 ^ (-52 : ℤ) := rfl
    rw [hvalue]
    norm_num
  have hround : round (Real.logb 10 (value 0.01)) = -2 := by
    obtain ⟨hlow, hhigh⟩ := logb_value_bounds between_hundredth
    obtain ⟨hquarter, hthird⟩ := logb_two_bounds
    push_cast at hlow hhigh
    rw [round_eq, Int.floor_eq_iff]
    push_cast
    constructor <;> linarith
  constructor
  · rw [nearestLog, hone, if_neg one_ne_zero, Real.logb_one, round_zero]
    decide +kernel
  · rw [nearestLog, if_neg between_hundredth.pos.ne', hround]
    decide +kernel

/-- The texts of the line by its indices. -/
lemma text_of_trial {m : Model} {shiftMode : Bool} {trial : Formula × UInt64} {text : List Char}
    (htrial : trial ∈ (solverWith m shiftMode).trials [.ofText "p"])
    (htext : (solverWith m shiftMode).decipher trial.1 sampleLine trial.2 = .ok text) :
    text = "AB-+*\n".toList ∨
      shiftMode = true ∧ (text = "BC-+*\n".toList ∨ text = "CA-+*\n".toList) := by
  have hsegments := outcome_segments_sampleLine.1
  cases shiftMode with
  | false =>
    change trial ∈ [(Formula.ofText "p", 0)] at htrial
    rw [List.mem_singleton] at htrial
    subst htrial
    rw [decipher_sampleLine hsegments rfl] at htext
    cases htext
    exact Or.inl rfl
  | true =>
    change trial ∈ [(Formula.ofText "p", 0), (.ofText "p", 1), (.ofText "p", 2)] at htrial
    simp only [List.mem_cons, List.not_mem_nil, or_false] at htrial
    rcases htrial with rfl | rfl | rfl <;> rw [decipher_sampleLine hsegments rfl] at htext <;>
      cases htext
    · exact Or.inl rfl
    · exact Or.inr ⟨rfl, Or.inl rfl⟩
    · exact Or.inr ⟨rfl, Or.inr rfl⟩

instance {entries : List (String × UInt64)} {width : ℕ} {cs : List Char} :
    Decidable (HasZero entries width cs) :=
  inferInstanceAs (Decidable (∃ window ∈ windows width cs, _))

lemma exists_parseBy {entries : List (String × UInt64)} (total : UInt64) (hwidth : 0 < width)
    (hentries : HasEntries width separator source entries)
    (htotal : total.toNat = exactMass entries) (hne : total ≠ 0) :
    ∃ m, Model.parseBy log source width separator = .ok m := by
  have hparse := Frequencies.parse_eq_ok_iff.mpr
    ⟨hwidth, entries, total, hentries, htotal, hne, rfl⟩
  exact ⟨_, by rw [Model.parseBy, hparse]; rfl⟩

namespace Model

/-- A window of the n-gram with frequency zero loses a text, and a search that has only such a text
finds nothing. -/
theorem isFinite_score_iff_zero :
    ∃ m, parseBy nearestLog "AB 0\nBC 1\n" 2 ' ' = .ok m ∧
      m.ngramScore "BC".toList = 0.0 ∧ m.ngramScore "CB".toList = -2.0 ∧
      (m.score "BCB".toList).isFinite ∧ m.score "ABC".toList = negativeInfinity ∧
      m.ngramScore "AB".toList < m.ngramScore "CB".toList ∧
      m.ngramScore "CB".toList < m.ngramScore "BC".toList ∧
      (solverWith m false).search [.ofText "p"] sampleLine = none ∧
      ((solverWith m true).search [.ofText "p"] sampleLine).isSome := by
  have hlines : entryLines "AB 0\nBC 1\n" = ["AB 0".toList, "BC 1".toList] := by decide +kernel
  have hentries : HasEntries 2 ' ' "AB 0\nBC 1\n" [("AB", 0), ("BC", 1)] :=
    hasEntries_of_lines hlines (.cons rfl (.cons rfl .nil))
  have hmass : exactMass [("AB", 0), ("BC", 1)] = 1 := by decide +kernel
  obtain ⟨m, hm⟩ : ∃ m, parseBy nearestLog "AB 0\nBC 1\n" 2 ' ' = .ok m :=
    exists_parseBy 1 Nat.two_pos hentries hmass.symm (by decide)
  obtain ⟨-, hscores, horder, hsearch⟩ :=
    isFinite_score_iff nearestLog isDecimalLog_nearestLog hm hentries
  obtain ⟨total, htotal, hby⟩ := smoothedBy_of_parseBy hm hentries
  obtain rfl : total = 1 := UInt64.toNat_inj.mp (htotal.trans hmass)
  obtain ⟨hone, hhundredth⟩ := nearestLog_values
  have hshare : (1 : UInt64).toFloat / (1 : UInt64).toFloat = 1.0 := by decide +kernel
  have hunseen : 0.01 / (1 : UInt64).toFloat = 0.01 := by decide +kernel
  have hlength {shiftMode : Bool} : ∀ trial ∈ (solverWith m shiftMode).trials [.ofText "p"],
      ∀ text, (solverWith m shiftMode).decipher trial.1 sampleLine trial.2 = .ok text →
        (judged text).length < 2 ^ 64 := by
    intro trial htrial text htext
    rcases text_of_trial htrial htext with rfl | ⟨-, rfl | rfl⟩ <;> decide +kernel
  refine ⟨m, hm, ?_, ?_, ?_, ?_, ?_, ?_, ?_, ?_⟩
  · have hlast : last? [("AB", 0), ("BC", 1)] (String.ofList "BC".toList) = some 1 := by
      decide +kernel
    rw [hby.ngramScore_of_listed hlast, hshare, hone]
  · rw [hby.ngramScore_of_unlisted (by decide +kernel), hunseen, hhundredth]
  · exact (hscores _ (by decide +kernel) (by decide +kernel)).1.mpr (by decide +kernel)
  · exact (hscores _ (by decide +kernel) (by decide +kernel)).2 (by decide +kernel)
  · exact (horder _ _ 0 (by decide +kernel) (by decide +kernel)).2 rfl
  · exact (horder _ _ 1 (by decide +kernel) (by decide +kernel)).1 (by decide)
  · rw [← Option.not_isSome_iff_eq_none, hsearch (solverWith m false) _ _ rfl hlength]
    rintro ⟨trial, htrial, text, htext, -, hzero⟩
    obtain rfl := (text_of_trial htrial htext).resolve_right nofun
    exact hzero (by decide +kernel)
  · rw [hsearch (solverWith m true) _ _ rfl hlength]
    exact ⟨(.ofText "p", 1), List.mem_cons_of_mem _ List.mem_cons_self, "BC-+*\n".toList,
      decipher_sampleLine outcome_segments_sampleLine.1 rfl, by decide +kernel, by decide +kernel⟩

/-- A table that is accepted, with a text of one window whose score is not finite. -/
theorem score_of_zero_frequency :
    ∃ m, parse "AB 0\nBC 5\n" 2 ' ' = .ok m ∧ judged "AB".toList ≠ [] ∧
      m.ngramScore "AB".toList = negativeInfinity ∧ m.score "AB".toList = negativeInfinity ∧
      (m.score "AB".toList).isFinite = false := by
  have hlines : entryLines "AB 0\nBC 5\n" = ["AB 0".toList, "BC 5".toList] := by decide +kernel
  have hentries : HasEntries 2 ' ' "AB 0\nBC 5\n" [("AB", 0), ("BC", 5)] :=
    hasEntries_of_lines hlines (.cons rfl (.cons rfl .nil))
  have hmass : exactMass [("AB", 0), ("BC", 5)] = 5 := by decide +kernel
  have hparse := parse_eq_ok_iff.mpr
    ⟨Nat.two_pos, _, 5, hentries, hmass.symm, by decide, rfl⟩
  have hby := scoresBy_ofFrequencies 2 [("AB", 0), ("BC", 5)] 5
  refine ⟨_, hparse, by decide +kernel, ?_⟩
  generalize ofFrequencies ⟨2, .ofEntries [("AB", 0), ("BC", 5)], 5⟩ = m at hby
  have hlast : last? [("AB", 0), ("BC", 5)] "AB" = some 0 := by decide +kernel
  have hlost : m.ngramScore "AB".toList = negativeInfinity := by
    rw [ngramScore, String.ofList_toList, Std.HashMap.getD_eq_getD_getElem?, hby.getElem?_eq, hlast,
      Option.map_some, Option.getD_some, logShare, if_pos rfl]
  have hjudged : judged "AB".toList = "AB".toList := by decide +kernel
  have hwindows : windows 2 "AB".toList = ["AB".toList] := by decide +kernel
  have hscore : m.score "AB".toList = negativeInfinity := by
    rw [score, hjudged, scoreJudged_of_ne_nil (by decide +kernel), hby.width_eq, hwindows, sum,
      List.foldl_cons, List.foldl_nil, hlost]
    decide +kernel
  exact ⟨hlost, hscore, by rw [hscore]; decide +kernel⟩

end Model

end RuneSolver.Language
