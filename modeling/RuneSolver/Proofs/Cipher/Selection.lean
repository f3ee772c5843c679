import RuneSolver.Cipher.Search
import RuneSolver.Proofs.Cipher.Translation
import RuneSolver.Proofs.Language.Order
import RuneSolver.Proofs.Language.Windows

/-!
The candidate that a search selects. Main statement: of all the formulas under all the shifts, it
is the first one with the highest score among those with an acceptable text. Neither the stack
that an earlier formula left nor a formula that fails has a part in it.
-/

namespace RuneSolver.Cipher

open RuneSolver.Language

/-! ### The earliest best -/

/-- A candidate that scores higher than all before it, and not lower than any after it. -/
def EarliestBest (cs : List Candidate) (c : Candidate) : Prop :=
  ∃ before after, cs = before ++ c :: after ∧ (∀ b ∈ before, b.score < c.score) ∧
    ∀ a ∈ after, ¬c.score < a.score

namespace EarliestBest

variable {cs : List Candidate} {b c c' x : Candidate}

lemma mem (h : EarliestBest cs c) : c ∈ cs := by
  obtain ⟨before, after, rfl, -, -⟩ := h
  exact List.mem_append_right before List.mem_cons_self

lemma not_lt (h : EarliestBest cs c) (hx : x ∈ cs) : ¬c.score < x.score := by
  obtain ⟨before, after, rfl, hbefore, hafter⟩ := h
  rcases List.mem_append.mp hx with hx | hx
  · exact fun hlt => not_lt_self _ (lt_trans' hlt (hbefore x hx))
  · rcases List.mem_cons.mp hx with rfl | hx
    · exact not_lt_self _
    · exact hafter x hx

/-- A candidate in front that scores lower than the second one cannot be the best. -/
lemma cons_of_lt (h : EarliestBest (x :: cs) c) (hlt : b.score < x.score) :
    EarliestBest (b :: x :: cs) c := by
  obtain ⟨before, after, hcs, hbefore, hafter⟩ := h
  refine ⟨b :: before, after, by rw [hcs]; rfl, fun y hy => ?_, hafter⟩
  rcases List.mem_cons.mp hy with rfl | hy
  · rcases before with _ | ⟨x', before⟩
    · cases hcs
      exact hlt
    · cases hcs
      exact lt_trans' hlt (hbefore x List.mem_cons_self)
  · exact hbefore y hy

/-- A candidate in second place that does not score higher than the first makes no difference. -/
lemma cons_of_not_lt (h : EarliestBest (b :: cs) c) (hlt : ¬b.score < x.score)
    (hx : negativeInfinity < x.score) : EarliestBest (b :: x :: cs) c := by
  obtain ⟨_ | ⟨b', before⟩, after, hcs, hbefore, hafter⟩ := h
  · cases hcs
    refine ⟨[], x :: cs, rfl, nofun, fun a ha => ?_⟩
    rcases List.mem_cons.mp ha with rfl | ha
    · exact hlt
    · exact hafter a ha
  · cases hcs
    refine ⟨b :: x :: before, after, rfl, fun y hy => ?_, hafter⟩
    rcases List.mem_cons.mp hy with rfl | hy
    · exact hbefore y List.mem_cons_self
    · rcases List.mem_cons.mp hy with rfl | hy
      · have hbc := hbefore b List.mem_cons_self
        exact (lt_or_lt_of_lt hx hbc).resolve_left hlt
      · exact hbefore y (List.mem_cons_of_mem b hy)

lemma unique (h : EarliestBest cs c) (h' : EarliestBest cs c') : c = c' := by
  obtain ⟨before, after, rfl, hbefore, hafter⟩ := h
  obtain ⟨before', after', hcs, hbefore', hafter'⟩ := h'
  rcases List.append_eq_append_iff.mp hcs with ⟨mid, rfl, hmid⟩ | ⟨mid, rfl, hmid⟩
  · rcases mid with _ | ⟨m, mid⟩
    · cases hmid
      rfl
    · -- the first of them scores lower than the second one, which comes after it
      cases hmid
      have hlt := hbefore' c (by simp)
      exact absurd hlt (hafter c' (by simp))
  · rcases mid with _ | ⟨m, mid⟩
    · cases hmid
      rfl
    · cases hmid
      have hlt := hbefore c' (by simp)
      exact absurd hlt (hafter' c (by simp))

end EarliestBest

namespace Solver

/-- The better of the best candidate so far and the next one. -/
def better (best : Option Candidate) (c : Candidate) : Option Candidate :=
  if bar best < c.score then some c else best

/-- Keeping the better candidate at each step ends with the earliest best of all. -/
lemma foldl_better_some (b : Candidate) {cs : List Candidate}
    (hcs : ∀ c ∈ cs, negativeInfinity < c.score) :
    ∃ c, cs.foldl better (some b) = some c ∧ EarliestBest (b :: cs) c := by
  induction cs generalizing b with
  | nil => exact ⟨b, rfl, [], [], rfl, nofun, nofun⟩
  | cons x cs ih =>
    have hx := hcs x List.mem_cons_self
    have hrest : ∀ c ∈ cs, negativeInfinity < c.score :=
      fun c hc => hcs c (List.mem_cons_of_mem x hc)
    rw [List.foldl_cons, better, bar]
    by_cases hlt : b.score < x.score
    · rw [if_pos hlt]
      obtain ⟨c, hc, hbest⟩ := ih x hrest
      exact ⟨c, hc, hbest.cons_of_lt hlt⟩
    · rw [if_neg hlt]
      obtain ⟨c, hc, hbest⟩ := ih b hrest
      exact ⟨c, hc, hbest.cons_of_not_lt hlt hx⟩

lemma foldl_better_eq_some_iff {cs : List Candidate} (hcs : ∀ c ∈ cs, negativeInfinity < c.score)
    (c : Candidate) : cs.foldl better none = some c ↔ EarliestBest cs c := by
  rcases cs with _ | ⟨x, cs⟩
  · exact ⟨nofun, fun h => nomatch h.mem⟩
  · have hx := hcs x List.mem_cons_self
    obtain ⟨c', hc', hbest⟩ := foldl_better_some x fun c hc => hcs c (List.mem_cons_of_mem x hc)
    rw [List.foldl_cons, better, bar, if_pos hx, hc']
    constructor
    · rintro ⟨⟩
      exact hbest
    · intro h
      rw [hbest.unique h]

lemma foldl_better_eq_none_iff {cs : List Candidate} (hcs : ∀ c ∈ cs, negativeInfinity < c.score) :
    cs.foldl better none = none ↔ cs = [] := by
  rcases cs with _ | ⟨x, cs⟩
  · exact ⟨fun _ => rfl, fun _ => rfl⟩
  · have hx := hcs x List.mem_cons_self
    obtain ⟨c', hc', -⟩ := foldl_better_some x fun c hc => hcs c (List.mem_cons_of_mem x hc)
    rw [List.foldl_cons, better, bar, if_pos hx, hc']
    exact ⟨nofun, nofun⟩

/-! ### Candidates -/

/-- What a formula comes to under a shift, if its text is varied and scores above minus infinity. -/
def candidate? (s : Solver) (d : Document) (f : Formula) (shift : UInt64) : Option Candidate :=
  match s.decipher f d shift with
  | .error _ => none
  | .ok text =>
    if isVaried (judged text) ∧ negativeInfinity < s.model.score text then
      some ⟨f.text, shift, s.model.score text, String.ofList text, d.skips.positions⟩
    else none

/-- The formulas in order, each under all shifts from zero up to the size of the alphabet in shift
mode, and without it under zero alone. -/
def trials (s : Solver) (formulas : List Formula) : List (Formula × UInt64) :=
  formulas.flatMap fun f =>
    match s.shiftMode with
    | true => (List.range s.size).map fun shift => (f, .ofNat shift)
    | false => [(f, 0)]

/-- The acceptable results of all trials, in order. -/
def candidates (s : Solver) (formulas : List Formula) (d : Document) : List Candidate :=
  (s.trials formulas).filterMap fun trial => s.candidate? d trial.1 trial.2

variable {s : Solver} {d : Document} {f : Formula} {shift : UInt64} {formulas : List Formula}
  {c : Candidate} {best : Option Candidate}

lemma lt_score_of_candidate? (h : s.candidate? d f shift = some c) :
    negativeInfinity < c.score := by
  unfold candidate? at h
  split at h
  · cases h
  · split at h
    · next htext =>
      cases h
      exact htext.2
    · cases h

lemma lt_score_of_mem_candidates (h : c ∈ s.candidates formulas d) :
    negativeInfinity < c.score := by
  obtain ⟨trial, -, hc⟩ := List.mem_filterMap.mp h
  exact lt_score_of_candidate? hc

lemma candidates_append (before after : List Formula) :
    s.candidates (before ++ after) d = s.candidates before d ++ s.candidates after d := by
  rw [candidates, trials, List.flatMap_append, List.filterMap_append]
  rfl

lemma trials_singleton : s.trials [f] = s.shifts.map (f, ·) := by
  rw [trials, shifts, List.flatMap_singleton]
  cases s.shiftMode with
  | true => exact List.map_map.symm
  | false => rfl

lemma candidates_singleton : s.candidates [f] d = s.shifts.filterMap (s.candidate? d f) := by
  rw [candidates, trials_singleton, List.filterMap_map]
  rfl

/-! ### The search -/

/-- The best candidate so far is one that is acceptable. -/
def Acceptable (best : Option Candidate) : Prop := ∀ c, best = some c → negativeInfinity < c.score

lemma acceptable_none : Acceptable none := by
  intro c hc
  cases hc

lemma lt_of_bar_lt (hbest : Acceptable best) {x : Float} (h : bar best < x) :
    negativeInfinity < x := by
  cases best with
  | none => exact h
  | some b => exact lt_trans' (hbest b rfl) h

lemma acceptable_better (hbest : Acceptable best) (c : Candidate) : Acceptable (better best c) := by
  rw [better]
  split
  · next hlt =>
    rintro _ ⟨⟩
    exact lt_of_bar_lt hbest hlt
  · exact hbest

/-- A text under a shift is considered just as its candidate, if it has one. -/
lemma consider_eq (hbest : Acceptable best) {segments : List Segment}
    (hsegments : (s.segments f d).outcome [] = .ok segments) (shift : UInt64) :
    s.consider f d segments best shift =
      match s.candidate? d f shift with
      | some c => better best c
      | none => best := by
  rw [candidate?, decipher, hsegments, consider]
  dsimp only
  cases s.textOf? shift segments with
  | none => rfl
  | some text =>
    have hscore : s.model.scoreJudged (judged text) = s.model.score text := rfl
    simp only [hscore, Bool.and_eq_true, decide_eq_true_eq]
    by_cases hvaried : isVaried (judged text) = true
    · by_cases hlow : negativeInfinity < s.model.score text
      · simp only [better, hvaried, hlow, and_true, if_true]
      · rw [if_neg fun h => hlow (lt_of_bar_lt hbest h.1), if_neg fun h => hlow h.2]
    · rw [if_neg fun h => hvaried h.2, if_neg fun h => hvaried h.1]

lemma foldl_consider (hbest : Acceptable best) {segments : List Segment}
    (hsegments : (s.segments f d).outcome [] = .ok segments) (shifts : List UInt64) :
    shifts.foldl (s.consider f d segments) best =
      (shifts.filterMap (s.candidate? d f)).foldl better best := by
  induction shifts generalizing best with
  | nil => rfl
  | cons shift shifts ih =>
    rw [List.foldl_cons, consider_eq hbest hsegments]
    cases hc : s.candidate? d f shift with
    | none =>
      rw [List.filterMap_cons_none hc]
      exact ih hbest
    | some c =>
      rw [List.filterMap_cons_some hc, List.foldl_cons]
      exact ih (acceptable_better hbest c)

/-! ### The stack -/

section Stack

open Machine

variable (s : Solver) (f : Formula)

lemma exists_settled_step (w : Walk) (c : Char) : ∃ r, Settled (s.step f w c) r := by
  rw [step]
  split
  · exact ⟨_, settled_pure _⟩
  · split
    · exact ⟨_, settled_pure _⟩
    · exact ⟨_, (f.settled_target _ _ _).bind fun _ => settled_pure _⟩

lemma exists_settled_lineSegments (cs : List Char) (w : Walk) :
    ∃ r, Settled (s.lineSegments f w cs) r := by
  induction cs generalizing w with
  | nil => exact ⟨_, settled_pure _⟩
  | cons c cs ih =>
    exact exists_settled_bind (s.exists_settled_step f w c) fun next =>
      exists_settled_bind (ih next.2) fun _ => ⟨_, settled_pure _⟩

lemma exists_settled_contentSegments (lines : List (List Char)) (w : Walk) :
    ∃ r, Settled (s.contentSegments f w lines) r := by
  induction lines generalizing w with
  | nil => exact ⟨_, settled_pure _⟩
  | cons line lines ih =>
    exact exists_settled_bind (s.exists_settled_lineSegments f line _) fun next =>
      exists_settled_bind (ih next.2) fun _ => ⟨_, settled_pure _⟩

/-- The segments of a document are the same on every stack. -/
lemma exists_settled_segments (d : Document) : ∃ r, Settled (s.segments f d) r := by
  rw [segments]
  split
  · exact ⟨_, settled_pure _⟩
  · exact s.exists_settled_contentSegments f _ _

end Stack

/-- The best candidate after a formula that has a stack of its own. -/
def tryAlone (s : Solver) (d : Document) (best : Option Candidate) (f : Formula) :
    Option Candidate :=
  (s.tryFormula d ([], best) f).2

/-- What a formula adds is what its results are as candidates, whatever stack it starts on. -/
lemma snd_tryFormula (hbest : Acceptable best) (stack : Stack) :
    (s.tryFormula d (stack, best) f).2 = (s.candidates [f] d).foldl better best := by
  obtain ⟨r, hr⟩ := s.exists_settled_segments f d
  have hfresh := hr []
  have hstack := hr stack
  rw [Machine.outcome] at hstack
  rw [candidates_singleton, tryFormula]
  cases hrun : s.segments f d stack with
  | ok segments stack' =>
    simp only [hrun] at hstack ⊢
    subst hstack
    exact foldl_consider hbest hfresh s.shifts
  | error e stack' =>
    simp only [hrun] at hstack ⊢
    subst hstack
    have hnone : s.shifts.filterMap (s.candidate? d f) = [] := by
      rw [List.filterMap_eq_nil_iff]
      intro shift _
      rw [candidate?, decipher, hfresh]
    rw [hnone, List.foldl_nil]

lemma acceptable_foldl_better {cs : List Candidate} (hbest : Acceptable best) :
    Acceptable (cs.foldl better best) := by
  induction cs generalizing best with
  | nil => exact hbest
  | cons c cs ih => exact ih (acceptable_better hbest c)

lemma acceptable_tryFormula (hbest : Acceptable best) (stack : Stack) :
    Acceptable (s.tryFormula d (stack, best) f).2 := by
  rw [snd_tryFormula hbest]
  exact acceptable_foldl_better hbest

/-- A search on one stack is one among the candidates of all formulas. -/
lemma foldl_tryFormula (hbest : Acceptable best) (stack : Stack) :
    (formulas.foldl (s.tryFormula d) (stack, best)).2 =
      (s.candidates formulas d).foldl better best := by
  induction formulas generalizing stack best with
  | nil => rfl
  | cons f formulas ih =>
    rw [List.foldl_cons, ← List.singleton_append, candidates_append, List.foldl_append,
      ← snd_tryFormula hbest stack]
    exact ih (acceptable_tryFormula hbest stack) _

/-- So is one that takes a fresh stack for each formula. -/
lemma foldl_tryAlone (hbest : Acceptable best) :
    formulas.foldl (s.tryAlone d) best = (s.candidates formulas d).foldl better best := by
  induction formulas generalizing best with
  | nil => rfl
  | cons f formulas ih =>
    rw [List.foldl_cons, ← List.singleton_append, candidates_append, List.foldl_append,
      ← snd_tryFormula hbest []]
    exact ih (acceptable_tryFormula hbest [])

lemma search_eq_foldl_better :
    s.search formulas d = (s.candidates formulas d).foldl better none :=
  foldl_tryFormula acceptable_none []

/-- A formula without a text under the shift zero has none under any other shift. -/
lemma candidates_of_error {e : Fault FormulaError} (h : s.decipher f d 0 = .error e) :
    s.candidates [f] d = [] := by
  rw [candidates_singleton, List.filterMap_eq_nil_iff]
  intro shift _
  rw [decipher] at h
  rw [candidate?, decipher]
  cases hsegments : (s.segments f d).outcome [] with
  | error e' => rfl
  | ok segments =>
    obtain ⟨text, htext⟩ := exists_textOf?_zero s segments
    rw [hsegments] at h
    simp only [htext] at h
    cases h

/-- Nothing that is tried overflows, as long as twice the size of the alphabet is a word. -/
lemma decipher_ne_overflow (hsize : 2 * s.size ≤ 2 ^ 64) {trial : Formula × UInt64}
    (htrial : trial ∈ s.trials formulas) : s.decipher trial.1 d trial.2 ≠ .error .overflow := by
  have hshift : trial.2.toNat = 0 ∨ trial.2.toNat < s.size := by
    obtain ⟨f, -, hmem⟩ := List.mem_flatMap.mp htrial
    cases hmode : s.shiftMode with
    | true =>
      simp only [hmode] at hmem
      obtain ⟨shift, hlt, rfl⟩ := List.mem_map.mp hmem
      rw [List.mem_range] at hlt
      exact .inr (Nat.lt_of_le_of_lt (Nat.mod_le shift (2 ^ 64)) hlt)
    | false =>
      simp only [hmode] at hmem
      rw [List.mem_singleton.mp hmem]
      exact .inl rfl
  intro hover
  obtain ⟨segments, hsegments, index, hindex, hleaves⟩ := decipher_eq_overflow_iff.mp hover
  obtain ⟨hlt, hword⟩ := lt_size_of_mem_segments hsegments hindex
  omega

/-- **The selection is the earliest best.** A search finds a candidate if there is any, and it is
the first one with the highest score. It would be the same on a stack of its own for each formula
and without the formulas that fail, and its score is the same for every order of the formulas. No
alphabet that is not half as large as the range of words lets one of the trials overflow. -/
theorem search_eq_earliestBest (s : Solver) (formulas : List Formula) (d : Document) :
    (s.search formulas d = none ↔ s.candidates formulas d = []) ∧
      (∀ c, s.search formulas d = some c ↔ EarliestBest (s.candidates formulas d) c) ∧
      d.skips.positions.Pairwise (· < ·) ∧
      formulas.foldl (s.tryAlone d) none = s.search formulas d ∧
      (∀ before f after e, formulas = before ++ f :: after → s.decipher f d 0 = .error e →
        s.search formulas d = s.search (before ++ after) d) ∧
      (∀ others, formulas.Perm others →
        (s.search others d = none ↔ s.search formulas d = none) ∧
          ∀ c c', s.search formulas d = some c → s.search others d = some c' →
            (c.score == c'.score) = true) ∧
      (2 * s.size ≤ 2 ^ 64 →
        ∀ trial ∈ s.trials formulas, s.decipher trial.1 d trial.2 ≠ .error .overflow) := by
  have hnone : ∀ formulas, s.search formulas d = none ↔ s.candidates formulas d = [] := by
    intro formulas
    rw [search_eq_foldl_better]
    exact foldl_better_eq_none_iff fun _ => lt_score_of_mem_candidates
  have hsome : ∀ formulas c,
      s.search formulas d = some c ↔ EarliestBest (s.candidates formulas d) c := by
    intro formulas c
    rw [search_eq_foldl_better]
    exact foldl_better_eq_some_iff (fun _ => lt_score_of_mem_candidates) c
  refine ⟨hnone formulas, hsome formulas, d.skips.ascending, ?_, ?_, fun others hperm => ?_,
    fun hsize trial => decipher_ne_overflow hsize⟩
  · rw [search_eq_foldl_better, foldl_tryAlone acceptable_none]
  · rintro before f after e rfl he
    rw [search_eq_foldl_better, search_eq_foldl_better, ← List.singleton_append,
      candidates_append, candidates_append, candidates_append, candidates_of_error he,
      List.nil_append]
  · have hcandidates : (s.candidates formulas d).Perm (s.candidates others d) :=
      (hperm.flatMap_right _).filterMap _
    refine ⟨?_, fun c c' hc hc' => ?_⟩
    · rw [hnone, hnone]
      exact ⟨fun h => List.Perm.eq_nil (h ▸ hcandidates), fun h => (h ▸ hcandidates).nil_eq.symm⟩
    · have hbest := (hsome formulas c).mp hc
      have hbest' := (hsome others c').mp hc'
      exact beq_of_not_lt (lt_score_of_mem_candidates hbest.mem)
        (lt_score_of_mem_candidates hbest'.mem)
        (hbest.not_lt (hcandidates.mem_iff.mpr hbest'.mem))
        (hbest'.not_lt (hcandidates.mem_iff.mp hbest.mem))

end Solver

/-! ### A search with ties -/

/-- Two runes, and enough other characters to be varied. -/
def sampleLine : Document := ⟨["AB-+*"], Skips.none⟩

/-- The segments of the line by a formula that computes the indices of its runes. -/
def sampleSegments : List Segment :=
  [.computed 0, .computed 1, .plain '-', .plain '+', .plain '*', .lineEnd]

/-- The solver of the sample, with other scores and with or without shifts. -/
def solverWith (m : Model) (shiftMode : Bool) : Solver :=
  { sampleSolver with model := m, shiftMode := shiftMode }

lemma segments_sampleLine (f : Formula) :
    sampleSolver.segments f sampleLine = (do
      let i ← sampleSolver.index f ⟨0, [], ⟨'A', 0, 2, "A"⟩, true⟩ ⟨'A', 0, 2, "A"⟩
      let j ← sampleSolver.index f ⟨1, [], ⟨'A', 0, 2, "A"⟩, true⟩ ⟨'B', 1, 3, "B"⟩
      return [.computed i, .computed j, .plain '-', .plain '+', .plain '*', .lineEnd]) := by
  have hcontent : sampleLine.content = [['A', 'B', '-', '+', '*']] := by decide +kernel
  have hrune : ∀ c, sampleSolver.alphabet.rune? c =
      Alphabet.sampleRunes.reverse.find? (·.symbol == c) := Alphabet.rune?_sample
  have hfirst : sampleSolver.alphabet.at? 0 = some ⟨'A', 0, 2, "A"⟩ := rfl
  have hseed : seed? sampleSolver.alphabet ['A', 'B', '-', '+', '*'] = some ⟨'A', 0, 2, "A"⟩ :=
    (hrune 'A').trans rfl
  rw [Solver.segments, hfirst, hcontent]
  simp only [Solver.contentSegments, Walk.enter, hseed]
  simp [Solver.lineSegments, Solver.step, hrune, Alphabet.sampleRunes, Walk.pass, sampleLine,
    Skips.none]

lemma outcome_segments_sampleLine :
    (sampleSolver.segments (.ofText "p") sampleLine).outcome [] = .ok sampleSegments ∧
      (sampleSolver.segments (.ofText "p 0 +") sampleLine).outcome [] = .ok sampleSegments := by
  rw [segments_sampleLine, segments_sampleLine]
  exact ⟨rfl, rfl⟩

section Sample

variable {m : Model} {shiftMode : Bool} {f : Formula} {shift : UInt64} {text : List Char}

lemma textOf?_solverWith (segments : List Segment) :
    (solverWith m shiftMode).textOf? shift segments = sampleSolver.textOf? shift segments := by
  induction segments with
  | nil => rfl
  | cons segment segments ih =>
    rw [Solver.textOf?, Solver.textOf?, ih]
    rfl

lemma decipher_sampleLine
    (hsegments : (sampleSolver.segments f sampleLine).outcome [] = .ok sampleSegments)
    (htext : sampleSolver.textOf? shift sampleSegments = some text) :
    (solverWith m shiftMode).decipher f sampleLine shift = .ok text := by
  have hsame : (solverWith m shiftMode).segments f sampleLine =
      sampleSolver.segments f sampleLine := rfl
  rw [Solver.decipher, hsame, hsegments]
  simp only [textOf?_solverWith, htext]

lemma decipher_sampleLine_division :
    (solverWith m shiftMode).decipher (.ofText "p 0 /") sampleLine shift =
      .error (.failure .divisionByZero) := by
  have hsame : (solverWith m shiftMode).segments (.ofText "p 0 /") sampleLine =
      sampleSolver.segments (.ofText "p 0 /") sampleLine := rfl
  rw [Solver.decipher, hsame, segments_sampleLine]
  rfl

lemma candidate?_sampleLine {x : Float}
    (hsegments : (sampleSolver.segments f sampleLine).outcome [] = .ok sampleSegments)
    (htext : sampleSolver.textOf? shift sampleSegments = some text)
    (hvaried : isVaried (judged text) = true) (hscore : m.score text = x)
    (hlow : negativeInfinity < x) :
    (solverWith m shiftMode).candidate? sampleLine f shift =
      some ⟨f.text, shift, x, String.ofList text, []⟩ := by
  have hmodel : (solverWith m shiftMode).model.score text = x := hscore
  rw [Solver.candidate?, decipher_sampleLine hsegments htext]
  simp only
  rw [hmodel, if_pos ⟨hvaried, hlow⟩]
  rfl

end Sample

/-- One n-gram scores above all others, which only a shift of one brings into the line. -/
def preferringShift : Model := ⟨2, 0, (∅ : Std.HashMap String Float).insert "BC" 1⟩

lemma ngramScore_preferringShift (ngram : List Char) :
    preferringShift.ngramScore ngram = if "BC" == String.ofList ngram then 1 else 0 := by
  rw [Model.ngramScore, preferringShift, Std.HashMap.getD_insert, Std.HashMap.getD_empty]

lemma score_preferringShift (a b : Char)
    (hjudged : judged [a, b, '-', '+', '*', '\n'] = [a, b, '-', '+', '*']) :
    preferringShift.score [a, b, '-', '+', '*', '\n'] =
      (0.0 + preferringShift.ngramScore [a, b] + preferringShift.ngramScore [b, '-'] +
        preferringShift.ngramScore ['-', '+'] + preferringShift.ngramScore ['+', '*']) /
          (5 : ℕ).toUInt64.toFloat := by
  have hwindows : windows 2 [a, b, '-', '+', '*'] = [[a, b], [b, '-'], ['-', '+'], ['+', '*']] := by
    rw [windows_eq (by decide)]
    rfl
  rw [Model.score, hjudged, Model.scoreJudged_of_ne_nil (List.cons_ne_nil _ _)]
  change preferringShift.sum (windows 2 [a, b, '-', '+', '*']) / _ = _
  rw [hwindows]
  rfl

/-- The results of a formula that computes the indices, under all three shifts. -/
lemma candidate?_preferringShift (shiftMode : Bool) {f : Formula}
    (hsegments : (sampleSolver.segments f sampleLine).outcome [] = .ok sampleSegments) :
    (solverWith preferringShift shiftMode).candidate? sampleLine f 0 =
        some ⟨f.text, 0, 0, "AB-+*\n", []⟩ ∧
      (solverWith preferringShift shiftMode).candidate? sampleLine f 1 =
        some ⟨f.text, 1, 0.2, "BC-+*\n", []⟩ ∧
      (solverWith preferringShift shiftMode).candidate? sampleLine f 2 =
        some ⟨f.text, 2, 0, "CA-+*\n", []⟩ := by
  have htext₀ : sampleSolver.textOf? 0 sampleSegments = some ['A', 'B', '-', '+', '*', '\n'] := rfl
  have htext₁ : sampleSolver.textOf? 1 sampleSegments = some ['B', 'C', '-', '+', '*', '\n'] := rfl
  have htext₂ : sampleSolver.textOf? 2 sampleSegments = some ['C', 'A', '-', '+', '*', '\n'] := rfl
  have hlow : negativeInfinity < 0 ∧ negativeInfinity < 0.2 := by decide +kernel
  refine ⟨candidate?_sampleLine hsegments htext₀ (by decide) ?_ hlow.1,
    candidate?_sampleLine hsegments htext₁ (by decide) ?_ hlow.2,
    candidate?_sampleLine hsegments htext₂ (by decide) ?_ hlow.1⟩
  all_goals
    rw [score_preferringShift _ _ (by decide)]
    simp only [ngramScore_preferringShift]
    decide +kernel

/-- A formula that fails is passed over. In shift mode, the first of two formulas with the same
texts wins under the shift one, although the shift zero comes before it; without shifts, it wins
under zero. -/
theorem search_eq_earliestBest_shifted :
    (solverWith preferringShift true).search [.ofText "p 0 /", .ofText "p", .ofText "p 0 +"]
        sampleLine = some ⟨"p", 1, 0.2, "BC-+*\n", []⟩ ∧
      (solverWith preferringShift false).search [.ofText "p 0 /", .ofText "p", .ofText "p 0 +"]
        sampleLine = some ⟨"p", 0, 0, "AB-+*\n", []⟩ := by
  have hrest : ∀ shiftMode,
      (solverWith preferringShift shiftMode).search
          [.ofText "p 0 /", .ofText "p", .ofText "p 0 +"] sampleLine =
        (solverWith preferringShift shiftMode).search [.ofText "p", .ofText "p 0 +"]
          sampleLine := by
    intro shiftMode
    obtain ⟨-, -, -, -, hskip, -⟩ := Solver.search_eq_earliestBest
      (solverWith preferringShift shiftMode) [.ofText "p 0 /", .ofText "p", .ofText "p 0 +"]
      sampleLine
    exact hskip [] _ _ _ rfl decipher_sampleLine_division
  have hbest : ∀ shiftMode c,
      EarliestBest ((solverWith preferringShift shiftMode).candidates
          [.ofText "p", .ofText "p 0 +"] sampleLine) c →
        (solverWith preferringShift shiftMode).search
          [.ofText "p 0 /", .ofText "p", .ofText "p 0 +"] sampleLine = some c := by
    intro shiftMode c hc
    obtain ⟨-, hsome, -⟩ := Solver.search_eq_earliestBest
      (solverWith preferringShift shiftMode) [.ofText "p", .ofText "p 0 +"] sampleLine
    rw [hrest]
    exact (hsome c).mpr hc
  obtain ⟨hsegments, hsegments'⟩ := outcome_segments_sampleLine
  constructor
  · obtain ⟨h₀, h₁, h₂⟩ := candidate?_preferringShift true hsegments
    obtain ⟨h₀', h₁', h₂'⟩ := candidate?_preferringShift true hsegments'
    have htrials : (solverWith preferringShift true).trials [.ofText "p", .ofText "p 0 +"] =
        [(.ofText "p", 0), (.ofText "p", 1), (.ofText "p", 2), (.ofText "p 0 +", 0),
          (.ofText "p 0 +", 1), (.ofText "p 0 +", 2)] := rfl
    refine hbest true _ ?_
    rw [Solver.candidates, htrials]
    simp only [List.filterMap_cons, List.filterMap_nil, h₀, h₁, h₂, h₀', h₁', h₂']
    refine ⟨[_], _, rfl, ?_, ?_⟩
    · simp only [List.mem_singleton, forall_eq]
      decide +kernel
    · simp only [List.mem_cons, List.not_mem_nil, or_false, forall_eq_or_imp, forall_eq]
      decide +kernel
  · obtain ⟨h₀, -, -⟩ := candidate?_preferringShift false hsegments
    obtain ⟨h₀', -, -⟩ := candidate?_preferringShift false hsegments'
    have htrials : (solverWith preferringShift false).trials [.ofText "p", .ofText "p 0 +"] =
        [(.ofText "p", 0), (.ofText "p 0 +", 0)] := rfl
    refine hbest false _ ?_
    rw [Solver.candidates, htrials]
    simp only [List.filterMap_cons, List.filterMap_nil, h₀, h₀']
    refine ⟨[], _, rfl, nofun, ?_⟩
    simp only [List.mem_singleton, forall_eq]
    exact not_lt_self _

end RuneSolver.Cipher
