import RuneSolver.Cipher.Decipherment

/-!
The search for the best plain text of a document: every formula under every shift, of which the
first with the highest score is kept. Only texts that are varied enough and score above minus
infinity count; a formula that fails on any rune does not.
-/

namespace RuneSolver.Cipher

/-- A plain text that is acceptable, with what led to it. -/
structure Candidate where
  formula : String
  shift : UInt64
  score : Float
  text : String
  skips : List Nat

namespace Solver

/-- The shifts that are tried: all of the alphabet, or zero alone. -/
def shifts (s : Solver) : List UInt64 :=
  if s.shiftMode then (List.range s.size).map UInt64.ofNat else [0]

/-- The score that the next candidate has to exceed. -/
def bar : Option Candidate → Float
  | some best => best.score
  | none => Language.negativeInfinity

/-- The better of the best candidate so far and the segments under a shift. Shifts that are tried
are below the size of the alphabet; only if twice the size is no word can the text be missing. -/
def consider (s : Solver) (f : Formula) (d : Document) (segments : List Segment)
    (best : Option Candidate) (shift : UInt64) : Option Candidate :=
  match s.textOf? shift segments with
  | none => best
  | some text =>
    let judged := Language.judged text
    let score := s.model.scoreJudged judged
    if bar best < score && Language.isVaried judged then
      some ⟨f.text, shift, score, String.ofList text, d.skips.positions⟩
    else best

/-- The stack and the best candidate after a formula. -/
def tryFormula (s : Solver) (d : Document) (state : Stack × Option Candidate) (f : Formula) :
    Stack × Option Candidate :=
  match s.segments f d state.1 with
  | .error _ stack => (stack, state.2)
  | .ok segments stack => (stack, s.shifts.foldl (s.consider f d segments) state.2)

/-- The best candidate of a document. All formulas are evaluated on one stack. -/
def search (s : Solver) (formulas : List Formula) (d : Document) : Option Candidate :=
  (formulas.foldl (s.tryFormula d) ([], none)).2

end Solver

/-- The fraction of the formulas that are done, after each of them. -/
def fractions (count : Nat) : List Float :=
  (List.range count).map fun i => (i + 1).toUInt64.toFloat / count.toUInt64.toFloat

end RuneSolver.Cipher
