import RuneSolver.Equivalence.Sample
import RuneSolver.Grammar.Attempts
import RuneSolver.Job.Loading

/-!
The generation of the attempts of a job from production rules, with equivalent attempts dropped
on demand.
-/

namespace RuneSolver.Job

/-- What attempts are generated from. No tokens stand for all tokens; with options for a sample,
attempts that agree on the sample with an earlier one are dropped. -/
structure Recipe where
  rules : String
  replacements : String
  tokens : List String
  elimination : Option Equivalence.SampleOptions

def Recipe.vocabulary (r : Recipe) : Except Failure Grammar.Vocabulary :=
  if r.tokens.isEmpty then .ok .all
  else (Grammar.Vocabulary.ofTokens r.tokens).mapError .selection

/-- The attempts of the rules. -/
def attempts (d : Disk) (r : Recipe) : Except Failure Grammar.Attempts := do
  let vocabulary ← r.vocabulary
  let rules ← loadRules d r.rules
  let replacements ← loadReplacements d r.replacements
  (Grammar.Attempts.ofRules vocabulary rules replacements).2.mapError .resolution

/-- How samples of alphabets are drawn. -/
abbrev Sampling := Alphabet → Equivalence.SampleOptions → List Equivalence.Point

/-- The attempts of a recipe, which needs the tables of a job only to drop equivalent ones: those
that agree on a sample of the alphabet, however it is drawn. -/
def generateWith (sample : Sampling) (d : Disk) (dataDirectory : String) (s : Settings)
    (r : Recipe) : Except Failure (List String) := do
  let attempts ← attempts d r
  match r.elimination with
  | none => return attempts.toList
  | some options =>
    let alphabet ← (loadAlphabet d (Path.resolve dataDirectory s.gematriaPath)).2
    let tables ← tablesOf d dataDirectory s
    let points := sample alphabet options
    return (Equivalence.eliminate tables points attempts.toList).map (·.text)

/-- Samples are drawn from entropy where they have no seed. -/
def drawing (entropy : UInt64) : Sampling := fun alphabet options =>
  Equivalence.draw alphabet options entropy

end RuneSolver.Job
