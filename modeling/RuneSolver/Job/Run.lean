import RuneSolver.Job.Loading
import RuneSolver.Job.Progress

/-!
The run of a job over its documents. Each document is loaded and searched on its own; the reports
come in the order of the paths, each with the progress of the job when it is collected.
-/

namespace RuneSolver.Job

/-- The outcome of one document. -/
structure Report where
  path : String
  outcome : Except Failure (Option Cipher.Candidate)
  progress : Progress

/-- A document that cannot be read weighs nothing. -/
def weight (d : Disk) (path : String) : UInt64 :=
  match d.readText path with
  | .ok source => UInt64.ofNat (runeLineCount source)
  | .error _ => 0

def totalWeight? (d : Disk) (paths : List String) : Option UInt64 :=
  Word.sum? (paths.map (weight d))

/-- The search of one document. -/
def search (d : Disk) (s : Cipher.Solver) (formulas : List Formula) (path : String) :
    Except Failure (Option Cipher.Candidate) :=
  (loadDocument d path).map (s.search formulas)

/-- The reports of the paths that are left. -/
def runFrom (d : Disk) (s : Cipher.Solver) (formulas : List Formula) :
    Progress → List String → Option (List Report)
  | _, [] => some []
  | p, path :: paths => do
    let next ← p.record? (weight d path)
    let later ← runFrom d s formulas next paths
    return ⟨path, search d s formulas path, next⟩ :: later

/-- The reports of all paths, unless their weights have no sum. -/
def run (d : Disk) (s : Cipher.Solver) (formulas : List Formula) (paths : List String) :
    Option (List Report) := do
  runFrom d s formulas (Progress.start (← totalWeight? d paths)) paths

/-- The percentage of a report, rounded to a whole number, a half away from zero. -/
def Report.percent (r : Report) : UInt64 := r.progress.percent.round.toUInt64

end RuneSolver.Job
