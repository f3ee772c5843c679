import RuneSolver.Cipher.Summary
import RuneSolver.CommandLine.Help
import RuneSolver.CommandLine.Request
import RuneSolver.Job.Generation
import RuneSolver.Job.Files
import RuneSolver.Job.Run

/-!
The execution of a request on a disk: what is printed, with which code the program exits, and the
disk afterwards. The search of a document is a block of its own, so that whoever prints it can
tell how long it took.
-/

namespace RuneSolver.CommandLine

/-- A piece of text for one of the two streams, on lines of its own. -/
inductive Printed where
  | output (text : String)
  | error (text : String)
  deriving DecidableEq, Repr

/-- What is printed: a text, or a block that is computed when it is printed and followed by the
time that took. -/
inductive Printing where
  | plain (printed : Printed)
  | timed (block : Unit → List Printed)

/-- The result of a request. -/
structure Result where
  exit : UInt32
  printings : List Printing
  disk : Disk

def outputs (lines : List String) : List Printing := lines.map fun line => .plain (.output line)

/-- What is printed up to a fault, or to the end. -/
structure Transcript (α : Type) where
  printings : List Printing
  value : Except (Fault String) α

/-- A message on one line, in which an end of a line is written with a backslash. -/
def errorLine (message : String) : String := "Error: " ++ message.replace "\n" "\\n"

/-- What is said about a sum that leaves its word. -/
def overflowLine : String := "attempt to add with overflow"

/-- The result of a transcript, whose value is the disk afterwards. -/
def Transcript.result (d : Disk) (t : Transcript Disk) : Result :=
  match t.value with
  | .ok disk => ⟨0, t.printings, disk⟩
  | .error (.failure message) => ⟨1, t.printings ++ [.plain (.error (errorLine message))], d⟩
  | .error .overflow => ⟨101, t.printings ++ [.plain (.error overflowLine)], d⟩

def failed {α : Type} (f : Failure) : Transcript α := ⟨[], .error (.failure f.message)⟩

def GenerateRequest.recipe (r : GenerateRequest) : Job.Recipe where
  rules := Path.resolve r.dataDirectory r.rules
  replacements := Path.resolve r.dataDirectory r.replacements
  tokens := r.tokens
  elimination :=
    if r.eliminate then some { Equivalence.SampleOptions.default with seed := r.seed } else none

/-- The settings with the attempts that are generated for them, however samples are drawn. -/
def GenerateRequest.settings (d : Disk) (sample : Job.Sampling) (r : GenerateRequest) :
    Except Failure Settings := do
  let s ← (Settings.default.overrideAll r.overrides).mapError .settings
  let attempts ← Job.generateWith sample d r.dataDirectory s r.recipe
  return { s with attempts := attempts }

def GenerateRequest.run (d : Disk) (sample : Job.Sampling) (r : GenerateRequest) :
    Transcript Disk :=
  match r.settings d sample with
  | .error e => failed e
  | .ok s =>
    match Job.saveSettings d r.output s with
    | .error e => failed e
    | .ok saved =>
      ⟨outputs [s!"Generated {s.attempts.length} attempts into {r.output}"], .ok saved⟩

/-- The settings of a job after the overrides, which have to be valid. -/
def DecryptRequest.settings (d : Disk) (r : DecryptRequest) : Except Failure Settings := do
  let s ← Job.loadSettings d (Job.locate d r.dataDirectory r.job)
  let s ← (s.overrideAll r.overrides).mapError .settings
  s.validate.mapError .settings
  return s

/-- The outcome of a document in words. -/
def report (path : String) (outcome : Except Failure (Option Cipher.Candidate)) :
    List Printed :=
  [.output "", .output s!"{path}:"] ++
    match outcome with
    | .ok best => [.output (Cipher.summary best)]
    | .error e => [.error s!"❌ {e.message}"]

/-- The solver and the paths of a job. -/
def prepare (d : Disk) (dataDirectory : String) (s : Settings) :
    Except (Fault Failure) (Cipher.Solver × List String) := do
  let solver ← (Job.loadSolver d dataDirectory s).2
  let selection ← (Job.select d dataDirectory s).mapError .failure
  return (solver, selection.paths)

def countLine (count : Nat) : String :=
  let plural := if count = 1 then "" else "s"
  s!"Attempting to decrypt {count} rune file{plural}."

def DecryptRequest.run (d : Disk) (r : DecryptRequest) : Transcript Disk :=
  match r.settings d with
  | .error e => failed e
  | .ok s =>
    let (lines, valid) := Job.overview d r.dataDirectory s
    let heading := outputs ("Running a decryption job with the following options:" :: lines)
    if valid then
      match prepare d r.dataDirectory s with
      | .error e => ⟨heading, .error (e.map Failure.message)⟩
      | .ok (solver, paths) =>
        let formulas := s.attempts.map Formula.ofText
        ⟨heading ++ outputs [countLine paths.length] ++
          paths.map fun path => .timed fun _ =>
            report path (Job.search d solver formulas path), .ok d⟩
    else
      ⟨heading, .error (.failure ("job refers to missing files; all paths are relative to " ++
        s!"'{r.dataDirectory}'"))⟩

def Request.run (d : Disk) (sample : Job.Sampling) : Request → Result
  | .help topic => ⟨0, outputs topic.lines, d⟩
  | .version => ⟨0, outputs [versionLine], d⟩
  | .tokens => ⟨0, outputs tokenTable, d⟩
  | .schema => ⟨0, outputs settingTable, d⟩
  | .generate r => (r.run d sample).result d
  | .decrypt r => (r.run d).result d

/-- The paths that a job looks at. -/
def jobFiles (dataDirectory : String) (s : Settings) : List String :=
  let directory := Path.resolve dataDirectory s.datafileDirectory
  [s.gematriaPath, s.ngramStatisticsPath, s.piPath, s.datafileDirectory].map
      (Path.resolve dataDirectory) ++
    s.fileNamesToDecrypt.map (Path.push directory)

/-- The path of the directory that the last name of a path is in. -/
def parentPath (path : String) : String :=
  String.ofList ((path.toList.reverse.dropWhile (· == '/')).dropWhile (· != '/')).reverse

/-- The paths that a request looks at, as far as a disk tells; what it reads there may lead to
more. -/
def Request.looksAt (d : Disk) : Request → List String
  | .generate r =>
    let tables := jobFiles r.dataDirectory <|
      ((Settings.default.overrideAll r.overrides).toOption).getD .default
    [r.recipe.rules, r.recipe.replacements, r.output, parentPath r.output] ++ tables
  | .decrypt r =>
    [r.job, Job.jobPath r.dataDirectory r.job] ++
      match r.settings d with
      | .ok s => jobFiles r.dataDirectory s
      | .error _ => []
  | _ => []

/-- The paths that a request writes if it succeeds. -/
def Request.writes : Request → List String
  | .generate r => [r.output]
  | _ => []

def usageHint : String := "error: unexpected arguments; for more information, try '--help'."

/-- Executes the request that the arguments make. -/
def execute (d : Disk) (sample : Job.Sampling) (args : List String) : Result :=
  match Request.parse args with
  | some request => request.run d sample
  | none => ⟨2, [.plain (.error usageHint)], d⟩

end RuneSolver.CommandLine
