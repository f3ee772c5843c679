import RuneSolver.Disk.Path
import RuneSolver.Failure

/-!
The files of a job. Its job file is at the path that names it, or else among the jobs of the data
directory, with the extension `json`. The overview of its settings has a line for each of them, in
which paths are marked as leading to something or not. Its documents are the files directly inside
of its directory whose names are listed, in the order of their names and once each; a listed name
that no selected path ends with is reported.
-/

namespace RuneSolver.Job

/-! ### Job files -/

/-- The path of a named job among the jobs of a data directory. -/
def jobPath (dataDirectory name : String) : String :=
  let path := (Path.resolve (Path.push dataDirectory "jobs") name).toList
  if Path.extension? path = some "json".toList then String.ofList path
  else String.ofList (Path.withExtension path "json".toList)

def locate (d : Disk) (dataDirectory name : String) : String :=
  if d.contains name then name else jobPath dataDirectory name

/-! ### The overview -/

inductive PathStatus where
  | valid | invalid | builtIn | noPath
  deriving DecidableEq, Repr

def PathStatus.mark : PathStatus → String
  | valid => " (valid path)"
  | invalid => " (invalid path)"
  | builtIn => " (built-in)"
  | noPath => ""

def pathStatus (d : Disk) (dataDirectory path : String) : PathStatus :=
  if d.contains (Path.resolve dataDirectory path) then .valid else .invalid

def status (d : Disk) (dataDirectory : String) (setting : Setting) (value : String) :
    PathStatus :=
  match setting.kind with
  | .path => pathStatus d dataDirectory value
  | .optionalPath => if value.isEmpty then .builtIn else pathStatus d dataDirectory value
  | _ => .noPath

/-- The lines of the overview, and whether all paths are valid. -/
def overview (d : Disk) (dataDirectory : String) (s : Settings) : List String × Bool :=
  let rows := s.rows.map fun (setting, value) =>
    (setting, value, status d dataDirectory setting value)
  (rows.map fun (setting, value, status) => s!" • {setting.label}: {value}{status.mark}",
    rows.all fun (_, _, status) => status != .invalid)

/-! ### Documents -/

structure Selection where
  directory : String
  paths : List String
  missing : List String
  deriving DecidableEq, Repr

/-- Selects among the names of the files in a directory. -/
def selectAmong (directory : String) (fileNames listed : List String) : Selection :=
  let chosen := (fileNames.filter fun name => listed.contains name).mergeSort (· ≤ ·)
  let paths := chosen.map (Path.push directory)
  ⟨directory, paths,
    listed.filter fun name => !paths.any fun path => Path.endsWith path.toList name.toList⟩

def select (d : Disk) (dataDirectory : String) (s : Settings) : Except Failure Selection :=
  let directory := Path.resolve dataDirectory s.datafileDirectory
  match d.fileNames directory with
  | .error e => .error (.disk e)
  | .ok names => .ok (selectAmong directory names s.fileNamesToDecrypt)

end RuneSolver.Job
