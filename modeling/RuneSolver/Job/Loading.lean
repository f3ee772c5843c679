import RuneSolver.Cipher.Search
import RuneSolver.Disk.Path
import RuneSolver.Failure
import RuneSolver.Settings.JobFile

/-!
The tables, rules, documents and settings that a job reads from files. A file that cannot be read
is a failure that names it; a file with a wrong content fails as its content does.
-/

namespace RuneSolver.Job

def readText (d : Disk) (path : String) : Except Failure String :=
  (d.readText path).mapError .disk

/-- Reads a file and then its text. -/
def load {ε α : Type} (d : Disk) (path : String) (failure : ε → Failure)
    (parse : String → Except ε α) : Except Failure α :=
  match readText d path with
  | .error e => .error e
  | .ok text => (parse text).mapError failure

def loadAlphabet (d : Disk) (path : String) : List Overridden × Except Failure Alphabet :=
  match readText d path with
  | .error e => ([], .error e)
  | .ok text =>
    let (overridden, alphabet) := Alphabet.parse text
    (overridden, alphabet.mapError .alphabet)

def loadRules (d : Disk) (path : String) : Except Failure (List Grammar.Rule) :=
  load d path .rule Grammar.parseRules

def loadReplacements (d : Disk) (path : String) : Except Failure Grammar.Replacements :=
  load d path .replacement Grammar.Replacements.parse

/-- In the tables of a job a single space follows each n-gram. -/
def loadModel (d : Disk) (path : String) (width : Nat) :
    Except (Fault Failure) Language.Model :=
  match readText d path with
  | .error e => .error (.failure e)
  | .ok text => (Language.Model.parse text width ' ').mapError (Fault.map .frequency)

/-- The tables of numbers; without a path the digits are those built in. -/
def loadTables (d : Disk) (path : Option String) (limit : Int32) :
    Except Failure NumberTables :=
  match path with
  | some path => load d path .digits (NumberTables.generate limit)
  | none => .ok (NumberTables.builtIn limit)

def loadDocument (d : Disk) (path : String) : Except Failure Cipher.Document :=
  load d path .document Cipher.Document.parse

def loadSettings (d : Disk) (path : String) : Except Failure Settings :=
  load d path .settings Settings.parse

def saveSettings (d : Disk) (path : String) (s : Settings) : Except Failure Disk :=
  (d.writeText path s.jobFile).mapError .disk

/-- The tables of numbers that the settings ask for. -/
def tablesOf (d : Disk) (dataDirectory : String) (s : Settings) :
    Except Failure NumberTables :=
  let path := if s.piPath.isEmpty then none else some (Path.resolve dataDirectory s.piPath)
  loadTables d path s.sieveLimit

/-- The tables of a job, read in the order alphabet, numbers, n-grams. -/
def loadSolver (d : Disk) (dataDirectory : String) (s : Settings) :
    List Overridden × Except (Fault Failure) Cipher.Solver :=
  let (overridden, alphabet) := loadAlphabet d (Path.resolve dataDirectory s.gematriaPath)
  (overridden, do
    let alphabet ← alphabet.mapError .failure
    let tables ← (tablesOf d dataDirectory s).mapError .failure
    let model ←
      loadModel d (Path.resolve dataDirectory s.ngramStatisticsPath) s.ngramWidth.toNat
    return ⟨alphabet, tables, model, s.isShiftMode⟩)

end RuneSolver.Job
