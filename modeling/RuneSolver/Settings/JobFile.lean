import RuneSolver.Json.Printer
import RuneSolver.Json.Reader
import RuneSolver.Settings.Basic

/-!
Job files: settings as JSON. An object gives some settings by name, and an array the first ones
by their order; what is not given has its default. Other keys of an object are ignored, but no
setting may come twice. What is read has to be valid.
-/

namespace RuneSolver.Settings

/-- The members of a job file, one for each setting in order. -/
def members (s : Settings) : List (String × Json) :=
  [("GematriaPath", .ofText s.gematriaPath),
    ("NgramWidth", .number (Text.natural s.ngramWidth.toNat)),
    ("NgramStatisticsPath", .ofText s.ngramStatisticsPath),
    ("IsShiftMode", .bool s.isShiftMode),
    ("DatafileDirectory", .ofText s.datafileDirectory),
    ("FileNamesToDecrypt", .array (s.fileNamesToDecrypt.map .ofText)),
    ("Attempts", .array (s.attempts.map .ofText)),
    ("PiPath", .ofText s.piPath),
    ("SieveLimit", .number (Text.integer s.sieveLimit.toInt))]

/-- The job file of settings. -/
def jobFile (s : Settings) : String := Json.print (.ofMembers s.members)

/-- A number that is written as a whole one from zero up. -/
def word? : Json → Option UInt64
  | .number written => if Json.isDigits written then (Text.readWord written).toOption else none
  | _ => none

/-- A number that is written as a whole one; zero has no sign. -/
def int32? : Json → Option Int32
  | .number written => if written = ['-', '0'] then none else (Text.readInt32 written).toOption
  | _ => none

/-- Puts a value of a job file into a setting, if it has the right type. -/
def put? (s : Settings) (v : Json) : Setting → Option Settings
  | .gematriaPath => v.text?.map fun t => { s with gematriaPath := t }
  | .ngramWidth => (word? v).map fun n => { s with ngramWidth := n }
  | .ngramStatisticsPath => v.text?.map fun t => { s with ngramStatisticsPath := t }
  | .isShiftMode => v.bool?.map fun b => { s with isShiftMode := b }
  | .datafileDirectory => v.text?.map fun t => { s with datafileDirectory := t }
  | .fileNamesToDecrypt => v.texts?.map fun ts => { s with fileNamesToDecrypt := ts }
  | .attempts => v.texts?.map fun ts => { s with attempts := ts }
  | .piPath => v.text?.map fun t => { s with piPath := t }
  | .sieveLimit => (int32? v).map fun n => { s with sieveLimit := n }

/-- Puts members into the settings. Those in `given` have come already. -/
def putMembers? (given : List Setting) :
    Settings → List (Option String × Json) → Option Settings
  | s, [] => some s
  | _, (none, _) :: _ => none
  | s, (some key, v) :: rest =>
    match Setting.ofName? key with
    | none => putMembers? given s rest
    | some setting =>
      if setting ∈ given then none
      else (s.put? v setting).bind fun next => putMembers? (setting :: given) next rest

/-- Puts elements into the settings that follow in order. -/
def putElements? : Settings → List Setting → List Json → Option Settings
  | s, _, [] => some s
  | _, [], _ :: _ => none
  | s, setting :: settings, v :: vs =>
    (s.put? v setting).bind fun next => putElements? next settings vs

def ofJson? : Json → Option Settings
  | .object members => putMembers? [] default members
  | .array elements => putElements? default Setting.all elements
  | _ => none

/-- Reads a job file. -/
def parse (source : String) : Except SettingsError Settings :=
  match (Json.parse? source).bind ofJson? with
  | none => .error .notJobFile
  | some s => s.validate.map fun _ => s

end RuneSolver.Settings
