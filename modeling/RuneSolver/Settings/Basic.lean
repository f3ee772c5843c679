import RuneSolver.Settings.Schema
import RuneSolver.Text.Part

/-!
The values of the settings of a job, their texts, and how a text changes one of them in place: it
is checked first, and then read into the setting that it is for.
-/

namespace RuneSolver

structure Settings where
  gematriaPath : String
  ngramWidth : UInt64
  ngramStatisticsPath : String
  isShiftMode : Bool
  datafileDirectory : String
  fileNamesToDecrypt : List String
  attempts : List String
  piPath : String
  sieveLimit : Int32
  deriving DecidableEq, Repr

/-- Why settings are not changed, or not accepted. -/
inductive SettingsError where
  | unknown (name : String)
  | invalid (setting : Setting) (cause : ValueError)
  | unreadable (setting : Setting) (text cause : String)
  | noAssignment (text : String)
  | notJobFile
  deriving DecidableEq, Repr

def SettingsError.message : SettingsError → String
  | .unknown name => s!"unknown setting '{name}'"
  | .invalid setting cause => s!"{setting.name}: {cause.message}"
  | .unreadable setting text cause => s!"{setting.name}: invalid value '{text}': {cause}"
  | .noAssignment text => s!"override '{text}' must have the form Name=value"
  | .notJobFile => "invalid job settings"

namespace Settings

def default : Settings where
  gematriaPath := "GematriaPrimus.txt"
  ngramWidth := 3
  ngramStatisticsPath := "ngrams/Trigrams.txt"
  isShiftMode := false
  datafileDirectory := "sections/"
  fileNamesToDecrypt := []
  attempts := ["p i prime 1 - -", "p"]
  piPath := "Pi.txt"
  sieveLimit := 900000

/-- The text of a setting, from which its value can be read again. -/
def text (s : Settings) : Setting → String
  | .gematriaPath => s.gematriaPath
  | .ngramWidth => Text.naturalText s.ngramWidth.toNat
  | .ngramStatisticsPath => s.ngramStatisticsPath
  | .isShiftMode => if s.isShiftMode then "true" else "false"
  | .datafileDirectory => s.datafileDirectory
  | .fileNamesToDecrypt => ",".intercalate s.fileNamesToDecrypt
  | .attempts => ",".intercalate s.attempts
  | .piPath => s.piPath
  | .sieveLimit => Text.integerText s.sieveLimit.toInt

/-- The settings of a new job have the texts that the schema gives. -/
theorem text_default (setting : Setting) : default.text setting = setting.defaultText := by
  cases setting <;> rfl

/-- The text of the setting of a name. -/
def textOf? (s : Settings) (name : String) : Option String :=
  (Setting.ofName? name).map s.text

end Settings

/-! ### Changes in place -/

/-- A change of settings in place. Where it fails it leaves them as they are at that point. -/
abbrev Edit := EStateM SettingsError Settings Unit

namespace Edit

/-- The settings after an edit that starts on others, unless it fails. -/
def outcome (e : Edit) (s : Settings) : Except SettingsError Settings :=
  match e s with
  | .ok () next => .ok next
  | .error cause _ => .error cause

/-- Puts the value of a text into a setting, without checking it otherwise. -/
def assign (setting : Setting) (text : String) : Edit :=
  let trimmed := Text.trim text.toList
  match setting with
  | .gematriaPath => modify ({ · with gematriaPath := text })
  | .ngramWidth =>
    match Text.readWord trimmed with
    | .ok n => modify ({ · with ngramWidth := n })
    | .error cause => throw (.unreadable setting text cause.message)
  | .ngramStatisticsPath => modify ({ · with ngramStatisticsPath := text })
  | .isShiftMode =>
    match readBoolean trimmed with
    | some b => modify ({ · with isShiftMode := b })
    | none => throw (.unreadable setting text "provided string was not `true` or `false`")
  | .datafileDirectory => modify ({ · with datafileDirectory := text })
  | .fileNamesToDecrypt => modify ({ · with fileNamesToDecrypt := listEntries text })
  | .attempts => modify ({ · with attempts := listEntries text })
  | .piPath => modify ({ · with piPath := text })
  | .sieveLimit =>
    match Text.readInt32 trimmed with
    | .ok n => modify ({ · with sieveLimit := n })
    | .error cause => throw (.unreadable setting text cause.message)

/-- Changes the setting of a name to a text that is valid for it. -/
def set (name text : String) : Edit :=
  match Setting.ofName? name with
  | none => throw (.unknown name)
  | some setting =>
    match setting.check text with
    | .error cause => throw (.invalid setting cause)
    | .ok () => assign setting text

/-- Changes a setting as `Name=value` says. Blanks around the name are ignored. -/
def override (assignment : String) : Edit :=
  match Text.cutAt? ['='] assignment.toList with
  | none => throw (.noAssignment assignment)
  | some (name, text) => set (String.ofList (Text.trim name)) (String.ofList text)

end Edit

namespace Settings

def assign (s : Settings) (setting : Setting) (text : String) : Except SettingsError Settings :=
  (Edit.assign setting text).outcome s

def set (s : Settings) (name text : String) : Except SettingsError Settings :=
  (Edit.set name text).outcome s

def override (s : Settings) (assignment : String) : Except SettingsError Settings :=
  (Edit.override assignment).outcome s

def overrideAll : Settings → List String → Except SettingsError Settings
  | s, [] => .ok s
  | s, assignment :: assignments =>
    match s.override assignment with
    | .error e => .error e
    | .ok next => next.overrideAll assignments

def validateFrom (s : Settings) : List Setting → Except SettingsError Unit
  | [] => .ok ()
  | setting :: settings =>
    match setting.check (s.text setting) with
    | .error cause => .error (.invalid setting cause)
    | .ok () => s.validateFrom settings

/-- Whether every setting has a valid text; the first that has not is the error. -/
def validate (s : Settings) : Except SettingsError Unit := s.validateFrom Setting.all

/-- The value of a setting as it is shown; of lists only the length. -/
def shown (s : Settings) : Setting → String
  | .fileNamesToDecrypt => s!"{s.fileNamesToDecrypt.length} file(s)"
  | .attempts => s!"{s.attempts.length} attempt(s)"
  | setting => s.text setting

/-- Every setting with its value, for reading. -/
def rows (s : Settings) : List (Setting × String) :=
  Setting.all.map fun setting => (setting, s.shown setting)

end Settings

end RuneSolver
