import RuneSolver.Text.Lines
import RuneSolver.Text.Capital
import RuneSolver.Text.Numeral

/-!
The settings of a job: the name of each, its kind, the text that it has by default, and which
texts are valid for it.
-/

namespace RuneSolver

inductive Setting where
  | gematriaPath
  | ngramWidth
  | ngramStatisticsPath
  | isShiftMode
  | datafileDirectory
  | fileNamesToDecrypt
  | attempts
  | piPath
  | sieveLimit
  deriving DecidableEq, Repr

/-- What the value of a setting is. Paths start at the data directory; an optional one may be
empty and then stands for a built-in source. -/
inductive ValueKind where
  | path
  | optionalPath
  | integer
  | boolean
  | list
  deriving DecidableEq, Repr

def ValueKind.name : ValueKind → String
  | path => "Path"
  | optionalPath => "OptionalPath"
  | integer => "Integer"
  | boolean => "Boolean"
  | list => "List"

/-- Why a text is no value of a setting. -/
inductive ValueError where
  | blank
  | zero
  | notPositive (text : String) (cause : Text.NumeralError)
  | notInteger (text : String) (cause : Text.NumeralError)
  | noPrimes (limit : Int32)
  | notBoolean (text : String)
  | noEntries
  deriving DecidableEq, Repr

def ValueError.message : ValueError → String
  | .blank => "must not be empty"
  | .zero => "must be at least 1"
  | .notPositive text cause => s!"'{text}' is not a positive integer: {cause.message}"
  | .notInteger text cause => s!"'{text}' is not an integer: {cause.message}"
  | .noPrimes limit => s!"{Text.integerText limit.toInt} leaves no primes to look up"
  | .notBoolean text => s!"'{text}' is not 'true' or 'false'"
  | .noEntries => "must contain at least one entry"

def readBoolean (cs : List Char) : Option Bool :=
  if cs = "true".toList then some true
  else if cs = "false".toList then some false
  else none

/-- The entries of a list: the parts between commas, without blanks around them, and without
those that are empty then. -/
def listEntries (text : String) : List String :=
  (((text.toList.splitOn ',').map Text.trim).filter (!·.isEmpty)).map String.ofList

namespace Setting

/-- All settings, in the order in which they are shown. -/
def all : List Setting :=
  [gematriaPath, ngramWidth, ngramStatisticsPath, isShiftMode, datafileDirectory,
    fileNamesToDecrypt, attempts, piPath, sieveLimit]

def name : Setting → String
  | gematriaPath => "GematriaPath"
  | ngramWidth => "NgramWidth"
  | ngramStatisticsPath => "NgramStatisticsPath"
  | isShiftMode => "IsShiftMode"
  | datafileDirectory => "DatafileDirectory"
  | fileNamesToDecrypt => "FileNamesToDecrypt"
  | attempts => "Attempts"
  | piPath => "PiPath"
  | sieveLimit => "SieveLimit"

def kind : Setting → ValueKind
  | gematriaPath | ngramStatisticsPath | datafileDirectory => .path
  | ngramWidth | sieveLimit => .integer
  | isShiftMode => .boolean
  | fileNamesToDecrypt | attempts => .list
  | piPath => .optionalPath

def defaultText : Setting → String
  | gematriaPath => "GematriaPrimus.txt"
  | ngramWidth => "3"
  | ngramStatisticsPath => "ngrams/Trigrams.txt"
  | isShiftMode => "false"
  | datafileDirectory => "sections/"
  | fileNamesToDecrypt => ""
  | attempts => "p i prime 1 - -,p"
  | piPath => "Pi.txt"
  | sieveLimit => "900000"

def ofName? (name : String) : Option Setting := all.find? (·.name == name)

/-- The name of a setting in separate words. -/
def label (s : Setting) : String := Text.spaced s.name

def checkNotBlank (text : String) : Except ValueError Unit :=
  if Text.isBlankLine text.toList then .error .blank else .ok ()

def checkPositive (text : String) : Except ValueError Unit :=
  match Text.readWord (Text.trim text.toList) with
  | .error cause => .error (.notPositive text cause)
  | .ok n => if n = 0 then .error .zero else .ok ()

def checkSieveLimit (text : String) : Except ValueError Unit :=
  match Text.readInt32 (Text.trim text.toList) with
  | .error cause => .error (.notInteger text cause)
  | .ok limit => if 3 ≤ limit then .ok () else .error (.noPrimes limit)

def checkBoolean (text : String) : Except ValueError Unit :=
  match readBoolean (Text.trim text.toList) with
  | some _ => .ok ()
  | none => .error (.notBoolean text)

def checkEntries (text : String) : Except ValueError Unit :=
  if (listEntries text).isEmpty then .error .noEntries else .ok ()

/-- Whether a text is valid for a setting. -/
def check : Setting → String → Except ValueError Unit
  | gematriaPath, text | ngramStatisticsPath, text | datafileDirectory, text =>
    checkNotBlank text
  | ngramWidth, text => checkPositive text
  | isShiftMode, text => checkBoolean text
  | attempts, text => checkEntries text
  | sieveLimit, text => checkSieveLimit text
  | fileNamesToDecrypt, _ | piPath, _ => .ok ()

end Setting

end RuneSolver
