import Std.Data.HashMap
import RuneSolver.Fault
import RuneSolver.Text.Lines
import RuneSolver.Text.Numeral

/-!
The frequencies of the n-grams of a language: how often each run of some fixed number of
characters was counted. Each line of a table holds an n-gram and its frequency; the last line of
an n-gram counts.
-/

namespace RuneSolver.Language

/-- Why a table of frequencies is refused. Lines are counted from one. -/
inductive FrequencyError where
  | zeroWidth
  | noSeparator (line : Nat) (separator : Char)
  | wrongWidth (line : Nat) (ngram : String) (width : Nat)
  | badFrequency (line : Nat) (text : String) (cause : Text.NumeralError)
  | noMass
  deriving DecidableEq, Repr

def FrequencyError.message : FrequencyError → String
  | .zeroWidth => "n-gram width must be at least 1"
  | .noSeparator line separator => s!"line {line}: expected '<ngram>{separator}<frequency>'"
  | .wrongWidth line ngram width =>
    s!"line {line}: '{ngram}' does not match the selected n-gram width {width}; " ++
      "ensure the width matches the data file"
  | .badFrequency line text cause => s!"line {line}: invalid frequency '{text}': {cause.message}"
  | .noMass => "n-gram statistics contain no frequency mass"

/-- A count for each n-gram of a table. -/
abbrev Counts := Std.HashMap String UInt64

namespace Counts

/-- The n-gram and the frequency that a line holds; what follows a second separator is ignored. -/
def entry (width : Nat) (separator : Char) (number : Nat) (line : List Char) :
    Except FrequencyError (String × UInt64) :=
  match line.splitOn separator with
  | ngram :: frequency :: _ =>
    if ngram.length = width then
      match Text.readWord (Text.trim frequency) with
      | .ok count => .ok (String.ofList ngram, count)
      | .error cause => .error (.badFrequency number (String.ofList frequency) cause)
    else .error (.wrongWidth number (String.ofList ngram) width)
  | _ => .error (.noSeparator number separator)

/-- Reads numbered lines into the counts. Blank lines are passed over. -/
def addLines (width : Nat) (separator : Char) :
    Counts → List (List Char × Nat) → Except FrequencyError Counts
  | counts, [] => .ok counts
  | counts, (line, number) :: lines =>
    if Text.isBlankLine line then addLines width separator counts lines
    else
      match entry width separator number line with
      | .error e => .error e
      | .ok (ngram, count) => addLines width separator (counts.insert ngram count) lines

/-- The sum of the counts, if it is a word. -/
def mass? (counts : Counts) : Option UInt64 := Word.sum? (counts.toList.map Prod.snd)

end Counts

/-- The frequencies of the n-grams of one width, and their sum. -/
structure Frequencies where
  width : Nat
  counts : Counts
  total : UInt64

namespace Frequencies

/-- The frequencies of counts whose sum is a word other than zero. -/
def ofCounts (width : Nat) (counts : Counts) : Except (Fault FrequencyError) Frequencies :=
  match counts.mass? with
  | none => .error .overflow
  | some total => if total = 0 then .error (.failure .noMass) else .ok ⟨width, counts, total⟩

/-- Reads a table whose n-grams have a width and end at a separator. -/
def parse (source : String) (width : Nat) (separator : Char) :
    Except (Fault FrequencyError) Frequencies :=
  if width = 0 then .error (.failure .zeroWidth)
  else
    match Counts.addLines width separator ∅ ((Text.lines source.toList).zipIdx 1) with
    | .error e => .error (.failure e)
    | .ok counts => ofCounts width counts

end Frequencies

end RuneSolver.Language
