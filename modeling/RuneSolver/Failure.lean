import RuneSolver.Alphabet
import RuneSolver.Cipher.Document
import RuneSolver.Disk.Basic
import RuneSolver.Grammar.Replacements
import RuneSolver.Grammar.Resolution
import RuneSolver.Language.Frequencies
import RuneSolver.Number.Tables
import RuneSolver.Settings.Basic

/-!
What ends a job before any formula is tried: the causes of all its parts, grouped by the table or
text at fault.
-/

namespace RuneSolver

inductive Failure where
  | alphabet (cause : AlphabetError)
  | rule (cause : Grammar.RuleError)
  | selection (cause : Grammar.SelectionError)
  | resolution (cause : Grammar.ResolutionError)
  | replacement (cause : Grammar.ReplacementError)
  | frequency (cause : Language.FrequencyError)
  | document (cause : Cipher.DocumentError)
  | digits (cause : DigitsError)
  | settings (cause : SettingsError)
  | disk (cause : DiskError)
  deriving DecidableEq, Repr

/-- What is at fault. -/
inductive Area where
  | gematria | grammar | replacement | ngram | document | settings | disk
  deriving DecidableEq, Repr

def Area.heading : Area → String
  | gematria => "Gematria error"
  | grammar => "Grammar error"
  | replacement => "Replacement error"
  | ngram => "N-gram error"
  | document => "Document error"
  | settings => "Settings error"
  | disk => "I/O error"

namespace Failure

/-- Digits that are missing are a matter of the settings, which name their source. -/
def area : Failure → Area
  | alphabet _ => .gematria
  | rule _ | selection _ | resolution _ => .grammar
  | replacement _ => .replacement
  | frequency _ => .ngram
  | document _ => .document
  | digits _ | settings _ => .settings
  | disk _ => .disk

def detail : Failure → String
  | alphabet cause => cause.message
  | rule cause => cause.message
  | selection cause => cause.message
  | resolution cause => cause.message
  | replacement cause => cause.message
  | frequency cause => cause.message
  | document cause => cause.message
  | digits cause => cause.message
  | settings cause => cause.message
  | disk cause => cause.message

def message (f : Failure) : String := s!"{f.area.heading}: {f.detail}"

end Failure

end RuneSolver
