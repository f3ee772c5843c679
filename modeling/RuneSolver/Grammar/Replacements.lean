import RuneSolver.Alphabet
import RuneSolver.Text.Part

/-!
Replacements that clean up attempts: an ordered list of patterns and the texts that take their
place, applied one after the other. Patterns are pairwise different; a pattern that comes again
keeps its place and takes the later text.
-/

namespace RuneSolver.Grammar

/-- Why a list of replacements is refused. Lines are counted from one. -/
inductive ReplacementError where
  | noSeparator (line : Nat) (text : String)
  | emptyPattern (line : Nat)
  deriving DecidableEq, Repr

def ReplacementError.message : ReplacementError → String
  | .noSeparator line text => s!"line {line}: expected '<pattern>;<replacement>', found '{text}'"
  | .emptyPattern line => s!"line {line}: pattern must not be empty"

/-- Patterns with their replacements, in the order of application. -/
abbrev Replacements := List (List Char × List Char)

namespace Replacements

/-- Appends a replacement, or changes the text of a pattern in its place. -/
def add (pattern text : List Char) : Replacements → Replacements
  | [] => [(pattern, text)]
  | (p, t) :: rest => if p = pattern then (p, text) :: rest else (p, t) :: add pattern text rest

/-- The pattern and the text of a line; what follows a second separator is ignored. -/
def entry (number : Nat) (line : List Char) :
    Except ReplacementError (List Char × List Char) :=
  match line.splitOn ';' with
  | pattern :: text :: _ =>
    if pattern.isEmpty then .error (.emptyPattern number) else .ok (pattern, text)
  | _ => .error (.noSeparator number (String.ofList line))

/-- Reads numbered lines into the list. Comment lines and blank lines are passed over. -/
def addLines : Replacements → List (List Char × Nat) → Except ReplacementError Replacements
  | entries, [] => .ok entries
  | entries, (line, number) :: lines =>
    if carriesData line then
      match entry number line with
      | .error e => .error e
      | .ok (pattern, text) => addLines (add pattern text entries) lines
    else addLines entries lines

def parse (source : String) : Except ReplacementError Replacements :=
  addLines [] ((Text.lines source.toList).zipIdx 1)

def applyTo (entries : Replacements) (cs : List Char) : List Char :=
  entries.foldl (fun text (pattern, replacement) => Text.replaceAll pattern replacement text) cs

/-- Applies every replacement, in order. -/
def apply (entries : Replacements) (attempt : String) : String :=
  String.ofList (entries.applyTo attempt.toList)

end Replacements

end RuneSolver.Grammar
