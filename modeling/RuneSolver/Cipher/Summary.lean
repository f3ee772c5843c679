import RuneSolver.Cipher.Search
import RuneSolver.Text.Decimal

/-!
The summary of a search in words. The score has three decimals.
-/

namespace RuneSolver.Cipher

/-- The text without the line ends after it. -/
def dropLineEnds (cs : List Char) : List Char :=
  (cs.reverse.dropWhile fun c => c == '\r' || c == '\n').reverse

namespace Candidate

def skipsText : List Nat → String
  | [] => ""
  | [position] => s!" (and skipping rune index {position})"
  | positions =>
    let list := ", ".intercalate (positions.map Text.naturalText)
    s!" (and skipping rune indices {list})"

def shiftText (shift : UInt64) : String :=
  if shift = 0 then "" else s!"a shift of {Text.naturalText shift.toNat} and "

def summary (c : Candidate) : String :=
  s!"The optimum result is using attempt \"{c.formula}\"" ++ skipsText c.skips ++ ", with " ++
    shiftText c.shift ++ s!"score {Text.fixed 3 c.score}:\n" ++
    String.ofList (dropLineEnds c.text.toList)

end Candidate

/-- The summary of the outcome of a search. -/
def summary : Option Candidate → String
  | some c => c.summary
  | none => "Unable to find an acceptable result."

end RuneSolver.Cipher
