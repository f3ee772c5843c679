/-!
The lines of a text, and white space in them. A line ends at a line feed, a carriage return directly
before that line feed belongs to the line end, and what follows the last line feed is a line only if
it is not empty; there a carriage return is an ordinary character. A character is blank when it has
the Unicode property White_Space; trimming, blank lines and the fields of a line depend on it.
-/

namespace RuneSolver.Text

/-! ### Lines -/

/-- A line without the carriage return that stood before its line feed. -/
def dropReturn (line : List Char) : List Char :=
  if line.getLast? = some '\r' then line.dropLast else line

def lines (cs : List Char) : List (List Char) :=
  let pieces := cs.splitOn '\n'
  let rest := pieces.getLastD []
  pieces.dropLast.map dropReturn ++ (if rest.isEmpty then [] else [rest])

@[simp] theorem lines_nil : lines [] = [] := rfl

/-- The lines of a text, as texts. -/
def linesOf (s : String) : List String := (lines s.toList).map String.ofList

/-! ### Blanks -/

/-- The twenty-five characters of the property White_Space. -/
def isBlank (c : Char) : Bool :=
  let n := c.toNat
  (0x09 ≤ n && n ≤ 0x0D) || n == 0x20 || n == 0x85 || n == 0xA0 || n == 0x1680 ||
    (0x2000 ≤ n && n ≤ 0x200A) || n == 0x2028 || n == 0x2029 || n == 0x202F ||
    n == 0x205F || n == 0x3000

def trimStart (cs : List Char) : List Char := cs.dropWhile isBlank

def trimEnd (cs : List Char) : List Char := (cs.reverse.dropWhile isBlank).reverse

/-- The text without the blanks at its two ends. -/
def trim (cs : List Char) : List Char := trimEnd (trimStart cs)

def isBlankLine (cs : List Char) : Bool := cs.all isBlank

def removeBlanks (cs : List Char) : List Char := cs.filter (!isBlank ·)

/-- The maximal runs of characters that are not blank. -/
def fields (cs : List Char) : List (List Char) :=
  (cs.splitOnP isBlank).filter (!·.isEmpty)

end RuneSolver.Text
