import RuneSolver.Language.Frequencies
import RuneSolver.Text.Part

/-!
The score of a text under the n-gram frequencies of a language: the decimal logarithms of the
relative frequencies of its windows, summed from left to right and divided by the number of
characters. An n-gram that the table lacks counts as a hundredth of an occurrence. What is judged of
a deciphered text is its characters without brackets, spaces, line ends, small Latin letters and
digits; it is varied when it has enough different characters for its length.
-/

namespace RuneSolver.Language

/-! ### Judged texts -/

/-- A character that does not take part in the judgement of a text. -/
def isIgnored (c : Char) : Bool :=
  c == '[' || c == ']' || c == ' ' || c == '\r' || c == '\n' || c.isLower || c.isDigit

def judged (cs : List Char) : List Char := cs.filter (!isIgnored ·)

/-- The number of different characters that a text of some length needs. -/
def requiredDistinct (length : Nat) : Nat := if 20 < length then 10 else 5

def isVaried (cs : List Char) : Bool := requiredDistinct cs.length ≤ cs.eraseDups.length

/-! ### Models -/

def negativeInfinity : Float := -1.0 / 0.0

/-- The logarithm of a share of a total; nothing has the logarithm of minus infinity. -/
def logShare (count total : UInt64) : Float :=
  if count = 0 then negativeInfinity else Float.log10 (count.toFloat / total.toFloat)

/-- The logarithm that an n-gram outside the table has. -/
def logUnseen (total : UInt64) : Float := Float.log10 (0.01 / total.toFloat)

structure Model where
  width : Nat
  unseen : Float
  scores : Std.HashMap String Float

namespace Model

def ofFrequencies (f : Frequencies) : Model :=
  ⟨f.width, logUnseen f.total, f.counts.map fun _ count => logShare count f.total⟩

def parse (source : String) (width : Nat) (separator : Char) :
    Except (Fault FrequencyError) Model :=
  (Frequencies.parse source width separator).map ofFrequencies

/-- The number of n-grams in the table. -/
def size (m : Model) : Nat := m.scores.size

def ngramScore (m : Model) (ngram : List Char) : Float :=
  m.scores.getD (String.ofList ngram) m.unseen

end Model

/-! ### Scores -/

/-- The window that begins at one character of a text and ends behind as many as its width, between
the boundaries of these characters. -/
def window? (text : String) (boundaries : Array Nat) (width start : Nat) : Option String := do
  let first ← boundaries[start]?
  let last ← boundaries[start + width]?
  Text.slice? text first last

/-- The windows of a width, from left to right. A text that is shorter has none. -/
def windows (width : Nat) (cs : List Char) : List (List Char) :=
  let text := String.ofList cs
  let boundaries := Text.boundaries text
  let starts := List.range (boundaries.size - 1 - (width - 1))
  (starts.filterMap (window? text boundaries width)).map String.toList

namespace Model

/-- The sum of the scores of n-grams, from left to right. -/
def sum (m : Model) (ngrams : List (List Char)) : Float :=
  ngrams.foldl (fun total ngram => total + m.ngramScore ngram) 0.0

/-- The score of a text that is judged whole. An empty text scores minus infinity. -/
def scoreJudged (m : Model) (cs : List Char) : Float :=
  let length := (Text.boundaries (String.ofList cs)).size - 1
  if length = 0 then negativeInfinity
  else m.sum (windows m.width cs) / length.toUInt64.toFloat

def score (m : Model) (cs : List Char) : Float := m.scoreJudged (judged cs)

end Model

end RuneSolver.Language
