import RuneSolver.Json.Value

/-!
JSON texts for reading by people: two spaces of indentation for each level, every element and
member on a line of its own, and empty arrays and objects closed at once. In strings, quotes,
backslashes and control characters are escaped, and everything else stands for itself.
-/

namespace RuneSolver.Json

def hexDigit (n : Nat) : Char :=
  if n < 10 then Char.ofNat ('0'.toNat + n) else Char.ofNat ('a'.toNat + (n - 10))

def escape (c : Char) : List Char :=
  match c with
  | '"' => ['\\', '"']
  | '\\' => ['\\', '\\']
  | '\x08' => ['\\', 'b']
  | '\x0c' => ['\\', 'f']
  | '\n' => ['\\', 'n']
  | '\r' => ['\\', 'r']
  | '\t' => ['\\', 't']
  | c =>
    if c.toNat < 0x20 then
      ['\\', 'u', '0', '0', hexDigit (c.toNat / 16), hexDigit (c.toNat % 16)]
    else [c]

def quoted (cs : List Char) : List Char := '"' :: cs.flatMap escape ++ ['"']

/-- The string that stands for a text; half a surrogate pair has none and is left out. -/
def quotedText (text : Option String) : List Char := quoted (text.getD "").toList

def newLine (depth : Nat) : List Char := '\n' :: List.replicate (2 * depth) ' '

mutual

/-- The text of a value inside of `depth` others. -/
def pretty (depth : Nat) : Json → List Char
  | .null => "null".toList
  | .bool true => "true".toList
  | .bool false => "false".toList
  | .number written => written
  | .string text => quotedText text
  | .array [] => ['[', ']']
  | .array (first :: rest) =>
    '[' :: newLine (depth + 1) ++ pretty (depth + 1) first ++ prettyElements (depth + 1) rest ++
      newLine depth ++ [']']
  | .object [] => ['\x7b', '\x7d']
  | .object ((key, first) :: rest) =>
    '\x7b' :: newLine (depth + 1) ++ quotedText key ++ [':', ' '] ++ pretty (depth + 1) first ++
      prettyMembers (depth + 1) rest ++ newLine depth ++ ['\x7d']

/-- The elements after the first. -/
def prettyElements (depth : Nat) : List Json → List Char
  | [] => []
  | v :: vs => ',' :: newLine depth ++ pretty depth v ++ prettyElements depth vs

/-- The members after the first. -/
def prettyMembers (depth : Nat) : List (Option String × Json) → List Char
  | [] => []
  | (key, v) :: rest =>
    ',' :: newLine depth ++ quotedText key ++ [':', ' '] ++ pretty depth v ++
      prettyMembers depth rest

end

/-- The text of a value. -/
def print (v : Json) : String := String.ofList (pretty 0 v)

end RuneSolver.Json
