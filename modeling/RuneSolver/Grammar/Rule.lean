import RuneSolver.Alphabet
import RuneSolver.Text.Lines
import RuneSolver.Text.Part

/-!
Production rules: `<name>::=<a><b>|<c>`, a nonterminal and its alternatives, each a sequence of
references to nonterminals. Blanks anywhere in a rule are ignored.
-/

namespace RuneSolver.Grammar

structure Rule where
  name : String
  alternatives : List (List String)
  deriving DecidableEq, Repr

/-- Why a text is no rule. -/
inductive RuleError where
  | noDefinition (rule : String)
  | secondDefinition (rule : String)
  | badHead (head : String)
  | badAlternative (alternative name : String)
  deriving DecidableEq, Repr

def RuleError.message : RuleError → String
  | .noDefinition rule => s!"rule '{rule}' has no '::='"
  | .secondDefinition rule => s!"rule '{rule}' has more than one '::='"
  | .badHead head => s!"rule head '{head}' must be a single <nonterminal>"
  | .badAlternative alternative name =>
    s!"alternative '{alternative}' of <{name}> must be a sequence of <nonterminal> references"

namespace Rule

/-- What stands between the head of a rule and its body. -/
def definitionMark : List Char := [':', ':', '=']

/-- A character that no name holds. -/
def isDelimiter (c : Char) : Bool := c == '<' || c == '>' || c == '|'

/-- The names of a sequence of references. Between references the name read so far is `none`,
inside one its characters are collected from the last to the first. -/
def readReferences : Option (List Char) → List Char → Option (List (List Char))
  | none, [] => some []
  | none, c :: cs => if c == '<' then readReferences (some []) cs else none
  | some _, [] => none
  | some name, c :: cs =>
    if c == '>' then
      if name.isEmpty then none else (readReferences none cs).map (name.reverse :: ·)
    else if isDelimiter c then none
    else readReferences (some (c :: name)) cs

/-- The names of a nonempty sequence of references. -/
def references? (cs : List Char) : Option (List (List Char)) :=
  match readReferences none cs with
  | some (name :: names) => some (name :: names)
  | _ => none

/-- The name in a head, which is a single reference. -/
def head? (cs : List Char) : Option (List Char) :=
  match references? cs with
  | some [name] => some name
  | _ => none

def readAlternatives (name : List Char) : List (List Char) → Except RuleError (List (List String))
  | [] => .ok []
  | alternative :: rest =>
    match references? alternative with
    | none => .error (.badAlternative (String.ofList alternative) (String.ofList name))
    | some names =>
      (readAlternatives name rest).map (names.map String.ofList :: ·)

/-- Reads a rule. -/
def ofChars (cs : List Char) : Except RuleError Rule :=
  match Text.cutAt? definitionMark (Text.removeBlanks cs) with
  | none => .error (.noDefinition (String.ofList (Text.trim cs)))
  | some (head, body) =>
    if Text.contains definitionMark body then
      .error (.secondDefinition (String.ofList (Text.trim cs)))
    else
      match head? head with
      | none => .error (.badHead (String.ofList head))
      | some name =>
        (readAlternatives name (body.splitOn '|')).map fun alternatives =>
          ⟨String.ofList name, alternatives⟩

def parse (source : String) : Except RuleError Rule := ofChars source.toList

end Rule

/-- A line of a rule file that is passed over: a comment, also after blanks, or a blank line. -/
def isRuleLine (line : List Char) : Bool :=
  !commentMark.isPrefixOf (Text.trimStart line) && !Text.isBlankLine line

def readRules : List (List Char) → Except RuleError (List Rule)
  | [] => .ok []
  | line :: lines =>
    match Rule.ofChars line with
    | .error e => .error e
    | .ok rule => (readRules lines).map (rule :: ·)

/-- The rules of a file, one on each line that is neither a comment nor blank. -/
def parseRules (source : String) : Except RuleError (List Rule) :=
  readRules ((Text.lines source.toList).filter isRuleLine)

end RuneSolver.Grammar
