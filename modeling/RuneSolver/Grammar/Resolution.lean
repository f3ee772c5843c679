import RuneSolver.Grammar.Enumeration
import RuneSolver.Grammar.Rule
import RuneSolver.Grammar.Vocabulary

/-!
Resolution of production rules, in the order of their declaration, into the enumeration of what
the root nonterminal stands for. A name is defined once: the categories of the vocabulary come
first, and a later rule of a defined name is passed over. A reference to the name under
definition stands for the alternatives before the one that holds it.
-/

namespace RuneSolver.Grammar

/-- Why rules have no meaning. -/
inductive ResolutionError where
  | earlySelfReference (name : String)
  | undefinedReference (name reference : String)
  | noRoot
  | overflow
  deriving DecidableEq, Repr

/-- The nonterminal whose texts are the attempts. -/
def rootName : String := "decryption"

def ResolutionError.message : ResolutionError → String
  | .earlySelfReference name => s!"<{name}> references itself before any alternative is defined"
  | .undefinedReference name reference =>
    s!"<{name}> references undefined nonterminal <{reference}>"
  | .noRoot => s!"no <{rootName}> rule defined"
  | .overflow => "attempt count overflow"

/-- The nonterminals defined so far. -/
abbrev Definitions := List (String × Enumeration)

def Vocabulary.definitions (v : Vocabulary) : Definitions :=
  v.nonterminals.map fun (name, tokens) => (name, Enumeration.ofList tokens)

def orOverflow : Option Enumeration → Except ResolutionError Enumeration
  | some e => .ok e
  | none => .error .overflow

namespace Definitions

def defines (defs : Definitions) (name : String) : Bool := (defs.lookup name).isSome

/-- What a reference stands for in an alternative of `name` after some others. -/
def factor (defs : Definitions) (name : String) (earlier : List Enumeration)
    (reference : String) : Except ResolutionError Enumeration :=
  if reference = name then
    if earlier.isEmpty then .error (.earlySelfReference name)
    else orOverflow (Enumeration.concat? earlier)
  else
    match defs.lookup reference with
    | some e => .ok e
    | none => .error (.undefinedReference name reference)

def factors (defs : Definitions) (name : String) (earlier : List Enumeration) :
    List String → Except ResolutionError (List Enumeration)
  | [] => .ok []
  | reference :: references =>
    match defs.factor name earlier reference with
    | .error e => .error e
    | .ok first => (defs.factors name earlier references).map (first :: ·)

/-- The alternatives of `name`, of which some are resolved. -/
def alternatives (defs : Definitions) (name : String) :
    List Enumeration → List (List String) → Except ResolutionError (List Enumeration)
  | earlier, [] => .ok earlier
  | earlier, references :: rest =>
    match defs.factors name earlier references with
    | .error e => .error e
    | .ok factors =>
      match Enumeration.product? factors with
      | none => .error .overflow
      | some alternative => defs.alternatives name (earlier ++ [alternative]) rest

/-- What the name of a rule stands for. -/
def meaning (defs : Definitions) (rule : Rule) : Except ResolutionError Enumeration :=
  match defs.alternatives rule.name [] rule.alternatives with
  | .error e => .error e
  | .ok alternatives => orOverflow (Enumeration.concat? alternatives)

/-- Adds the rules in order. The names of those passed over come along, also where a rule fails
after them. -/
def addRules : Definitions → List Rule → List String × Except ResolutionError Definitions
  | defs, [] => ([], .ok defs)
  | defs, rule :: rules =>
    if defs.defines rule.name then
      let (later, result) := defs.addRules rules
      (rule.name :: later, result)
    else
      match defs.meaning rule with
      | .error e => ([], .error e)
      | .ok e => addRules ((rule.name, e) :: defs) rules

def root (defs : Definitions) : Except ResolutionError Enumeration :=
  match defs.lookup rootName with
  | some e => .ok e
  | none => .error .noRoot

end Definitions

/-- The texts of the root nonterminal, and the names that are defined again. -/
def resolve (v : Vocabulary) (rules : List Rule) :
    List String × Except ResolutionError Enumeration :=
  let (again, defs) := v.definitions.addRules rules
  (again, defs.bind Definitions.root)

end RuneSolver.Grammar
