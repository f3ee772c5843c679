import RuneSolver.Formula.Token

/-!
The tokens that a grammar may use, by category and in the order of their selection.
-/

namespace RuneSolver.Grammar

structure Vocabulary where
  operations : List String
  singles : List String
  specials : List String
  deriving DecidableEq, Repr

/-- A selection names a token that does not exist. -/
inductive SelectionError where
  | unsupported (token : String)
  deriving DecidableEq, Repr

def SelectionError.message : SelectionError → String
  | .unsupported token => s!"unsupported grammar token '{token}'"

namespace Vocabulary

def empty : Vocabulary := ⟨[], [], []⟩

/-- A token that comes again keeps its place. -/
def addOnce (tokens : List String) (token : String) : List String :=
  if tokens.contains token then tokens else tokens ++ [token]

def insert (v : Vocabulary) (token : String) : Category → Vocabulary
  | .operation => { v with operations := addOnce v.operations token }
  | .single => { v with singles := addOnce v.singles token }
  | .special => { v with specials := addOnce v.specials token }

def addAll : Vocabulary → List String → Except SelectionError Vocabulary
  | v, [] => .ok v
  | v, token :: tokens =>
    match category? token with
    | none => .error (.unsupported token)
    | some category => addAll (v.insert token category) tokens

def ofTokens (tokens : List String) : Except SelectionError Vocabulary := empty.addAll tokens

/-- Every token there is. -/
def all : Vocabulary :=
  ⟨Operation.all.map (·.symbol), Single.all.map (·.symbol), Special.all.map (·.symbol)⟩

/-- The nonterminals that stand for the categories; operations have two names. -/
def nonterminals (v : Vocabulary) : List (String × List String) :=
  [("op", v.operations), ("operation", v.operations), ("single", v.singles),
    ("special", v.specials)]

end Vocabulary

end RuneSolver.Grammar
