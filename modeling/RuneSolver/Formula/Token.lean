import RuneSolver.Text.Lines
import RuneSolver.Text.Numeral

/-!
The tokens of a postfix formula. Operations take two operands, specials take one, and singles
are values of the rune at hand; every other word is a literal number or unknown. A formula is
its text together with the tokens of its words.
-/

namespace RuneSolver

/-- Binary operators. -/
inductive Operation where
  | add | subtract | multiply | exclusiveOr | divide | remainder
  deriving DecidableEq, Repr

/-- Values of the current rune, of the previous one, and the position. -/
inductive Single where
  | index | prime | previousIndex | previousPrime | position
  deriving DecidableEq, Repr

/-- Functions of one number. -/
inductive Special where
  | prime | totient | pi
  deriving DecidableEq, Repr

namespace Operation

def all : List Operation := [add, subtract, multiply, exclusiveOr, divide, remainder]

def symbol : Operation → String
  | add => "+"
  | subtract => "-"
  | multiply => "*"
  | exclusiveOr => "^"
  | divide => "/"
  | remainder => "%"

def ofSymbol? (word : String) : Option Operation := all.find? (·.symbol == word)

end Operation

namespace Single

def all : List Single := [index, prime, previousIndex, previousPrime, position]

def symbol : Single → String
  | index => "p"
  | prime => "pr"
  | previousIndex => "prevp"
  | previousPrime => "prevpr"
  | position => "i"

def ofSymbol? (word : String) : Option Single := all.find? (·.symbol == word)

end Single

namespace Special

def all : List Special := [prime, totient, pi]

def symbol : Special → String
  | prime => "prime"
  | totient => "φ"
  | pi => "π"

def ofSymbol? (word : String) : Option Special := all.find? (·.symbol == word)

end Special

/-- The kinds of token that a grammar chooses from. -/
inductive Category where
  | operation | single | special
  deriving DecidableEq, Repr

def Category.label : Category → String
  | operation => "decryption operation"
  | single => "decryption single"
  | special => "decryption special"

/-- Every token that has a symbol, with its category. -/
def registry : List (String × Category) :=
  Operation.all.map (·.symbol, .operation) ++ Single.all.map (·.symbol, .single) ++
    Special.all.map (·.symbol, .special)

def category? (symbol : String) : Option Category := registry.lookup symbol

inductive Token where
  | literal (value : Int32)
  | single (value : Single)
  | special (function : Special)
  | operation (operator : Operation)
  | unknown (word : String)
  deriving DecidableEq, Repr

namespace Token

/-- A word is a symbol, or else a number of thirty-two bits, or else unknown. -/
def ofWord (word : String) : Token :=
  match Single.ofSymbol? word with
  | some s => .single s
  | none =>
    match Special.ofSymbol? word with
    | some s => .special s
    | none =>
      match Operation.ofSymbol? word with
      | some o => .operation o
      | none =>
        match Text.readInt32 word.toList with
        | .ok value => .literal value
        | .error _ => .unknown word

def word : Token → String
  | literal value => Text.integerText value.toInt
  | single s => s.symbol
  | special s => s.symbol
  | operation o => o.symbol
  | unknown word => word

end Token

/-- A postfix formula. -/
structure Formula where
  text : String
  tokens : List Token
  deriving DecidableEq, Repr

/-- The formula of the words of a text. -/
def Formula.ofText (text : String) : Formula :=
  ⟨text, (Text.fields text.toList).map fun word => .ofWord (String.ofList word)⟩

@[simp] theorem Formula.text_ofText (text : String) : (Formula.ofText text).text = text := rfl

end RuneSolver
