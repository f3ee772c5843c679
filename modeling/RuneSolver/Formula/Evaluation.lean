import RuneSolver.Alphabet
import RuneSolver.Formula.Token
import RuneSolver.Number.Basic
import RuneSolver.Number.Tables

/-!
Evaluation of a postfix formula by a stack of signed thirty-two bit numbers, whose arithmetic
wraps. Tokens are read from left to right; a formula has a value when every token finds its
operands and exactly one number is left. One stack serves any number of evaluations, also after
one that failed.
-/

namespace RuneSolver

/-- Why a formula has no value. -/
inductive FormulaError where
  | divisionByZero
  | stackUnderflow (token : Token)
  | unbalanced (depth : Nat)
  | unknownToken (word : String)
  | outOfRange (function : Special) (argument : Int32)
  deriving DecidableEq, Repr

def FormulaError.message : FormulaError → String
  | .divisionByZero => "division by zero"
  | .stackUnderflow token => s!"stack underflow at token '{token.word}'"
  | .unbalanced depth => s!"expected one value on the stack, found {depth}"
  | .unknownToken word => s!"unknown token '{word}'"
  | .outOfRange function argument =>
    s!"{function.symbol}({Text.integerText argument.toInt}) is out of range"

/-- What the singles of a formula stand for. -/
structure Context where
  current : Rune
  previous : Rune
  position : Int32

/-- Division and remainder go toward zero. -/
def Operation.apply (a b : Int32) : Operation → Except FormulaError Int32
  | add => .ok (a + b)
  | subtract => .ok (a - b)
  | multiply => .ok (a * b)
  | exclusiveOr => .ok (a ^^^ b)
  | divide => if b = 0 then .error .divisionByZero else .ok (a / b)
  | remainder => if b = 0 then .error .divisionByZero else .ok (a % b)

/-- The index of a rune as an operand: its lowest thirty-two bits. -/
def Rune.operand (r : Rune) : Int32 := Int32.ofNat r.index.toNat

def Single.value (c : Context) : Single → Int32
  | index => c.current.operand
  | prime => c.current.prime
  | previousIndex => c.previous.operand
  | previousPrime => c.previous.prime
  | position => c.position

/-- Primes and digits of π are known only as far as the tables go. -/
def Special.apply (t : NumberTables) (n : Int32) : Special → Except FormulaError Int32
  | prime => (t.prime? n).elim (.error (.outOfRange .prime n)) .ok
  | totient => .ok (Number.totient n)
  | pi => (t.digit? n).elim (.error (.outOfRange .pi n)) .ok

/-- The operands of a formula that are still waiting, the last one first. -/
abbrev Stack := List Int32

/-- A computation on a stack. Where it fails it leaves the stack as it is at that point. -/
abbrev Machine := EStateM FormulaError Stack

namespace Machine

/-- The result of a computation that starts on a stack, without the stack it leaves. -/
def outcome {α : Type} (m : Machine α) (stack : Stack) : Except FormulaError α :=
  match m stack with
  | .ok a _ => .ok a
  | .error e _ => .error e

def push (v : Int32) : Machine Unit := modify (v :: ·)

/-- Takes the last operand, which a token asks for. -/
def pop (token : Token) : Machine Int32 := do
  match ← get with
  | [] => throw (.stackUnderflow token)
  | v :: rest => set rest; return v

/-- The number on the stack, if it is the only one. -/
def soleValue : Machine Int32 := do
  match ← get with
  | [v] => return v
  | stack => throw (.unbalanced stack.length)

end Machine

namespace Token

open Machine

def step (t : NumberTables) (c : Context) : Token → Machine Unit
  | literal value => push value
  | single s => push (s.value c)
  | special s => do
    let n ← pop (.special s)
    push (← ofExcept (s.apply t n))
  | operation o => do
    let b ← pop (.operation o)
    let a ← pop (.operation o)
    push (← ofExcept (o.apply a b))
  | unknown word => throw (.unknownToken word)

def run (t : NumberTables) (c : Context) : List Token → Machine Unit
  | [] => return
  | token :: tokens => do
    token.step t c
    run t c tokens

@[simp] theorem run_nil (t : NumberTables) (c : Context) (stack : Stack) :
    run t c [] stack = .ok () stack := rfl

end Token

namespace Formula

/-- The value of a formula. Whatever the stack holds is dropped first; a formula has a value when
exactly one number is left on it. -/
def evaluateOn (t : NumberTables) (c : Context) (f : Formula) : Machine Int32 := do
  set ([] : Stack)
  Token.run t c f.tokens
  Machine.soleValue

/-- The value of a formula on a fresh stack. -/
def evaluate (t : NumberTables) (c : Context) (f : Formula) : Except FormulaError Int32 :=
  (f.evaluateOn t c).outcome []

/-- The index in an alphabet of some size that the value of a formula stands for. -/
def target (t : NumberTables) (c : Context) (size : Nat) (f : Formula) : Machine Nat := do
  let v ← f.evaluateOn t c
  return (Number.residue v (Int32.ofNat size)).toNat

end Formula

end RuneSolver
