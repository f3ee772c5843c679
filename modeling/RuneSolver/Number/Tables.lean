import RuneSolver.Number.Basic
import RuneSolver.Text.Numeral

/-!
The tables that the number-theoretic functions of a formula look into: the primes below a limit
and digits of π.
-/

namespace RuneSolver

/-- A source of digits has none. -/
inductive DigitsError where
  | noDigits
  deriving DecidableEq, Repr

def DigitsError.message : DigitsError → String
  | .noDigits => "π digit source contains no digits"

structure NumberTables where
  primes : Array Nat
  digits : Array Nat

namespace NumberTables

/-- The leading three of π and two hundred decimals. -/
def builtInDigits : String :=
  "3" ++
  "14159265358979323846264338327950288419716939937510" ++
  "58209749445923078164062862089986280348253421170679" ++
  "82148086513282306647093844609550582231725359408128" ++
  "48111745028410270193852110555964462294895493038196"

/-- The digits of a text; everything else in it is passed over. -/
def readDigits (source : String) : List Nat := source.toList.filterMap Text.digitValue?

/-- No prime is below a limit that is negative. -/
def primesBelow (limit : Int32) : List Nat := Number.primesBelow limit.toInt.toNat

def generate (limit : Int32) (source : String) : Except DigitsError NumberTables :=
  match readDigits source with
  | [] => .error .noDigits
  | digits => .ok ⟨(primesBelow limit).toArray, digits.toArray⟩

def builtIn (limit : Int32) : NumberTables :=
  ⟨(primesBelow limit).toArray, (readDigits builtInDigits).toArray⟩

/-- The entry of a table at a position that may be negative. -/
def entry? (table : Array Nat) (n : Int32) : Option Int32 :=
  match n.toInt with
  | .ofNat k => table[k]?.map Int32.ofNat
  | .negSucc _ => none

/-- The prime at a position, counted from zero. -/
def prime? (t : NumberTables) (n : Int32) : Option Int32 := entry? t.primes n

/-- The digit of π at a position, counted from zero. -/
def digit? (t : NumberTables) (n : Int32) : Option Int32 := entry? t.digits n

end NumberTables

end RuneSolver
