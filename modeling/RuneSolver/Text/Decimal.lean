/-!
A binary double written with a fixed number of decimals, correctly rounded from its exact value;
a half goes to the even neighbour. The value is taken from the bits of the double, so that the
digits come out of exact arithmetic on natural numbers.
-/

namespace RuneSolver.Text

/-- The quotient rounded to the nearest natural number, a half to the even one. -/
def roundDiv (num den : Nat) : Nat :=
  let quotient := num / den
  let twice := 2 * (num % den)
  if twice < den then quotient
  else if den < twice then quotient + 1
  else quotient + quotient % 2

/-- A finite double as a sign, a significand and a power of two. -/
structure Binary where
  negative : Bool
  significand : Nat
  exponent : Int
  deriving DecidableEq, Repr

inductive DoubleValue where
  | finite (value : Binary)
  | infinite (negative : Bool)
  | notANumber
  deriving DecidableEq, Repr

/-- The fields of a double: one sign bit, eleven bits of exponent, fifty-two of fraction. -/
def DoubleValue.ofBits (bits : Nat) : DoubleValue :=
  let negative := decide (bits / Nat.pow 2 63 % 2 = 1)
  let exponent : Nat := bits / Nat.pow 2 52 % Nat.pow 2 11
  let fraction := bits % Nat.pow 2 52
  if exponent = 2047 then
    if fraction = 0 then .infinite negative else .notANumber
  else if exponent = 0 then .finite ⟨negative, fraction, -1074⟩
  else .finite ⟨negative, Nat.pow 2 52 + fraction, (exponent : Int) - 1075⟩

/-- The magnitude in units of the last decimal. -/
def Binary.scaled (places : Nat) (x : Binary) : Nat :=
  match x.exponent with
  | .ofNat e => x.significand * Nat.pow 2 e * Nat.pow 10 places
  | .negSucc e => roundDiv (x.significand * Nat.pow 10 places) (Nat.pow 2 (e + 1))

/-- A number of units of the last decimal, with a point before the decimals. -/
def withPoint (places units : Nat) : String :=
  let whole := toString (units / Nat.pow 10 places)
  let decimals := toString (units % Nat.pow 10 places)
  whole ++ "." ++ String.ofList (List.replicate (places - decimals.length) '0') ++ decimals

/-- The double with that many decimals. The sign of zero is kept. -/
def fixed (places : Nat) (x : Float) : String :=
  match DoubleValue.ofBits x.toBits.toNat with
  | .notANumber => "NaN"
  | .infinite negative => if negative then "-inf" else "inf"
  | .finite value =>
    (if value.negative then "-" else "") ++ withPoint places (value.scaled places)

end RuneSolver.Text
