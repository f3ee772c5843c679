/-!
Whole numbers in decimal. A numeral is a nonempty run of the ten ASCII digits after at most one
sign; a plus sign is always allowed, a minus sign only where numbers may be negative. Reading is
bounded by a range and tells why a text is refused: of two faults, the one that stands further
left wins, and at one character a wrong character wins over leaving the range.
-/

namespace RuneSolver.Text

inductive NumeralError where
  | empty
  | invalidDigit
  | tooLarge
  | tooSmall
  deriving DecidableEq, Repr

def NumeralError.message : NumeralError → String
  | .empty => "cannot parse integer from empty string"
  | .invalidDigit => "invalid digit found in string"
  | .tooLarge => "number too large to fit in target type"
  | .tooSmall => "number too small to fit in target type"

def digitValue? (c : Char) : Option Nat :=
  if c.isDigit then some (c.toNat - '0'.toNat) else none

/-- Continues a magnitude by digits while it stays within the limit. -/
def readDigits (limit : Nat) (overflow : NumeralError) :
    Nat → List Char → Except NumeralError Nat
  | n, [] => .ok n
  | n, c :: cs =>
    match digitValue? c with
    | none => .error .invalidDigit
    | some d =>
      if 10 * n + d ≤ limit then readDigits limit overflow (10 * n + d) cs
      else .error overflow

/-- The digits that follow a sign or start a numeral: at least one. -/
def readMagnitude (limit : Nat) (overflow : NumeralError) (cs : List Char) :
    Except NumeralError Nat :=
  if cs.isEmpty then .error .invalidDigit else readDigits limit overflow 0 cs

/-- A number from zero up to the limit. -/
def readNatural (limit : Nat) : List Char → Except NumeralError Nat
  | [] => .error .empty
  | '+' :: cs => readMagnitude limit .tooLarge cs
  | cs => readMagnitude limit .tooLarge cs

/-- A number of at most the given magnitudes below and above zero. -/
def readInteger (below above : Nat) : List Char → Except NumeralError Int
  | [] => .error .empty
  | '+' :: cs => (readMagnitude above .tooLarge cs).map Int.ofNat
  | '-' :: cs => (readMagnitude below .tooSmall cs).map fun n => -(Int.ofNat n)
  | cs => (readMagnitude above .tooLarge cs).map Int.ofNat

/-- The largest number of sixty-four bits. -/
def wordLimit : Nat := UInt64.size - 1

/-- A number of sixty-four bits. -/
def readWord (cs : List Char) : Except NumeralError UInt64 :=
  (readNatural wordLimit cs).map UInt64.ofNat

/-- A signed number of thirty-two bits. -/
def readInt32 (cs : List Char) : Except NumeralError Int32 :=
  (readInteger 2147483648 2147483647 cs).map Int32.ofInt

def natural (n : Nat) : List Char := Nat.toDigits 10 n

def integer : Int → List Char
  | .ofNat n => natural n
  | .negSucc n => '-' :: natural (n + 1)

def naturalText (n : Nat) : String := String.ofList (natural n)

def integerText (i : Int) : String := String.ofList (integer i)

end RuneSolver.Text
