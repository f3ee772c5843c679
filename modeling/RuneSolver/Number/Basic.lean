/-!
Numbers by trial division: primes, and the totient of Euler, for which each prime divisor found
takes its share off the running result, and what is left at the end is one more prime divisor or
one. Residues of signed thirty-two bit numbers are the remainders of a division that are never
negative.
-/

namespace RuneSolver.Number

/-! ### Primes -/

/-- No number from `d` up to the square root of `n` divides `n`. -/
def noDivisorFrom (d n : Nat) : Bool :=
  if d * d ≤ n then
    if n % d = 0 then false else noDivisorFrom (d + 1) n
  else true
termination_by n + 1 - d
decreasing_by
  have : d ≤ d * d := Nat.le_mul_self d
  omega

def isPrime (n : Nat) : Bool := 2 ≤ n && noDivisorFrom 2 n

/-- The primes below a limit, ascending. -/
def primesBelow (limit : Nat) : List Nat := (List.range limit).filter isPrime

/-! ### The totient -/

/-- The number without its factors `p`. -/
def divideOut (p n : Nat) : Nat :=
  if 1 < p ∧ 0 < n ∧ n % p = 0 then divideOut p (n / p) else n
termination_by n
decreasing_by
  rename_i h
  exact Nat.div_lt_self h.2.1 h.1

theorem divideOut_le (p n : Nat) : divideOut p n ≤ n := by
  fun_induction divideOut p n with
  | case1 n _ ih => exact Nat.le_trans ih (Nat.div_le_self n p)
  | case2 => exact Nat.le_refl _

/-- The totient of a number whose divisors below `p` are already accounted for in the result. -/
def totientFrom (p rest result : Nat) : Nat :=
  if p * p ≤ rest then
    if rest % p = 0 then totientFrom (p + 1) (divideOut p rest) (result - result / p)
    else totientFrom (p + 1) rest result
  else if 1 < rest then result - result / rest
  else result
termination_by rest + 1 - p
decreasing_by
  all_goals
    have h1 : p ≤ p * p := Nat.le_mul_self p
    have h2 := divideOut_le p rest
    omega

/-- The totient of a number from one upward; other numbers are returned unchanged. -/
def totient (n : Int32) : Int32 :=
  match n.toInt with
  | .ofNat m => Int32.ofNat (totientFrom 2 m m)
  | .negSucc _ => n

/-! ### Residues -/

/-- The remainder in `[0, |n|)`, as an integer; the number itself if `n` is zero. -/
def residue (m n : Int32) : Int := m.toInt % n.toInt

/-- The residue where the division itself is defined on thirty-two bits: the modulus is not
zero, and the quotient is not the one that leaves the range, of the least number by minus one. -/
def residue? (m n : Int32) : Option Int :=
  if n = 0 ∨ (m = Int32.minValue ∧ n = -1) then none else some (residue m n)

end RuneSolver.Number
