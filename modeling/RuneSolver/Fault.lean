/-!
What ends a computation without a value: a failure, which is reported, or a sum that leaves its word
of sixty-four bits. Such a sum never wraps: where it leaves the word, the whole program stops.
-/

namespace RuneSolver

inductive Fault (ε : Type) where
  | failure (cause : ε)
  | overflow
  deriving DecidableEq, Repr

def Fault.map {ε δ : Type} (f : ε → δ) : Fault ε → Fault δ
  | failure cause => .failure (f cause)
  | overflow => .overflow

namespace Word

/-- The sum of two words, if it is one. -/
def add? (a b : UInt64) : Option UInt64 :=
  if a.toNat + b.toNat < UInt64.size then some (a + b) else none

/-- The sum of words, which is formed from left to right. -/
def sum? (words : List UInt64) : Option UInt64 := words.foldlM add? 0

theorem add?_eq_some_iff {a b sum : UInt64} :
    add? a b = some sum ↔ sum.toNat = a.toNat + b.toNat := by
  rw [add?]
  split
  case isTrue hfits =>
    rw [Option.some.injEq, ← UInt64.toNat_inj, UInt64.toNat_add, Nat.mod_eq_of_lt hfits]
    exact eq_comm
  case isFalse hleaves =>
    have hlt := sum.toNat_lt
    exact iff_of_false nofun fun h => hleaves (h ▸ hlt)

end Word

end RuneSolver
