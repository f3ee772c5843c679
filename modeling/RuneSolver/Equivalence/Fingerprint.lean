import Std.Data.HashSet
import RuneSolver.Formula.Evaluation

/-!
Fingerprints of formulas: their values at sample points, each of them a rune and a position. Of
the formulas that agree at every point the earliest is kept. Formulas that agree at the points
need not agree elsewhere, and values are compared as they are, not as indices of an alphabet. One
stack serves all evaluations of an elimination.
-/

namespace RuneSolver.Equivalence

structure Point where
  rune : Rune
  position : Int32
  deriving DecidableEq, Repr

/-- The contexts of points after some rune: each point comes after the rune of the one before. -/
def contextsFrom (previous : Rune) : List Point → List Context
  | [] => []
  | p :: ps => ⟨p.rune, previous, p.position⟩ :: contextsFrom p.rune ps

/-- The contexts of points. The first point comes after itself. -/
def contexts : List Point → List Context
  | [] => []
  | p :: ps => contextsFrom p.rune (p :: ps)

/-- The values at the points; a failure counts as one value. -/
abbrev Fingerprint := List (Option Int32)

def fingerprint (t : NumberTables) (points : List Point) (f : Formula) : Fingerprint :=
  (contexts points).map fun c => (f.evaluate t c).toOption

/-- The members whose key is neither among those seen nor the key of an earlier member. -/
def keepNew {α β : Type} [BEq β] [Hashable β] (key : α → β) :
    Std.HashSet β → List α → List α
  | _, [] => []
  | seen, a :: as =>
    if seen.contains (key a) then keepNew key seen as
    else a :: keepNew key (seen.insert (key a)) as

/-- The earliest formula of each fingerprint, in order, whatever fingerprints are. -/
def eliminateBy (key : Formula → Fingerprint) (attempts : List String) : List Formula :=
  keepNew key ∅ (attempts.map Formula.ofText)

/-- The value of a formula on a stack that is in use, if it has one, and the stack it leaves. -/
def observe (t : NumberTables) (c : Context) (f : Formula) : StateM Stack (Option Int32) :=
  fun stack =>
    match f.evaluateOn t c stack with
    | .ok v left => (some v, left)
    | .error _ left => (none, left)

/-- The values at the points, from evaluations on one stack. -/
def fingerprintOn (t : NumberTables) (points : List Point) (f : Formula) :
    StateM Stack Fingerprint :=
  (contexts points).mapM fun c => observe t c f

/-- The members whose key is new, with keys that are computed one after the other. -/
def keepNewOn {σ α β : Type} [BEq β] [Hashable β] (key : α → StateM σ β) :
    Std.HashSet β → List α → StateM σ (List α)
  | _, [] => return []
  | seen, a :: as => do
    let k ← key a
    if seen.contains k then keepNewOn key seen as
    else return a :: (← keepNewOn key (seen.insert k) as)

/-- The earliest formula of each fingerprint at the points, in order. -/
def eliminate (t : NumberTables) (points : List Point) (attempts : List String) :
    List Formula :=
  (keepNewOn (fingerprintOn t points) ∅ (attempts.map Formula.ofText) []).1

end RuneSolver.Equivalence
