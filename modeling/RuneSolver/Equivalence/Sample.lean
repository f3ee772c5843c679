import RuneSolver.Equivalence.Fingerprint

/-!
Samples of points, drawn by a generator of pseudorandom words. The generator adds a fixed odd
increment to its state and returns the state mixed by two multiplications; equal seeds draw equal
samples.
-/

namespace RuneSolver.Equivalence

/-- How a sample is drawn. Positions are below `maxPosition`, or zero if that is not positive. -/
structure SampleOptions where
  size : Nat
  maxPosition : Int32
  seed : Option UInt64
  deriving DecidableEq, Repr

def SampleOptions.default : SampleOptions := ⟨40, 1000, none⟩

def increment : UInt64 := 0x9E3779B97F4A7C15

def mix (state : UInt64) : UInt64 :=
  let a := (state ^^^ (state >>> 30)) * 0xBF58476D1CE4E5B9
  let b := (a ^^^ (a >>> 27)) * 0x94D049BB133111EB
  b ^^^ (b >>> 31)

/-- The number of positions to choose from. -/
def SampleOptions.positions (o : SampleOptions) : Nat := max 1 o.maxPosition.toInt.toNat

/-- That many points, each from two successive words. -/
def drawFrom (a : Alphabet) (positions : Nat) : Nat → UInt64 → List Point
  | 0, _ => []
  | count + 1, state =>
    let first := state + increment
    let second := first + increment
    match a.at? ((mix first).toNat % a.size) with
    | none => []
    | some rune =>
      ⟨rune, Int32.ofNat ((mix second).toNat % positions)⟩ :: drawFrom a positions count second

/-- A sample of an alphabet. Without a seed the given entropy starts the generator. -/
def draw (a : Alphabet) (o : SampleOptions) (entropy : UInt64) : List Point :=
  drawFrom a o.positions o.size (o.seed.getD entropy)

end RuneSolver.Equivalence
