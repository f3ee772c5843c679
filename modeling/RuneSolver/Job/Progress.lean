import RuneSolver.Fault
import RuneSolver.Text.Decimal
import RuneSolver.Text.Lines
import RuneSolver.Text.Part

/-!
The progress of a job. Documents weigh as much as they have lines of runes; amounts are words of
sixty-four bits, and there is no progress where the sum of two of them is none. The progress of one
document is announced once for every tenth that it reaches.
-/

namespace RuneSolver.Job

/-- A line of runes has something besides Latin letters, digits, blanks and comment marks. -/
def isRuneLine (line : List Char) : Bool :=
  (Text.replaceAll ['/', '/'] [] line).any fun c => !c.isAlphanum && !Text.isBlank c

def runeLineCount (source : String) : Nat :=
  ((Text.lines source.toList).filter isRuneLine).length

/-- How much of a job is done. -/
structure Progress where
  total : UInt64
  done : UInt64
  deriving DecidableEq, Repr

/-- What is known about the time that the rest of a job takes: nothing before any of it is done,
and no figure where the whole of it is too long for a span of time. -/
inductive Remaining where
  | unknown
  | nanoseconds (count : Nat)
  | beyondMeasure
  deriving DecidableEq, Repr

namespace Progress

def start (total : UInt64) : Progress := ⟨total, 0⟩

/-- Finishes some more of the job, at most all of it, if the two amounts have a sum. -/
def record? (p : Progress) (weight : UInt64) : Option Progress :=
  (Word.add? p.done weight).map fun sum => { p with done := min sum p.total }

/-- A job without weight is done. -/
def percent (p : Progress) : Float :=
  if p.total = 0 then 100.0 else p.done.toFloat * 100.0 / p.total.toFloat

/-- Nanoseconds as seconds. -/
def seconds (nanoseconds : Nat) : Float :=
  (nanoseconds / 1000000000).toUInt64.toFloat +
    (nanoseconds % 1000000000).toUInt64.toFloat / 1000000000.0

/-- Seconds as nanoseconds, rounded to the nearest. A span of time counts its seconds in
sixty-four bits; of more seconds, and of a number that is not finite, there is none. -/
def nanoseconds? (seconds : Float) : Option Nat :=
  match Text.DoubleValue.ofBits seconds.toBits.toNat with
  | .finite value =>
    if value.scaled 9 < UInt64.size * 1000000000 then some (value.scaled 9) else none
  | _ => none

/-- The estimate of the time that the rest takes at the present rate. -/
def remaining (p : Progress) (elapsed : Nat) : Remaining :=
  if p.done = 0 then .unknown
  else
    match nanoseconds? (p.total.toFloat / p.done.toFloat * seconds elapsed) with
    | some projected => .nanoseconds (projected - elapsed)
    | none => .beyondMeasure

end Progress

/-- The next tenth of a document to be announced. -/
structure Announcer where
  next : UInt32
  deriving DecidableEq, Repr

namespace Announcer

def start : Announcer := ⟨1⟩

/-- The whole tenths of a fraction. -/
def tenths (fraction : Float) : UInt32 := (fraction * 10.0).floor.toUInt32

/-- The percentage to be announced at a fraction, if any, and the announcer after it; nothing if the
percentage is no word of thirty-two bits. -/
def report? (a : Announcer) (fraction : Float) : Option (Option UInt32 × Announcer) :=
  let reached := tenths fraction
  if a.next ≤ reached then
    if reached.toNat * 10 < UInt32.size then some (some (reached * 10), ⟨reached + 1⟩) else none
  else some (none, a)

end Announcer

end RuneSolver.Job
