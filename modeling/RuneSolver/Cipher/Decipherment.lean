import RuneSolver.Cipher.Document
import RuneSolver.Formula.Evaluation
import RuneSolver.Language.Model

/-!
The decipherment of a document by a formula. Every rune is evaluated once, in order, at a position
that counts the runes evaluated before it; a rune at a position to be skipped stands for itself,
once for each such position. The segments that come out are put together to a text for each
shift of the alphabet; a shift that leaves its word together with an index has no text.
-/

namespace RuneSolver.Cipher

/-- What a job deciphers with. -/
structure Solver where
  alphabet : Alphabet
  tables : NumberTables
  model : Language.Model
  shiftMode : Bool

/-- What a character or the end of a line comes to, for every shift. -/
inductive Segment where
  | plain (c : Char)
  | lineEnd
  | skipped (rune : Rune)
  | computed (index : Nat)
  deriving DecidableEq, Repr

/-- Where a decipherment stands: the position of the next rune, the skips still to come, the rune
evaluated last, and whether a rune in the text has taken that place already. -/
structure Walk where
  position : Nat
  pending : List Nat
  previous : Rune
  seeded : Bool

/-- The rune that the judged part of a line starts with. -/
def seed? (a : Alphabet) (line : List Char) : Option Rune :=
  match Text.trim (Language.judged line) with
  | c :: _ => a.rune? c
  | [] => none

namespace Walk

/-- The first line of cipher text that starts with a rune gives the first rune its previous one. -/
def enter (a : Alphabet) (line : List Char) (w : Walk) : Walk :=
  if w.seeded then w
  else
    match seed? a line with
    | some rune => { w with previous := rune, seeded := true }
    | none => w

/-- The skip at the position of the walk has happened. -/
def passSkip (w : Walk) : Walk := { w with pending := w.pending.erase w.position }

def pass (rune : Rune) (w : Walk) : Walk :=
  { w with position := w.position + 1, previous := rune }

end Walk

namespace Solver

def size (s : Solver) : Nat := s.alphabet.size

/-- The index that a rune is deciphered to. -/
def index (s : Solver) (f : Formula) (w : Walk) (rune : Rune) : Machine Nat :=
  f.target s.tables ⟨rune, w.previous, Int32.ofNat w.position⟩ s.size

/-- The segment of a character, and the walk after it. -/
def step (s : Solver) (f : Formula) (w : Walk) (c : Char) : Machine (Segment × Walk) :=
  match s.alphabet.rune? c with
  | none => return (.plain c, w)
  | some rune =>
    if w.position ∈ w.pending then return (.skipped rune, w.passSkip)
    else do
      let i ← s.index f w rune
      return (.computed i, w.pass rune)

/-- The segments of the rest of a line, its end included, and the walk after it. -/
def lineSegments (s : Solver) (f : Formula) : Walk → List Char → Machine (List Segment × Walk)
  | w, [] => return ([.lineEnd], w)
  | w, c :: cs => do
    let (segment, w') ← s.step f w c
    let (segments, last) ← s.lineSegments f w' cs
    return (segment :: segments, last)

def contentSegments (s : Solver) (f : Formula) :
    Walk → List (List Char) → Machine (List Segment)
  | _, [] => return []
  | w, line :: lines => do
    let (segments, w') ← s.lineSegments f (w.enter s.alphabet line) line
    let others ← s.contentSegments f w' lines
    return segments ++ others

/-- The segments of a document. The rune of index zero comes before the first one. -/
def segments (s : Solver) (f : Formula) (d : Document) : Machine (List Segment) :=
  match s.alphabet.at? 0 with
  | none => return []
  | some rune => s.contentSegments f ⟨0, d.skips.positions, rune, false⟩ d.content

/-- The index after a shift, if the two have a sum. -/
def shifted? (s : Solver) (shift : UInt64) (index : Nat) : Option Nat :=
  (Word.add? (.ofNat index) shift).map fun sum => sum.toNat % s.size

def segmentText? (s : Solver) (shift : UInt64) : Segment → Option (List Char)
  | .plain c => some [c]
  | .lineEnd => some ['\n']
  | .skipped rune => some rune.plaintext.toList
  | .computed index =>
    (s.shifted? shift index).map fun i =>
      match s.alphabet.at? i with
      | some rune => rune.plaintext.toList
      | none => []

/-- The text of segments under a shift, if all computed indices can be shifted. -/
def textOf? (s : Solver) (shift : UInt64) : List Segment → Option (List Char)
  | [] => some []
  | segment :: segments => do
    let text ← s.segmentText? shift segment
    let others ← s.textOf? shift segments
    return text ++ others

/-- Only computed indices can leave a shift without a text. -/
theorem textOf?_eq_none_iff {s : Solver} {shift : UInt64} {segments : List Segment} :
    s.textOf? shift segments = none ↔
      ∃ index, .computed index ∈ segments ∧ s.shifted? shift index = none := by
  induction segments with
  | nil => exact iff_of_false nofun nofun
  | cons segment segments ih =>
    have hcons : s.textOf? shift (segment :: segments) = none ↔
        s.segmentText? shift segment = none ∨ s.textOf? shift segments = none := by
      rw [textOf?]
      cases s.segmentText? shift segment <;> cases s.textOf? shift segments <;> simp
    have hhead : s.segmentText? shift segment = none ↔
        ∃ index, segment = .computed index ∧ s.shifted? shift index = none := by
      cases segment <;> simp [segmentText?]
    rw [hcons, hhead, ih]
    constructor
    · rintro (⟨index, rfl, hnone⟩ | ⟨index, hmem, hnone⟩)
      · exact ⟨index, List.mem_cons_self, hnone⟩
      · exact ⟨index, List.mem_cons_of_mem _ hmem, hnone⟩
    · rintro ⟨index, hmem, hnone⟩
      rcases List.mem_cons.1 hmem with heq | hmem
      · exact .inl ⟨index, heq.symm, hnone⟩
      · exact .inr ⟨index, hmem, hnone⟩

/-- The text of a document by one formula under one shift. -/
def decipher (s : Solver) (f : Formula) (d : Document) (shift : UInt64) :
    Except (Fault FormulaError) (List Char) :=
  match (s.segments f d).outcome [] with
  | .error e => .error (.failure e)
  | .ok segments =>
    match s.textOf? shift segments with
    | some text => .ok text
    | none => .error .overflow

end Solver

end RuneSolver.Cipher
