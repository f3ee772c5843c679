import RuneSolver.Text.Lines
import RuneSolver.Text.Numeral

/-!
Documents: lines of cipher text, with the positions at which a rune passes through as it is.
A line that starts with `skips` is no cipher text; the first such line lists the positions.
-/

namespace RuneSolver.Cipher

/-- A list of positions has an entry that is no number. -/
inductive DocumentError where
  | badSkip (text : String) (cause : Text.NumeralError)
  deriving DecidableEq, Repr

def DocumentError.message : DocumentError → String
  | .badSkip text cause => s!"invalid skip position '{text}': {cause.message}"

/-- Adds a number to an ascending list, once. -/
def insertAscending (n : Nat) : List Nat → List Nat
  | [] => [n]
  | m :: ms =>
    if n < m then n :: m :: ms
    else if n = m then m :: ms
    else m :: insertAscending n ms

theorem mem_insertAscending {n k : Nat} {ms : List Nat} :
    k ∈ insertAscending n ms ↔ k = n ∨ k ∈ ms := by
  induction ms with
  | nil => simp [insertAscending]
  | cons m ms ih => grind [insertAscending]

theorem pairwise_insertAscending {n : Nat} {ms : List Nat} (h : ms.Pairwise (· < ·)) :
    (insertAscending n ms).Pairwise (· < ·) := by
  induction ms with
  | nil => simp [insertAscending]
  | cons m ms ih =>
    have hm := List.pairwise_cons.1 h
    unfold insertAscending
    split
    · refine List.pairwise_cons.2 ⟨fun k hk => ?_, h⟩
      rcases List.mem_cons.1 hk with rfl | hk
      · assumption
      · have := hm.1 k hk; omega
    · split
      · exact h
      · refine List.pairwise_cons.2 ⟨fun k hk => ?_, ih hm.2⟩
        rcases mem_insertAscending.1 hk with rfl | hk
        · omega
        · exact hm.1 k hk

/-- Different positions in ascending order. -/
structure Skips where
  positions : List Nat
  ascending : positions.Pairwise (· < ·)
  deriving DecidableEq, Repr

namespace Skips

def none : Skips := ⟨[], List.Pairwise.nil⟩

def insert (s : Skips) (n : Nat) : Skips :=
  ⟨insertAscending n s.positions, pairwise_insertAscending s.ascending⟩

def addEntries : Skips → List (List Char) → Except DocumentError Skips
  | s, [] => .ok s
  | s, entry :: entries =>
    match Text.readWord entry with
    | .error cause => .error (.badSkip (String.ofList entry) cause)
    | .ok n => addEntries (s.insert n.toNat) entries

/-- The entries of a list, which blanks and commas divide. -/
def entries (cs : List Char) : List (List Char) :=
  (cs.splitOnP fun c => c == ',' || Text.isBlank c).filter (!·.isEmpty)

def parse (cs : List Char) : Except DocumentError Skips := none.addEntries (entries cs)

end Skips

structure Document where
  lines : List String
  skips : Skips

/-- Starts a line that is no cipher text. -/
def skipsMark : List Char := "skips".toList

def isSkipsLine (line : List Char) : Bool := skipsMark.isPrefixOf line

namespace Document

def ofLines (lines : List String) : Except DocumentError Document :=
  match (lines.map String.toList).find? isSkipsLine with
  | none => .ok ⟨lines, Skips.none⟩
  | some line => (Skips.parse (line.drop skipsMark.length)).map fun skips => ⟨lines, skips⟩

def parse (source : String) : Except DocumentError Document := ofLines (Text.linesOf source)

/-- The lines of cipher text. -/
def content (d : Document) : List (List Char) :=
  (d.lines.map String.toList).filter (!isSkipsLine ·)

end Document

end RuneSolver.Cipher
