import Std.Data.HashMap
import RuneSolver.Text.Lines
import RuneSolver.Text.Numeral

/-!
The alphabet of a cipher: each rune with its index, its prime and its Latin plaintext, found by
the character that writes it or by its index. A table is read from rows, in which a later row
wins over an earlier one of the same character or index; what a row overrides is reported.
-/

namespace RuneSolver

structure Rune where
  symbol : Char
  index : UInt64
  prime : Int32
  plaintext : String
  deriving DecidableEq, Repr, Inhabited

/-- Why a table of runes is refused. Lines are counted from one. -/
inductive AlphabetError where
  | fieldCount (line count : Nat)
  | longSymbol (line : Nat) (text : String)
  | badIndex (line : Nat) (text : String) (cause : Text.NumeralError)
  | badPrime (line : Nat) (text : String) (cause : Text.NumeralError)
  | empty
  | missingIndex (index : Nat)
  deriving DecidableEq, Repr

def AlphabetError.message : AlphabetError → String
  | .fieldCount line count =>
    s!"line {line}: expected 4 fields '<rune> <index> <prime> <plaintext>', found {count}"
  | .longSymbol line text => s!"line {line}: rune '{text}' must be a single character"
  | .badIndex line text cause => s!"line {line}: invalid index '{text}': {cause.message}"
  | .badPrime line text cause => s!"line {line}: invalid prime '{text}': {cause.message}"
  | .empty => "table contains no rune definitions"
  | .missingIndex index =>
    s!"indices must be contiguous from 0; index {index} is missing"

/-- A row overrides an earlier one. -/
inductive Overridden where
  | symbol (symbol : Char) (previousIndex index : UInt64)
  | index (index : UInt64) (previousSymbol symbol : Char)
  deriving DecidableEq, Repr

/-- What the comment lines of tables and lists start with. -/
def commentMark : List Char := ['/', '/']

/-- A line that holds neither a comment nor nothing but blanks. -/
def carriesData (line : List Char) : Bool :=
  !commentMark.isPrefixOf line && !Text.isBlankLine line

namespace Rune

/-- The row that a line holds: a character, an index, a prime and a plaintext. -/
def ofLine (number : Nat) (line : List Char) : Except AlphabetError Rune :=
  match Text.fields line with
  | [symbol, index, prime, plaintext] =>
    match symbol with
    | [c] =>
      match Text.readWord index with
      | .error cause => .error (.badIndex number (String.ofList index) cause)
      | .ok i =>
        match Text.readInt32 prime with
        | .error cause => .error (.badPrime number (String.ofList prime) cause)
        | .ok p => .ok ⟨c, i, p, String.ofList plaintext⟩
    | _ => .error (.longSymbol number (String.ofList symbol))
  | fields => .error (.fieldCount number fields.length)

/-- The row of a rune, as a table holds it. -/
def line (r : Rune) : String :=
  s!"{r.symbol} {Text.naturalText r.index.toNat} {Text.integerText r.prime.toInt} {r.plaintext}\n"

end Rune

/-- Runes by the characters that write them, which are hashed as their codes. -/
abbrev RunesBySymbol := @Std.HashMap Char Rune instBEqOfDecidableEq instHashableChar

/-- The rows read so far, by character and by index. -/
structure RuneRows where
  bySymbol : RunesBySymbol
  byIndex : Std.HashMap UInt64 Rune

namespace RuneRows

def empty : RuneRows := ⟨∅, ∅⟩

/-- What a row overrides: first an earlier row of its character, then one of its index. -/
def overridden (rows : RuneRows) (r : Rune) : List Overridden :=
  (rows.bySymbol[r.symbol]?.map fun p => .symbol r.symbol p.index r.index).toList ++
    (rows.byIndex[r.index]?.map fun p => .index r.index p.symbol r.symbol).toList

def insert (rows : RuneRows) (r : Rune) : RuneRows :=
  ⟨rows.bySymbol.insert r.symbol r, rows.byIndex.insert r.index r⟩

/-- Reads numbered lines into the rows, with everything overridden on the way, also before a
line that is refused. -/
def addLines (rows : RuneRows) :
    List (List Char × Nat) → List Overridden × Except AlphabetError RuneRows
  | [] => ([], .ok rows)
  | (line, number) :: lines =>
    if carriesData line then
      match Rune.ofLine number line with
      | .error e => ([], .error e)
      | .ok r =>
        let overridden := rows.overridden r
        let (later, result) := (rows.insert r).addLines lines
        (overridden ++ later, result)
    else rows.addLines lines

end RuneRows

structure Alphabet where
  bySymbol : RunesBySymbol
  runes : Array Rune

namespace Alphabet

/-- The rows of the indices from `index` on; the number of rows is what is left to find. -/
def collect (byIndex : Std.HashMap UInt64 Rune) :
    Nat → Nat → Except AlphabetError (List Rune)
  | _, 0 => .ok []
  | index, left + 1 =>
    match byIndex[UInt64.ofNat index]? with
    | none => .error (.missingIndex index)
    | some r => (collect byIndex (index + 1) left).map (r :: ·)

/-- The table of the rows, whose indices have to be the numbers from zero up to their count. -/
def ofRows (rows : RuneRows) : Except AlphabetError Alphabet :=
  if rows.byIndex.isEmpty then .error .empty
  else
    (collect rows.byIndex 0 rows.byIndex.size).map fun runes =>
      ⟨rows.bySymbol, runes.toArray⟩

/-- Reads a table. Comment lines and blank lines are passed over. -/
def parse (source : String) : List Overridden × Except AlphabetError Alphabet :=
  let (overridden, rows) := RuneRows.empty.addLines ((Text.lines source.toList).zipIdx 1)
  (overridden, rows.bind ofRows)

/-- The table of a list of runes, read from their rows. -/
def ofRunes (runes : List Rune) : List Overridden × Except AlphabetError Alphabet :=
  parse (String.join (runes.map Rune.line))

def size (a : Alphabet) : Nat := a.runes.size

def rune? (a : Alphabet) (c : Char) : Option Rune := a.bySymbol[c]?

def at? (a : Alphabet) (index : Nat) : Option Rune := a.runes[index]?

end Alphabet

end RuneSolver
