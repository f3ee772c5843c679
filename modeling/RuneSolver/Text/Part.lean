/-!
Parts of a text. A pattern is cut at its first occurrence, or all of its occurrences are replaced
from left to right without overlap; an empty pattern occurs before every character and at the end.
By the bytes that encode a text, a part lies between two offsets, which have to be those of
characters or of the end.
-/

namespace RuneSolver.Text

/-! ### Occurrences of a pattern -/

/-- What stands before and after the first occurrence of the pattern. -/
def cutAt? (pattern : List Char) : List Char → Option (List Char × List Char)
  | [] => if pattern.isEmpty then some ([], []) else none
  | c :: cs =>
    if pattern.isPrefixOf (c :: cs) then some ([], (c :: cs).drop pattern.length)
    else (cutAt? pattern cs).map fun (before, after) => (c :: before, after)

def contains (pattern cs : List Char) : Bool := (cutAt? pattern cs).isSome

/-- Replaces the occurrences of a nonempty pattern, after passing over some characters that
belong to an occurrence already replaced. -/
def replaceFrom (pattern replacement : List Char) : Nat → List Char → List Char
  | _, [] => []
  | passed + 1, _ :: cs => replaceFrom pattern replacement passed cs
  | 0, c :: cs =>
    if pattern.isPrefixOf (c :: cs) then
      replacement ++ replaceFrom pattern replacement (pattern.length - 1) cs
    else c :: replaceFrom pattern replacement 0 cs

def replaceAll (pattern replacement cs : List Char) : List Char :=
  if pattern.isEmpty then cs.flatMap (fun c => replacement ++ [c]) ++ replacement
  else replaceFrom pattern replacement 0 cs

/-! ### Offsets -/

/-- The offsets of characters that are encoded one after the other. -/
def offsetsFrom (offset : Nat) : List Char → List Nat
  | [] => []
  | c :: cs => offset :: offsetsFrom (offset + c.utf8Size) cs

/-- The offsets of the characters of a text, and behind them that of its end. -/
def boundaries (text : String) : Array Nat :=
  (offsetsFrom 0 text.toList).toArray.push text.utf8ByteSize

/-- The piece of a text from one offset up to another one. There is none if one of them lies outside
of the text or inside of a character, or if the second one lies before the first one. -/
def slice? (text : String) (first last : Nat) : Option String :=
  if h : first ≤ last ∧ String.Pos.Raw.IsValid text ⟨first⟩ ∧
      String.Pos.Raw.IsValid text ⟨last⟩ then
    some (text.extract ⟨⟨first⟩, h.2.1⟩ ⟨⟨last⟩, h.2.2⟩)
  else none

end RuneSolver.Text
