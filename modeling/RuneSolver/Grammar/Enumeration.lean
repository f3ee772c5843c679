/-!
Enumerations: finite sequences of texts that are not written out. An enumeration knows its size
and computes each item on demand, so that a search space of any size costs no more than the rules
it comes from. Sizes are numbers of sixty-four bits; an enumeration that would be larger does
not exist. Each operation is described by what it does to the list of all items.
-/

namespace RuneSolver.Grammar

/-- The items are those of the positions below the size. -/
structure Enumeration where
  size : Nat
  item : Nat → String

namespace Enumeration

/-- No enumeration reaches this size. -/
def sizeLimit : Nat := UInt64.size

/-- All items in order. -/
def toList (e : Enumeration) : List String := (List.range e.size).map e.item

@[simp] theorem length_toList (e : Enumeration) : e.toList.length = e.size := by simp [toList]

/-- The item at a position, if there is one. -/
def get? (e : Enumeration) (i : Nat) : Option String :=
  if i < e.size then some (e.item i) else none

theorem getElem?_toList (e : Enumeration) (i : Nat) : e.toList[i]? = e.get? i := by
  grind [toList, get?]

def ofArray (texts : Array String) : Enumeration := ⟨texts.size, fun i => texts.getD i ""⟩

def ofList (texts : List String) : Enumeration := ofArray texts.toArray

@[simp] theorem toList_ofList (texts : List String) : (ofList texts).toList = texts := by
  refine List.ext_getElem (by simp [ofList, ofArray]) fun i _ h => ?_
  simp [toList, ofList, ofArray, h]

/-- The stride of each factor of a product, which is the number of items of the factors right of
it, and the size of the product. Both are taken from the last factor to the first, and the size
has to exist at every step. -/
def strides? : List Enumeration → Option (List Nat × Nat)
  | [] => some ([], 1)
  | factor :: factors =>
    match strides? factors with
    | none => none
    | some (strides, size) =>
      if size * factor.size < sizeLimit then some (size :: strides, size * factor.size) else none

/-- What each factor contributes to the item of their product at a position: the item at the
digit of the position that belongs to its stride. -/
def components (factors : List Enumeration) (strides : List Nat) (i : Nat) : List String :=
  List.zipWith (fun factor stride => factor.item (i / stride % factor.size)) factors strides

/-- The items of the factors, one of each, joined by spaces. The last factor changes fastest. -/
def product? (factors : List Enumeration) : Option Enumeration :=
  match strides? factors with
  | none => none
  | some (strides, size) => some ⟨size, fun i => " ".intercalate (components factors strides i)⟩

/-- A size continued by the sizes of parts from the first to the last, which has to exist at every
step. -/
def totalSize? : Nat → List Enumeration → Option Nat
  | size, [] => some size
  | size, part :: parts =>
    if size + part.size < sizeLimit then totalSize? (size + part.size) parts else none

/-- The item of the part that a position falls into, at the offset of the position there. -/
def itemOf : List Enumeration → Nat → String
  | [], _ => ""
  | part :: parts, offset =>
    if offset < part.size then part.item offset else itemOf parts (offset - part.size)

/-- The items of all parts in order. -/
def concat? (parts : List Enumeration) : Option Enumeration :=
  match totalSize? 0 parts with
  | none => none
  | some size => some ⟨size, itemOf parts⟩

end Enumeration

end RuneSolver.Grammar
