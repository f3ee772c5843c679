/-!
JSON values. A number is kept as it is written. A string may name half of a surrogate pair
without the other half; such a string has no text, and stands only where its text does not
matter.
-/

namespace RuneSolver

inductive Json where
  | null
  | bool (value : Bool)
  | number (written : List Char)
  | string (text : Option String)
  | array (elements : List Json)
  | object (members : List (Option String × Json))

namespace Json

/-- The string of a text. -/
def ofText (s : String) : Json := .string (some s)

/-- An object whose keys have texts. -/
def ofMembers (members : List (String × Json)) : Json :=
  .object (members.map fun (key, value) => (some key, value))

def text? : Json → Option String
  | .string text => text
  | _ => none

def bool? : Json → Option Bool
  | .bool value => some value
  | _ => none

/-- The texts of an array of strings. -/
def texts? : Json → Option (List String)
  | .array elements => elements.mapM text?
  | _ => none

end Json

end RuneSolver
