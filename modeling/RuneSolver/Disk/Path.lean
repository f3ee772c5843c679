/-!
Paths as texts: how parts are appended to a path, what its components are, and what its last one
is called. A path is never simplified; empty components and `.` after the first place are passed
over where components are compared.
-/

namespace RuneSolver.Path

/-- A path with more components. A path from the root takes the place of the base. -/
def push (base part : String) : String :=
  if part.toList.head? == some '/' then part
  else if base.isEmpty || base.toList.getLast? == some '/' then base ++ part
  else base ++ "/" ++ part

def isSeparator (c : Char) : Bool := c == '/' || c == '\\'

/-- The nonempty parts of a relative path, which slashes of either kind divide. -/
def parts (relative : String) : List String :=
  ((relative.toList.splitOnP isSeparator).filter (!·.isEmpty)).map String.ofList

/-- A path inside of a base directory. -/
def resolve (base relative : String) : String := (parts relative).foldl push base

/-- The component that stands for the root, or for the working directory where a path says so
at its start. -/
def origin : List (List Char) → List (List Char)
  | [] :: _ :: _ => [['/']]
  | ['.'] :: _ => [['.']]
  | _ => []

/-- The components of a path. -/
def components (path : List Char) : List (List Char) :=
  let pieces := path.splitOn '/'
  origin pieces ++ pieces.filter fun piece => !piece.isEmpty && piece != ['.']

/-- The last component, if it is the name of a file or directory. -/
def fileName? (path : List Char) : Option (List Char) :=
  match (components path).getLast? with
  | none => none
  | some name =>
    if name = ['/'] ∨ name = ['.'] ∨ name = ['.', '.'] then none else some name

/-- What stands before the last point of a name and after it. A name has no extension if it has
no point but perhaps at its start. -/
def splitName (name : List Char) : List Char × Option (List Char) :=
  let last := name.reverse.takeWhile (· != '.')
  match (name.reverse.dropWhile (· != '.')) with
  | _ :: stem => if stem.isEmpty then (name, none) else (stem.reverse, some last.reverse)
  | [] => (name, none)

def extension? (path : List Char) : Option (List Char) :=
  (fileName? path).bind fun name => (splitName name).2

/-- What is left of a path, read from its end, without slashes and single points after its last
name. -/
def dropEmptyEnd : List Char → List Char
  | '/' :: cs => dropEmptyEnd cs
  | '.' :: '/' :: cs => dropEmptyEnd cs
  | cs => cs

/-- The path with the extension in the place of the one that its last name has. A path that does
not end in a name is left as it is. -/
def withExtension (path extension : List Char) : List Char :=
  match fileName? path with
  | none => path
  | some name =>
    let kept := (dropEmptyEnd path.reverse).drop (name.length - (splitName name).1.length)
    kept.reverse ++ '.' :: extension

/-- The last components of a path are those of another one. -/
def endsWith (path last : List Char) : Bool := (components last).isSuffixOf (components path)

end RuneSolver.Path
