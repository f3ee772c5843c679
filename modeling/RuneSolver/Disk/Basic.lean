/-!
The files and directories that a job reads and writes, as a value: entries by the names that lead
to them from the root, and the working directory. A directory exists when it is an entry or on
the way to one. Paths are followed name by name, and every name but the last one has to be that
of a directory.
-/

namespace RuneSolver

inductive Entry where
  | file (bytes : ByteArray)
  | directory

/-- Why a path leads to nothing that serves. -/
inductive DiskFault where
  | missing
  | notDirectory
  | isDirectory
  | notText
  | nameTooLong
  | zeroInName
  deriving DecidableEq, Repr

def DiskFault.message : DiskFault → String
  | .missing => "No such file or directory (os error 2)"
  | .notDirectory => "Not a directory (os error 20)"
  | .isDirectory => "Is a directory (os error 21)"
  | .notText => "stream did not contain valid UTF-8"
  | .nameTooLong => "File name too long (os error 36)"
  | .zeroInName => "file name contained an unexpected NUL byte"

inductive DiskError where
  | readFile (path : String) (fault : DiskFault)
  | writeFile (path : String) (fault : DiskFault)
  | readDirectory (path : String) (fault : DiskFault)
  deriving DecidableEq, Repr

def DiskError.message : DiskError → String
  | .readFile path fault => s!"Failed to read file '{path}': {fault.message}"
  | .writeFile path fault => s!"Failed to write file '{path}': {fault.message}"
  | .readDirectory path fault => s!"Failed to read directory '{path}': {fault.message}"

/-- The names that lead from the root to an entry. -/
abbrev Names := List String

structure Disk where
  working : Names
  entries : List (Names × Entry)

namespace Disk

def entry? (d : Disk) (names : Names) : Option Entry :=
  match d.entries.lookup names with
  | some e => some e
  | none =>
    if names.isEmpty || d.entries.any (fun (key, _) => names.isPrefixOf key) then some .directory
    else none

/-- A directory at the end of the names. -/
def enter (d : Disk) (names : Names) : Except DiskFault Unit :=
  match d.entry? names with
  | some .directory => .ok ()
  | some (.file _) => .error .notDirectory
  | none => .error .missing

/-- The names of one more step. -/
def descend (names : Names) (part : String) : Names :=
  if part = "" ∨ part = "." then names
  else if part = ".." then names.dropLast
  else names ++ [part]

/-- A name has at most 255 bytes. -/
def isLongName (part : String) : Bool := 255 < part.utf8ByteSize

def walk (d : Disk) : Names → List String → Except DiskFault Names
  | names, [] => .ok names
  | names, part :: parts =>
    match d.enter names with
    | .error fault => .error fault
    | .ok () =>
      if isLongName part then .error .nameTooLong else d.walk (descend names part) parts

/-- The steps of a path. -/
def steps (path : String) : List String := (path.toList.splitOn '/').map String.ofList

/-- Where a path starts. -/
def origin (d : Disk) (path : String) : Names :=
  if path.toList.head? = some '/' then [] else d.working

/-- Why a path is not followed at all: it has a zero character, it is empty, or it has more than
4095 bytes. -/
def refusal? (path : String) : Option DiskFault :=
  if path.toList.contains '\x00' then some .zeroInName
  else if path.isEmpty then some .missing
  else if 4095 < path.utf8ByteSize then some .nameTooLong
  else none

/-- The entry that a path leads to, and its names. -/
def find (d : Disk) (path : String) : Except DiskFault (Names × Entry) :=
  match refusal? path with
  | some fault => .error fault
  | none =>
    match d.walk (d.origin path) (steps path) with
    | .error fault => .error fault
    | .ok names =>
      match d.entry? names with
      | some e => .ok (names, e)
      | none => .error .missing

def contains (d : Disk) (path : String) : Bool := (d.find path).isOk

def readBytes (d : Disk) (path : String) : Except DiskFault ByteArray :=
  match d.find path with
  | .error fault => .error fault
  | .ok (_, .directory) => .error .isDirectory
  | .ok (_, .file bytes) => .ok bytes

/-- The text of a file. -/
def readText (d : Disk) (path : String) : Except DiskError String :=
  match d.readBytes path with
  | .error fault => .error (.readFile path fault)
  | .ok bytes =>
    match String.fromUTF8? bytes with
    | some text => .ok text
    | none => .error (.readFile path .notText)

/-- The name of an entry directly inside of a directory. -/
def child? (names : Names) : Names → Option String
  | key => if names.isPrefixOf key then (key.drop names.length).head? else none

/-- The names of the files directly inside of a directory, in no particular order. -/
def fileNames (d : Disk) (path : String) : Except DiskError (List String) :=
  match d.find path with
  | .error fault => .error (.readDirectory path fault)
  | .ok (_, .file _) => .error (.readDirectory path .notDirectory)
  | .ok (names, .directory) =>
    .ok <| (d.entries.filterMap fun (key, _) => child? names key).eraseDups.filter fun name =>
      match d.entry? (names ++ [name]) with
      | some (.file _) => true
      | _ => false

/-- The disk with a file at the end of the names. -/
def put (d : Disk) (names : Names) (bytes : ByteArray) : Disk :=
  { d with entries := (names, .file bytes) :: d.entries.filter fun (key, _) => key != names }

/-- Only a directory is written with a slash at the end. -/
def namesDirectory (path : String) : Bool := path.toList.getLast? == some '/'

/-- The names of a file to be written, inside of a directory that exists. -/
def target (d : Disk) (path : String) : Except DiskFault Names :=
  match refusal? path with
  | some fault => .error fault
  | none =>
    let named := ((steps path).reverse.dropWhile (·.isEmpty)).reverse
    match d.walk (d.origin path) named.dropLast with
    | .error fault => .error fault
    | .ok names =>
      match d.enter names with
      | .error fault => .error fault
      | .ok () =>
        let file := descend names (named.getLastD "")
        if namesDirectory path then .error .isDirectory
        else if isLongName (named.getLastD "") then .error .nameTooLong
        else
          match d.entry? file with
          | some .directory => .error .isDirectory
          | _ => .ok file

/-- The disk after it has become known what a path leads to, and that everything on the way is a
directory. -/
def learn (d : Disk) (path : String) (e : Entry) : Disk :=
  let way := (steps path).scanl descend (d.origin path)
  let known := (way.getLastD [], e) :: way.dropLast.map (·, .directory)
  { d with entries := known ++ d.entries }

def writeText (d : Disk) (path text : String) : Except DiskError Disk :=
  match d.target path with
  | .error fault => .error (.writeFile path fault)
  | .ok names => .ok (d.put names text.toUTF8)

end Disk

end RuneSolver
