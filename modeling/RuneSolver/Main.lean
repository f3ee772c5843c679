import RuneSolver.CommandLine.Execution

/-!
The program: it finds out what is on the disk where the request looks, executes the request, and
prints and writes the result.
-/

namespace RuneSolver.Program

open CommandLine

/-- A disk of which only the working directory is known. -/
def blankDisk : Disk := ⟨["."], [(["."], .directory)]⟩

/-- What a path leads to. Only a directory or a file can be opened, and only a file can be read. -/
def probe (path : String) : IO (Option Entry) := do
  try
    return some (.file (← IO.FS.readBinFile path))
  catch e =>
    match e with
    | .inappropriateType .. => return some .directory
    | _ => return none

def learnAll (d : Disk) : List String → IO Disk
  | [] => return d
  | path :: paths => do
    match ← probe path with
    | some e => learnAll (d.learn path e) paths
    | none => learnAll d paths

/-- Looks twice, because the job file tells what else is read. -/
def look (args : List String) : IO Disk :=
  match Request.parse args with
  | none => return blankDisk
  | some request => do
    let d ← learnAll blankDisk (request.looksAt blankDisk)
    learnAll d (request.looksAt d)

def print : Printed → IO Unit
  | .output text => IO.println text
  | .error text => IO.eprintln text

def printTimed (block : Unit → List Printed) : IO Unit := do
  let start ← IO.monoMsNow
  (block ()).forM print
  let stop ← IO.monoMsNow
  IO.println s!"Finished in {Text.withPoint 3 (stop - start)}s"

def printAll (printings : List Printing) : IO Unit :=
  printings.forM fun
    | .plain printed => print printed
    | .timed block => printTimed block

/-- Writes the files of a request that has succeeded. -/
def save (args : List String) (result : Result) : IO Unit := do
  if result.exit = 0 then
    for path in ((Request.parse args).map Request.writes).getD [] do
      match result.disk.readBytes path with
      | .ok bytes => IO.FS.writeBinFile path bytes
      | .error _ => pure ()

def entropy : IO UInt64 := do
  let bytes ← IO.getRandomBytes 8
  return bytes.data.foldl (fun word byte => word * 256 + byte.toUInt64) 0

end RuneSolver.Program

open RuneSolver.Program in
def main (args : List String) : IO UInt32 := do
  let d ← look args
  let result := RuneSolver.CommandLine.execute d (RuneSolver.Job.drawing (← entropy)) args
  save args result
  printAll result.printings
  return result.exit
