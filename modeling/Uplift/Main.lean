import Std.Time.DateTime.Timestamp
import Uplift.CommandLine.Execution
import Uplift.Shell.Run
import Uplift.Source.Grammar

/-!
# The program

The program loads the files that a command can reach, carries the command out on them, and writes
back what is different afterwards.  Registries are not reached from here, so every lookup fails;
external programs are those that the shell knows.
-/

set_option autoImplicit false

namespace Uplift.Program

/-! ## Loading -/

/-- What is on the disk at a path.  Every file counts as executable. -/
partial def loadTree (path : String) : IO FileTree := do
  let real ← IO.FS.realPath path
  if ← real.isDir then
    let entries ← real.readDir
    let children ← entries.toList.mapM fun entry => do
      return (entry.fileName, ← loadTree entry.path.toString)
    return .directory children
  else
    return .file (← IO.FS.readBinFile real) true

/-- Whether there is anything at a path. -/
def isPresent (path : String) : IO Bool := do
  try
    let real ← IO.FS.realPath path
    real.pathExists
  catch _ => return false

/-- The place of a path, followed from the top by its text alone. -/
def placeOf (path : Path) : FileTree.Place :=
  path.components.foldl (fun place component =>
    match component with
    | .root => []
    | .current => place
    | .parent => place.dropLast
    | .normal name => place ++ [name]) []

/-- Adds what is on the disk at a path to a tree, if there is anything. -/
def addFrom (tree : FileTree) (path : String) : IO FileTree := do
  if ← isPresent path then
    let place := placeOf (Path.ofText path)
    let content ← loadTree path
    if place.isEmpty then return content
    let parents := (tree.makeDirectories ⟨"" :: place.dropLast⟩).toOption.getD tree
    return parents.set place content
  else return tree

/-- The paths whose files a command may need. -/
def neededPaths (arguments : CommandLine.Arguments) : List String :=
  match arguments.command with
  | .diff before after => [before, after]
  | _ =>
    let above := (Path.ofText arguments.directory).ancestors.drop 1
    let libraries := above.map fun dir => (dir.joinText ".migrasaurus").text
    libraries ++ [arguments.configPath.text, arguments.directory]

/-! ## Writing back -/

/-- A place on the disk. -/
def diskPath (place : FileTree.Place) : String :=
  "/" ++ "/".intercalate place

/-- Writes the files and makes the directories that are new or different. -/
def writeNew (before after : FileTree) : IO Unit := do
  for (place, found) in after.sortedWalk fun _ => true do
    match found, before.get? place with
    | .directory _, some (.directory _) => pure ()
    | .directory _, _ => IO.FS.createDirAll (diskPath place)
    | .file content _, some (.file old _) =>
      if content.toList ≠ old.toList then IO.FS.writeBinFile (diskPath place) content
    | .file content _, _ => IO.FS.writeBinFile (diskPath place) content

/-- Removes what is no longer there. -/
def removeOld (before after : FileTree) : IO Unit := do
  for (place, found) in before.sortedWalk fun _ => true do
    if (after.get? place).isNone then
      if ← isPresent (diskPath place) then
        if found.isDirectory then IO.FS.removeDirAll (diskPath place)
        else IO.FS.removeFile (diskPath place)

/-! ## Running -/

/-- The time. -/
def now : IO Instant := do
  let stamp ← Std.Time.Timestamp.now
  let nanoseconds := stamp.toNanosecondsSinceUnixEpoch.toInt
  return ⟨nanoseconds / 1000000000, (nanoseconds % 1000000000).toNat⟩

/-- Arguments with the root and the configuration file as absolute paths. -/
def absoluteArguments (arguments : CommandLine.Arguments) : IO CommandLine.Arguments := do
  let current := Path.ofText (← IO.currentDir).toString
  let directory := current.joinText arguments.directory
  let root ← try pure (← IO.FS.realPath directory.text).toString catch _ => pure directory.text
  return { arguments with
    directory := root
    config := arguments.config.map fun path => (current.joinText path).text }

/-- Carries out a command on the disk. -/
def runCommand (arguments : CommandLine.Arguments) : IO UInt32 := do
  let arguments ← absoluteArguments arguments
  let before ← (neededPaths arguments).foldlM addFrom FileTree.emptyDirectory
  let startedAt ← now
  let around : CommandLine.Surroundings :=
    { machine := Shell.machine
      read := Source.parse?
      connect := fun _ => Registry.unreachable
      times := ⟨startedAt, startedAt⟩
      fallback := none
      token := toString startedAt.nanoseconds }
  let done := CommandLine.execute around arguments before
  removeOld before done.files
  writeNew before done.files
  IO.print done.output
  match done.result with
  | .ok () => return 0
  | .error failure =>
    IO.eprintln s!"Error: {failure.message}"
    return 1

end Uplift.Program

/-- Runs the program. -/
def main (arguments : List String) : IO UInt32 := do
  match Uplift.CommandLine.Arguments.parse arguments with
  | .ok arguments => Uplift.Program.runCommand arguments
  | .error error =>
    if error.isAnswer then
      IO.println error.message
      return 0
    else
      IO.eprintln s!"error: {error.message}"
      return 2
