import Uplift.FileTree.Access

/-!
# Disks

A disk is a file tree together with the faults that are going to strike.  Each step that changes
the tree consumes one entry of the schedule: if the entry is a fault, the step fails with its
error and has no effect, except that a failing write may leave some content in its file.  An
empty schedule means that steps fail only where the tree makes them fail.
-/

set_option autoImplicit false

namespace Uplift

/-- A fault that strikes one step. -/
structure DiskFault where
  error : FileError
  /-- The bytes that a failing write leaves in its file. -/
  left : Option ByteArray := none

/-- A file tree with a schedule of faults. -/
structure Disk where
  tree : FileTree
  /-- What strikes the next steps; `none` lets a step pass. -/
  schedule : List (Option DiskFault) := []

namespace Disk

/-- Takes the fault of the next step, if there is one. -/
def nextFault (disk : Disk) : Option DiskFault × Disk :=
  match disk.schedule with
  | [] => (none, disk)
  | entry :: rest => (entry, { disk with schedule := rest })

/-- Carries out one step. -/
def step (disk : Disk) (change : FileTree → Except FileError FileTree) :
    Except FileError Unit × Disk :=
  match disk.nextFault with
  | (some fault, disk) => (.error fault.error, disk)
  | (none, disk) =>
    match change disk.tree with
    | .ok tree => (.ok (), { disk with tree })
    | .error error => (.error error, disk)

/-- Moves something. -/
def rename (disk : Disk) (source target : Path) : Except FileError Unit × Disk :=
  disk.step fun tree => tree.rename source target

/-- Makes a directory. -/
def makeDirectory (disk : Disk) (path : Path) : Except FileError Unit × Disk :=
  disk.step fun tree => tree.makeDirectory path

/-- Removes an empty directory. -/
def removeDirectory (disk : Disk) (path : Path) : Except FileError Unit × Disk :=
  disk.step fun tree => tree.removeDirectory path

/-- Removes something with everything in it. -/
def removeAll (disk : Disk) (path : Path) : Except FileError Unit × Disk :=
  disk.step fun tree => tree.removeAll path

/-- Writes a file.  A fault may leave part of the content, or anything else, in it. -/
def writeText (disk : Disk) (path : Path) (text : String) : Except FileError Unit × Disk :=
  match disk.nextFault with
  | (some fault, disk) =>
    let tree :=
      match fault.left.map (disk.tree.writeBytes path) with
      | some (.ok tree) => tree
      | _ => disk.tree
    (.error fault.error, { disk with tree })
  | (none, disk) =>
    match disk.tree.writeText path text with
    | .ok tree => (.ok (), { disk with tree })
    | .error error => (.error error, disk)

/-- A directory that could not be made is no failure if it is there. -/
def tolerate (path : Path) (result : Except FileError Unit × Disk) :
    Except FileError Unit × Disk :=
  match result with
  | (.error error, disk) =>
    if disk.tree.hasDirectory path then (.ok (), disk) else (.error error, disk)
  | done => done

/-- Makes a directory and those above it that are missing.  `paths` are the directory and its
ancestors, nearest first. -/
def makeDirectoriesAlong (disk : Disk) : List Path → Except FileError Unit × Disk
  | [] => (.error .notFound, disk)
  | path :: above =>
    if path.text = "" then (.ok (), disk)
    else
      match disk.makeDirectory path with
      | (.error .notFound, disk) =>
        match makeDirectoriesAlong disk above with
        | (.ok (), disk) => tolerate path (disk.makeDirectory path)
        | failed => failed
      | result => tolerate path result

/-- Makes a directory and those above it that are missing. -/
def makeDirectories (disk : Disk) (path : Path) : Except FileError Unit × Disk :=
  disk.makeDirectoriesAlong path.ancestors

end Disk

end Uplift
