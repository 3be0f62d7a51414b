import Uplift.FileTree.Access

/-!
# Staged writes

Several files are written in two rounds.  In the first, each new content is put in a file beside
its target; if one of these cannot be written, all are removed and no target has changed.  In the
second, each is moved onto its target; if one cannot be moved, it and those after it are removed,
and the targets before it keep their new content.  A staged file takes the mode of the file it is
going to replace.
-/

set_option autoImplicit false

namespace Uplift

/-- A content to be written to a file. -/
structure PendingWrite where
  path : Path
  content : String
  deriving DecidableEq, Repr

namespace PendingWrite

/-- What the name of a staged file ends in. -/
def stagedSuffix : String :=
  ".migrasaurus-staged"

/-- Where the content is staged: in the directory of its target. -/
def stagedPath (write : PendingWrite) : Path :=
  write.path.withFileName (write.path.fileName?.getD "" ++ stagedSuffix)

end PendingWrite

namespace FileTree

/-- Whether what is at a path may be executed, if there is something.  Directories may. -/
def mode? (tree : FileTree) (path : Path) : Option Bool :=
  match tree.find path with
  | .ok (.file _ executable) => some executable
  | .ok (.directory _) => some true
  | .error _ => none

/-- Writes a content to its staged file. -/
def stage (tree : FileTree) (write : PendingWrite) : Except FileError FileTree := do
  let tree ← tree.writeText write.stagedPath write.content
  match tree.mode? write.path with
  | some executable => tree.setExecutable write.stagedPath executable
  | none => .ok tree

/-- Removes a file if it can be removed. -/
def discard (tree : FileTree) (path : Path) : FileTree :=
  match tree.removeFile path with
  | .ok tree => tree
  | .error _ => tree

/-- Removes the staged files of some writes. -/
def discardStaged (tree : FileTree) (writes : List PendingWrite) : FileTree :=
  (writes.map PendingWrite.stagedPath).foldl discard tree

/-- Stages writes one after another.  `staged` are those already staged: they are removed when one
fails. -/
def stageAll (tree : FileTree) (staged : List PendingWrite) :
    List PendingWrite → Except FileError Unit × FileTree
  | [] => (.ok (), tree)
  | write :: rest =>
    match tree.stage write with
    | .ok tree => stageAll tree (staged ++ [write]) rest
    | .error error => (.error error, (tree.discard write.stagedPath).discardStaged staged)

/-- Moves staged files onto their targets. -/
def commitAll (tree : FileTree) : List PendingWrite → Except FileError Unit × FileTree
  | [] => (.ok (), tree)
  | write :: rest =>
    match tree.rename write.stagedPath write.path with
    | .ok tree => commitAll tree rest
    | .error error => (.error error, tree.discardStaged (write :: rest))

/-- Writes all files, or none if one of them cannot be staged. -/
def writeAll (tree : FileTree) (writes : List PendingWrite) :
    Except FileError Unit × FileTree :=
  match tree.stageAll [] writes with
  | (.ok (), tree) => tree.commitAll writes
  | (.error error, tree) => (.error error, tree)

end FileTree

end Uplift
