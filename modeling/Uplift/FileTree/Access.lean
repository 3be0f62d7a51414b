import Uplift.FileTree.Basic
import Uplift.Path.Basic

/-!
# Files by path

Paths are followed from the top of a tree, piece by piece and through existing directories only: a
double dot goes up to where one came from, and a name must be found.  Each operation either fails
with a cause and changes nothing, or gives the changed tree.
-/

set_option autoImplicit false

namespace Uplift

/-- Why a file operation failed. -/
inductive FileError where
  | notFound
  | isDirectory
  | notDirectory
  | alreadyExists
  | notEmpty
  | invalidArgument
  | permissionDenied
  | notExecutable
  | busy
  | notText
  /-- Any other cause, by its text. -/
  | other (message : String)
  deriving DecidableEq, Repr, Inhabited

/-- The wording of a cause. -/
def FileError.message : FileError → String
  | .notFound => "No such file or directory (os error 2)"
  | .notExecutable => "Exec format error (os error 8)"
  | .permissionDenied => "Permission denied (os error 13)"
  | .busy => "Device or resource busy (os error 16)"
  | .alreadyExists => "File exists (os error 17)"
  | .notDirectory => "Not a directory (os error 20)"
  | .isDirectory => "Is a directory (os error 21)"
  | .invalidArgument => "Invalid argument (os error 22)"
  | .notEmpty => "Directory not empty (os error 39)"
  | .notText => "stream did not contain valid UTF-8"
  | .other message => message

namespace FileTree

/-! ## Following paths -/

/-- Follows one piece of a path from a place. -/
def followPiece (tree : FileTree) (place : Place) (piece : String) : Except FileError Place :=
  match tree.get? place with
  | none => .error .notFound
  | some (.file ..) => .error .notDirectory
  | some (.directory entries) =>
    if piece = "" ∨ piece = "." then .ok place
    else if piece = ".." then .ok place.dropLast
    else if (Entries.get? entries piece).isSome then .ok (place ++ [piece])
    else .error .notFound

/-- Follows the pieces of a path from a place. -/
def follow (tree : FileTree) (place : Place) : List String → Except FileError Place
  | [] => .ok place
  | piece :: rest => do follow tree (← followPiece tree place piece) rest

/-- The place of something that exists.  A relative path starts from the top. -/
def locate (tree : FileTree) (path : Path) : Except FileError Place :=
  match path.pieces with
  | [] => .error .notFound
  | [""] => .error .notFound
  | pieces => tree.follow [] pieces

/-- The place where a path's last name is or would be: everything before it must exist. -/
def locateNew (tree : FileTree) (path : Path) : Except FileError Place :=
  let pieces := path.pieces
  let named := (pieces.reverse.dropWhile (· = "")).reverse
  match named.getLast? with
  | none => if pieces.length ≤ 1 then .error .notFound else .ok []
  | some last =>
    if last = "." ∨ last = ".." then tree.follow [] named
    else do
      let place ← tree.follow [] (named.dropLast ++ [""])
      .ok (place ++ [last])

/-- What a path leads to. -/
def find (tree : FileTree) (path : Path) : Except FileError FileTree := do
  match tree.get? (← tree.locate path) with
  | some found => .ok found
  | none => .error .notFound

/-- Whether a path leads to a file. -/
def hasFile (tree : FileTree) (path : Path) : Bool :=
  match tree.find path with
  | .ok found => found.isFile
  | .error _ => false

/-- Whether a path leads to a directory. -/
def hasDirectory (tree : FileTree) (path : Path) : Bool :=
  match tree.find path with
  | .ok found => found.isDirectory
  | .error _ => false

/-- Whether a path leads anywhere. -/
def has (tree : FileTree) (path : Path) : Bool :=
  (tree.find path).isOk

/-- The plain absolute path of something that exists. -/
def canonicalize (tree : FileTree) (path : Path) : Except FileError Path := do
  match ← tree.locate path with
  | [] => .ok ⟨["", ""]⟩
  | place => .ok ⟨"" :: place⟩

/-! ## Reading -/

/-- The bytes of a file. -/
def readBytes (tree : FileTree) (path : Path) : Except FileError ByteArray := do
  match ← tree.find path with
  | .file content _ => .ok content
  | .directory _ => .error .isDirectory

/-- The text of a file. -/
def readText (tree : FileTree) (path : Path) : Except FileError String := do
  match Text.decode? (← tree.readBytes path) with
  | some text => .ok text
  | none => .error .notText

/-- The names in a directory. -/
def list (tree : FileTree) (path : Path) : Except FileError (List String) := do
  match ← tree.find path with
  | .directory entries => .ok (entries.map Prod.fst)
  | .file .. => .error .notDirectory

/-! ## Writing -/

/-- Writes bytes to a file.  An existing file keeps its mode; a new one is not executable.  What a
slash follows is taken for a directory, whatever is there. -/
def writeBytes (tree : FileTree) (path : Path) (content : ByteArray) :
    Except FileError FileTree := do
  let place ← tree.locateNew path
  if path.endsInSlash then .error .isDirectory
  else
    match tree.get? place with
    | some (.directory _) => .error .isDirectory
    | some (.file _ executable) => .ok (tree.set place (.file content executable))
    | none => .ok (tree.set place (.file content false))

/-- Writes text to a file. -/
def writeText (tree : FileTree) (path : Path) (text : String) : Except FileError FileTree :=
  tree.writeBytes path (Text.encode text)

/-- Sets whether a file may be executed. -/
def setExecutable (tree : FileTree) (path : Path) (executable : Bool) :
    Except FileError FileTree := do
  let place ← tree.locate path
  match tree.get? place with
  | some (.file content _) => .ok (tree.set place (.file content executable))
  | _ => .ok tree

/-- Removes a file. -/
def removeFile (tree : FileTree) (path : Path) : Except FileError FileTree := do
  let place ← tree.locate path
  match tree.get? place with
  | some (.file ..) => .ok (tree.erase place)
  | _ => .error .isDirectory

/-- Makes a directory in an existing one. -/
def makeDirectory (tree : FileTree) (path : Path) : Except FileError FileTree := do
  let place ← tree.locateNew path
  match tree.get? place with
  | some _ => .error .alreadyExists
  | none => .ok (tree.set place emptyDirectory)

/-- Makes a directory and those above it that are missing, the outermost first.  `paths` are the
directory and its ancestors, nearest first. -/
def makeDirectoriesAlong (tree : FileTree) : List Path → Except FileError FileTree
  | [] => .error .notFound
  | path :: above =>
    if path.text = "" then .ok tree
    else
      match tree.makeDirectory path with
      | .ok tree => .ok tree
      | .error .notFound => do
        let tree ← makeDirectoriesAlong tree above
        match tree.makeDirectory path with
        | .ok tree => .ok tree
        | .error error => if tree.hasDirectory path then .ok tree else .error error
      | .error error => if tree.hasDirectory path then .ok tree else .error error

/-- Makes a directory and those above it that are missing. -/
def makeDirectories (tree : FileTree) (path : Path) : Except FileError FileTree :=
  tree.makeDirectoriesAlong path.ancestors

/-- Removes a directory that is empty. -/
def removeDirectory (tree : FileTree) (path : Path) : Except FileError FileTree := do
  let place ← tree.locate path
  match tree.get? place with
  | some (.directory []) => .ok (tree.erase place)
  | some (.directory _) => .error .notEmpty
  | _ => .error .notDirectory

/-- Removes a file, or a directory with everything in it. -/
def removeAll (tree : FileTree) (path : Path) : Except FileError FileTree := do
  .ok (tree.erase (← tree.locate path))

/-- Whether something may be moved onto what is at its destination. -/
def mayReplace : FileTree → Option FileTree → Except FileError Unit
  | _, none => .ok ()
  | .file .., some (.file ..) => .ok ()
  | .file .., some (.directory _) => .error .isDirectory
  | .directory _, some (.file ..) => .error .notDirectory
  | .directory _, some (.directory []) => .ok ()
  | .directory _, some (.directory _) => .error .notEmpty

/-- Moves a file, or a directory with everything in it, to another place.  The target must end in a
name, and only a directory is moved to a name that a slash follows. -/
def rename (tree : FileTree) (source target : Path) : Except FileError FileTree := do
  let oldPlace ← tree.locate source
  let newPlace ← tree.locateNew target
  match tree.get? oldPlace with
  | none => .error .notFound
  | some moved =>
    if !target.endsInName then .error .busy
    else if moved.isFile && target.endsInSlash then .error .notDirectory
    else if oldPlace = newPlace then .ok tree
    else if oldPlace.isPrefixOf newPlace then .error .invalidArgument
    else do
      mayReplace moved (tree.get? newPlace)
      .ok ((tree.erase oldPlace).set newPlace moved)

end FileTree

end Uplift
