import Uplift.Text.Utf8

/-!
# File trees

A file tree is a file, with its bytes and whether it may be executed, or a directory of named
trees.  A place in a tree is the list of names that lead to it.  `get?` finds what is at a place,
and `alter` changes it; a place strictly below a file or below nothing is never reached.

The order in which a directory lists its entries carries no meaning.
-/

set_option autoImplicit false

namespace Uplift

/-- A file or a directory, with everything in it. -/
inductive FileTree where
  | file (content : ByteArray) (executable : Bool)
  | directory (entries : List (String × FileTree))
  deriving Inhabited

namespace FileTree

/-- A place in a tree: the names that lead to it from the top. -/
abbrev Place := List String

/-- The entries of a directory by name. -/
abbrev Entries := List (String × FileTree)

namespace Entries

/-- The entry of a name. -/
def get? (entries : Entries) (name : String) : Option FileTree :=
  match entries with
  | [] => none
  | (other, tree) :: rest => if other = name then some tree else get? rest name

/-- Sets the entry of a name: in its place if there is one, at the end otherwise. -/
def insert (entries : Entries) (name : String) (tree : FileTree) : Entries :=
  match entries with
  | [] => [(name, tree)]
  | (other, old) :: rest =>
    if other = name then (other, tree) :: rest else (other, old) :: insert rest name tree

/-- Removes the entry of a name. -/
def erase (entries : Entries) (name : String) : Entries :=
  entries.filter fun entry => entry.1 ≠ name

/-- Sets or removes the entry of a name. -/
def put (entries : Entries) (name : String) : Option FileTree → Entries
  | some tree => insert entries name tree
  | none => erase entries name

/-- The entry that was set is found, and the others are as before. -/
theorem get?_insert (entries : Entries) (name other : String) (tree : FileTree) :
    get? (insert entries name tree) other =
      if name = other then some tree else get? entries other := by
  induction entries with
  | nil => simp [insert, get?]
  | cons entry rest ih =>
    obtain ⟨first, old⟩ := entry
    by_cases h : first = name
    · subst h
      by_cases h' : first = other <;> simp [insert, get?, h']
    · by_cases h' : first = other
      · subst h'
        simp [insert, get?, h, Ne.symm h]
      · simp [insert, get?, h, h', ih]

/-- The entry that was removed is gone, and the others are as before. -/
theorem get?_erase (entries : Entries) (name other : String) :
    get? (erase entries name) other = if name = other then none else get? entries other := by
  induction entries with
  | nil => simp [erase, get?]
  | cons entry rest ih =>
    obtain ⟨first, old⟩ := entry
    simp only [erase, ne_eq] at ih ⊢
    by_cases h : first = name
    · subst h
      by_cases h' : first = other <;> simp_all [get?]
    · by_cases h' : first = other
      · subst h'
        simp [get?, h, Ne.symm h]
      · simpa [get?, h, h'] using ih

end Entries

/-- A directory without entries. -/
def emptyDirectory : FileTree :=
  .directory []

/-- Whether a tree is a directory. -/
def isDirectory : FileTree → Bool
  | .directory _ => true
  | .file .. => false

/-- Whether a tree is a file. -/
def isFile : FileTree → Bool
  | .file .. => true
  | .directory _ => false

/-- The names a directory lists. -/
def names : FileTree → List String
  | .directory entries => entries.map Prod.fst
  | .file .. => []

/-- The entry of a directory by its name. -/
def child? : FileTree → String → Option FileTree
  | .directory entries, name => Entries.get? entries name
  | .file .., _ => none

/-- What is at a place. -/
def get? (tree : FileTree) : Place → Option FileTree
  | [] => some tree
  | name :: rest => (tree.child? name).bind fun child => get? child rest

/-- Changes what is at a place; `none` stands for nothing there.  The top stays. -/
def alter (change : Option FileTree → Option FileTree) : FileTree → Place → FileTree
  | tree, [] => (change (some tree)).getD tree
  | .file content executable, _ :: _ => .file content executable
  | .directory entries, [name] =>
    .directory (Entries.put entries name (change (Entries.get? entries name)))
  | .directory entries, name :: next :: rest =>
    match Entries.get? entries name with
    | some child => .directory (Entries.insert entries name (alter change child (next :: rest)))
    | none => .directory entries

/-- Puts a tree at a place. -/
def set (tree : FileTree) (place : Place) (content : FileTree) : FileTree :=
  alter (fun _ => some content) tree place

/-- Removes what is at a place. -/
def erase (tree : FileTree) (place : Place) : FileTree :=
  alter (fun _ => none) tree place

mutual

/-- The number of files and directories in a tree. -/
def size : FileTree → Nat
  | .file .. => 1
  | .directory entries => sizeEntries entries + 1
termination_by structural tree => tree

/-- The number of files and directories in the entries of a directory. -/
def sizeEntries : List (String × FileTree) → Nat
  | [] => 0
  | (_, tree) :: rest => size tree + sizeEntries rest
termination_by structural entries => entries

end

mutual

/-- Every place below the top with what is there, a directory before its contents.  Directories
refused by `enter` are left out with all they hold. -/
def walk (enter : String → Bool) (top : Place) : FileTree → List (Place × FileTree)
  | .file .. => []
  | .directory entries => walkEntries enter top entries
termination_by structural tree => tree

/-- The places of a directory's entries. -/
def walkEntries (enter : String → Bool) (top : Place) :
    List (String × FileTree) → List (Place × FileTree)
  | [] => []
  | (name, tree) :: rest =>
    (if tree.isDirectory && !enter name then []
      else (top ++ [name], tree) :: walk enter (top ++ [name]) tree) ++
      walkEntries enter top rest
termination_by structural entries => entries

end

/-- Places compare name by name. -/
def comparePlaces : Place → Place → Ordering
  | [], [] => .eq
  | [], _ :: _ => .lt
  | _ :: _, [] => .gt
  | a :: as, b :: bs => (Ord.compare a b).then (comparePlaces as bs)

/-- The places of a tree in ascending order: each directory is followed by its contents, and the
entries of a directory are in order of their names. -/
def sortedWalk (enter : String → Bool) (tree : FileTree) : List (Place × FileTree) :=
  (walk enter [] tree).mergeSort fun a b => comparePlaces a.1 b.1 != .gt

end FileTree

end Uplift
