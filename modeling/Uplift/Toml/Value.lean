/-!
# TOML values

Values as a configuration uses them: texts, integers and lists keep their content, and of the other
kinds only the kind is kept.  A document is built from its statements one after another, and each
statement either extends what is there or is refused: a key is defined once, a table is opened
once, and tables that were written on one line are closed for good.
-/

set_option autoImplicit false

namespace Uplift.Toml

/-- A value. -/
inductive Value where
  | text (content : String)
  | integer (n : Int)
  | float
  | boolean (value : Bool)
  /-- A date, a time or both. -/
  | moment
  | list (items : List Value)
  | table (entries : List (String × Value))
  deriving Inhabited

/-- How a table came to be. -/
inductive TableKind where
  /-- On the way to a table that was opened. -/
  | implied
  /-- Opened by a line of its own. -/
  | opened
  /-- On the way to a key with dots. -/
  | dotted
  deriving DecidableEq, Repr

/-- What a key stands for while a document is being built. -/
inductive Item where
  | value (value : Value)
  | table (kind : TableKind) (entries : List (String × Item))
  /-- Tables that were opened one after another under the same key. -/
  | tables (list : List (List (String × Item)))
  deriving Inhabited

/-- The entries of a table being built. -/
abbrev Entries := List (String × Item)

namespace Entries

/-- What a key stands for. -/
def get? (entries : Entries) (key : String) : Option Item :=
  entries.lookup key

/-- Sets what a key stands for. -/
def put (entries : Entries) (key : String) (item : Item) : Entries :=
  match entries with
  | [] => [(key, item)]
  | (other, old) :: rest =>
    if other = key then (key, item) :: rest else (other, old) :: put rest key item

/-- Defines a key, perhaps with dots. -/
def define (value : Value) : List String → Entries → Option Entries
  | [], _ => none
  | [key], entries =>
    match entries.get? key with
    | none => some (entries.put key (.value value))
    | some _ => none
  | key :: rest, entries =>
    match entries.get? key with
    | none => do some (entries.put key (.table .dotted (← define value rest [])))
    | some (.table .dotted inner) => do
      some (entries.put key (.table .dotted (← define value rest inner)))
    | some _ => none

/-- Changes the table at a path; the last one, where there are several. -/
def change (path : List String) (f : Entries → Option Entries) (entries : Entries) :
    Option Entries :=
  match path with
  | [] => f entries
  | key :: rest =>
    match entries.get? key with
    | some (.table kind inner) => do
      some (entries.put key (.table kind (← change rest f inner)))
    | some (.tables list) =>
      match list.getLast? with
      | some last => do
        some (entries.put key (.tables (list.dropLast ++ [← change rest f last])))
      | none => none
    | _ => none

/-- Opens something under the last key of a path; what is on the way is implied. -/
def reach (finish : String → Entries → Option Entries) : List String → Entries → Option Entries
  | [], _ => none
  | [key], entries => finish key entries
  | key :: rest, entries =>
    match entries.get? key with
    | none => do some (entries.put key (.table .implied (← reach finish rest [])))
    | some (.table kind inner) => do
      some (entries.put key (.table kind (← reach finish rest inner)))
    | some (.tables list) =>
      match list.getLast? with
      | some last => do
        some (entries.put key (.tables (list.dropLast ++ [← reach finish rest last])))
      | none => none
    | some (.value _) => none

/-- Opens a table. -/
def openTable (path : List String) (entries : Entries) : Option Entries :=
  reach (fun key entries =>
    match entries.get? key with
    | none => some (entries.put key (.table .opened []))
    | some (.table .implied inner) => some (entries.put key (.table .opened inner))
    | some _ => none) path entries

/-- Opens one more of several tables. -/
def openNext (path : List String) (entries : Entries) : Option Entries :=
  reach (fun key entries =>
    match entries.get? key with
    | none => some (entries.put key (.tables [[]]))
    | some (.tables list) => some (entries.put key (.tables (list ++ [[]])))
    | some _ => none) path entries

end Entries

/-! ## Documents -/

/-- A statement of a document. -/
inductive Statement where
  | define (path : List String) (value : Value)
  | openTable (path : List String)
  | openNext (path : List String)
  deriving Inhabited

/-- A document being built: its entries, and the path of the open table. -/
structure Draft where
  entries : Entries
  current : List String

/-- Adds a statement. -/
def Draft.add? (draft : Draft) : Statement → Option Draft
  | .define path value => do
    let entries ← draft.entries.change draft.current (Entries.define value path)
    some { draft with entries }
  | .openTable path => do some ⟨← draft.entries.openTable path, path⟩
  | .openNext path => do some ⟨← draft.entries.openNext path, path⟩

/-- The entries that statements make. -/
def build? (statements : List Statement) : Option Entries := do
  let draft ← statements.foldlM Draft.add? ⟨[], []⟩
  some draft.entries

/-- The value of a key at the top.  Tables have none. -/
def Entries.value? (entries : Entries) (key : String) : Option (Option Value) :=
  (entries.get? key).map fun item =>
    match item with
    | .value value => some value
    | _ => none

end Uplift.Toml
