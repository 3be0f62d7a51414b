import Uplift.Codemod.Imports
import Uplift.Json.Reader
import Uplift.Json.Shape

/-!
# Descriptors

A descriptor is a JSON object that names a built-in transform and holds what the transform works
on.  Reading one goes through the text once: what is wrong with the object itself or with the name
of the transform is reported with its place in the text.  The other fields are collected first and
checked when the transform is known, so what is wrong with them is reported without a place.
-/

set_option autoImplicit false

namespace Uplift.Codemod

open Json (Value Fields Reader atHere skipSpace wrongType)
open Text (Symbol)

/-- A descriptor. -/
structure Descriptor where
  transform : Option String
  rest : Fields

namespace Descriptor

/-- The fields of a descriptor read so far; `transform` is set once its field was met. -/
structure Draft where
  transform : Option (Option String)
  rest : Fields

/-- Refuses the value that comes next where something else was expected. -/
def refuse {α : Type} (expected : String) (input : List Symbol) : Except Json.Fault α :=
  let found (value : Value) (rest : List Symbol) : Except Json.Fault α :=
    atHere (.shape (wrongType value.describe expected)) rest
  match skipSpace input with
  | .char '[' :: rest => found (.array []) (.char '[' :: rest)
  | .char '\x7b' :: rest => found (.object []) (.char '\x7b' :: rest)
  | rest => do
    let (value, rest) ← Json.readValue 1 rest
    found value rest

/-- Reads a text, or nothing for `null`. -/
def readText : Reader (Option String) := fun input =>
  match skipSpace input with
  | .char '"' :: rest => do
    let (text, rest) ← Json.readString rest
    pure (some text, rest)
  | .char 'n' :: rest => do
    let (_, rest) ← Json.readValue 1 (.char 'n' :: rest)
    pure (none, rest)
  | rest => refuse "a string" rest

/-- What follows a key up to where a second field of the same name is noticed. -/
def pastKey (input : List Symbol) : List Symbol :=
  match skipSpace input with
  | .char '\x7d' :: rest => rest
  | rest => rest

/-- Reads a field after its key. -/
def readField (key : String) (draft : Draft) : Reader Draft := fun input =>
  if key = "transform" then
    if draft.transform.isSome then
      atHere (.shape s!"duplicate field `{key}`") (pastKey input)
    else do
      let (transform, rest) ← readText (← Json.readColon input)
      pure ({ draft with transform := some transform }, rest)
  else do
    let (value, rest) ← Json.readValue (Json.depthLimit - 1) (← Json.readColon input)
    pure ({ draft with rest := draft.rest.insert key value }, rest)

/-- Reads a descriptor. -/
def read : Reader Descriptor := fun input =>
  match skipSpace input with
  | .char '\x7b' :: rest => do
    let (draft, rest) ← Json.readMembers readField (rest.length + 1) true ⟨none, []⟩ rest
    pure (⟨draft.transform.join, draft.rest⟩, rest)
  | rest => refuse "struct Descriptor" rest

/-- The descriptor that a text spells. -/
def parse (text : String) : Except Json.Error Descriptor :=
  Json.readDocument read (text.toList.map .char)

end Descriptor

/-! ## The fields of the built-in transform -/

namespace Imports

/-- The text that a value is. -/
def textOf : Value → Except String String
  | .string text => .ok text
  | value => .error (wrongType value.describe "a string")

/-- The relocations that a value holds. -/
def relocationsOf : Value → Except String (Table String)
  | .object fields => do
    let entries ← fields.mapM fun field => do
      .ok (field.1, ← textOf field.2)
    .ok (Table.ofList entries)
  | value => .error (wrongType value.describe "a map")

/-- The fields of a package relocation. -/
def packageFields : List String :=
  ["from", "to", "version"]

/-- The package relocation of three texts. -/
def packageOfTexts : List String → Except String PackageRelocation
  | [origin, destination, version] => .ok ⟨origin, destination, version⟩
  | _ => .error "invalid length"

/-- The text of a field that must be there. -/
def packageField (texts : Table String) (name : String) : Except String String :=
  match texts.get? name with
  | some text => .ok text
  | none => .error s!"missing field `{name}`"

/-- The package relocation that a value holds: an object, or a list of its three texts. -/
def packageOf : Value → Except String PackageRelocation
  | .object fields => do
    let known := fields.filter fun field => packageFields.contains field.1
    let texts ← known.mapM fun field => do
      .ok (field.1, ← textOf field.2)
    packageOfTexts (← packageFields.mapM (packageField (Table.ofList texts)))
  | .array items => do
    let texts ← (items.take 3).mapM textOf
    if texts.length < 3 then
      .error s!"invalid length {texts.length}, expected struct PackageRelocation with 3 elements"
    else if 3 < items.length then
      .error s!"invalid length {items.length}, expected fewer elements in array"
    else packageOfTexts texts
  | value => .error (wrongType value.describe "struct PackageRelocation")

/-- The package relocations that a value holds. -/
def packagesOf : Value → Except String (List PackageRelocation)
  | .array items => items.mapM packageOf
  | value => .error (wrongType value.describe "a sequence")

/-- Takes one field of a descriptor into a specification. -/
def addField (spec : Spec) (field : String × Value) : Except String Spec :=
  if field.1 = "relocations" then do
    .ok { spec with relocations := ← relocationsOf field.2 }
  else if field.1 = "packages" then do
    .ok { spec with packages := ← packagesOf field.2 }
  else .ok spec

/-- The specification in the fields of a descriptor.  Fields without a meaning are ignored. -/
def Spec.ofFields (fields : Fields) : Except String Spec :=
  fields.foldlM addField ⟨Table.empty, []⟩

end Imports

end Uplift.Codemod
