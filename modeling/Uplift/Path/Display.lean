import Uplift.Path.Basic

/-!
# Paths and package names in messages

Messages name files by a tidied relative text: backslashes become slashes and every `./` is
dropped.  The tidying works on the text and not on components, so a name that ends in a dot loses
the slash after it.
-/

set_option autoImplicit false

namespace Uplift

namespace Path

/-- Backslashes become slashes, and then every `./` is dropped. -/
def tidy (text : String) : String :=
  let slashed := text.toList.map fun c => if c = '\\' then '/' else c
  String.ofList (Text.replaceAll '.' ['/'] [] slashed)

/-- A path as seen from a base, or in full if it is not below the base. -/
def display (base path : Path) : String :=
  tidy ((path.stripBase? base).getD path).text

end Path

/-- A package name without its scope. -/
def shortName (package : String) : String :=
  match package.toList with
  | '@' :: rest =>
    match Text.splitOnce? '/' rest with
    | some (_, name) => String.ofList name
    | none => package
  | _ => package

end Uplift
