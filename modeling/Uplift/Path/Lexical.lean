import Uplift.Path.Basic

/-!
# Resolving paths by their text alone

`normalize` carries out the single and double dots of a path without looking at any file.  A double
dot takes back the name before it, is dropped right after the root, and stays where nothing is left
to take back, so that an escape from the start remains visible.  `within?` accepts exactly the
relative texts that lead strictly below a given root.
-/

set_option autoImplicit false

namespace Uplift.Path

/-- Puts a component on a stack of resolved ones, the last on top. -/
def push (stack : List Component) (component : Component) : List Component :=
  match component with
  | .current => stack
  | .parent =>
    match stack with
    | .normal _ :: rest => rest
    | .root :: _ => stack
    | _ => .parent :: stack
  | other => other :: stack

/-- The components that remain when all dots are carried out. -/
def resolve (components : List Component) : List Component :=
  (components.foldl push []).reverse

/-- The normal form of a path. -/
def normalize (path : Path) : Path :=
  ofComponents (resolve path.components)

/-- The normal form of a text below a root, if it is relative and ends strictly below it. -/
def within? (root : Path) (relative : String) : Option Path :=
  let candidate := ofText relative
  if candidate.isAbsolute then none
  else
    let root := root.normalize
    let resolved := (root.join candidate).normalize
    if !resolved.same root && resolved.startsWith root then some resolved else none

end Uplift.Path
