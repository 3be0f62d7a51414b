/-!
# Syntax trees

A tree over a source text.  A node has a kind, the role it plays in its parent, the range of
characters it covers, and its children.  Trees keep the nodes that decide what a string literal
means, and group everything else; punctuation is dropped except the opening parenthesis and the
`import` keyword, and comments are kept only between the parentheses of a call.

A spot is a node in its tree: the node, and for each ancestor its siblings on both sides.  Walking
a tree means moving a spot to a first child, to a next sibling or to a parent.
-/

set_option autoImplicit false

namespace Uplift.Source

/-- What a node is. -/
inductive Kind where
  | program
  | importStatement
  | exportStatement
  /-- The right side of `import a = require("b")`. -/
  | importRequire
  | call
  | arguments
  | string
  | identifier
  /-- The word `import`. -/
  | importKeyword
  /-- An opening parenthesis. -/
  | openParen
  | comment
  /-- What can be assigned to, names apart: what is taken of a value, a list, an object, or an
  expression in parentheses. -/
  | target
  /-- Any other construct. -/
  | group
  deriving DecidableEq, Repr, Inhabited

/-- Whether nodes of a kind are constructs, as opposed to words and punctuation of one. -/
def Kind.isNamed : Kind → Bool
  | .openParen => false
  | _ => true

/-- The role a node plays in its parent. -/
inductive Role where
  | plain
  /-- The module that an import or export statement names. -/
  | source
  /-- What a call calls. -/
  | callee
  deriving DecidableEq, Repr, Inhabited

/-- What a node says of itself. -/
structure Label where
  kind : Kind
  role : Role
  /-- The offset of its first character. -/
  start : Nat
  /-- The offset after its last character. -/
  stop : Nat
  deriving DecidableEq, Repr, Inhabited

/-- A node with everything below it. -/
inductive Node where
  | mk (label : Label) (children : List Node)
  deriving Inhabited

namespace Node

/-- What a node says of itself. -/
def label : Node → Label
  | .mk label _ => label

/-- The children of a node. -/
def children : Node → List Node
  | .mk _ children => children

/-- What a node is. -/
def kind (node : Node) : Kind :=
  node.label.kind

/-- The role of a node. -/
def role (node : Node) : Role :=
  node.label.role

/-- The node in another role. -/
def withRole (role : Role) : Node → Node
  | .mk label children => .mk { label with role } children

/-- A node without children. -/
def leaf (kind : Kind) (start stop : Nat) : Node :=
  .mk ⟨kind, .plain, start, stop⟩ []

mutual

/-- The number of nodes in a tree. -/
def size : Node → Nat
  | .mk _ children => sizeAll children + 1
termination_by structural node => node

/-- The number of nodes in some trees. -/
def sizeAll : List Node → Nat
  | [] => 0
  | node :: rest => size node + sizeAll rest
termination_by structural nodes => nodes

end

end Node

/-! ## Spots -/

/-- An ancestor of a node, with its children on both sides of the way down. -/
structure Crumb where
  label : Label
  /-- The children before, the nearest first. -/
  before : List Node
  /-- The children after, the nearest first. -/
  after : List Node
  deriving Inhabited

/-- A node in its tree. -/
structure Spot where
  node : Node
  /-- The ancestors, the parent first. -/
  crumbs : List Crumb
  deriving Inhabited

namespace Spot

/-- The top of a tree. -/
def top (node : Node) : Spot :=
  ⟨node, []⟩

/-- The first child. -/
def firstChild? (spot : Spot) : Option Spot :=
  match spot.node with
  | .mk _ [] => none
  | .mk label (child :: rest) => some ⟨child, ⟨label, [], rest⟩ :: spot.crumbs⟩

/-- The next sibling. -/
def nextSibling? (spot : Spot) : Option Spot :=
  match spot.crumbs with
  | ⟨label, before, next :: after⟩ :: above =>
    some ⟨next, ⟨label, spot.node :: before, after⟩ :: above⟩
  | _ => none

/-- The parent. -/
def parent? (spot : Spot) : Option Spot :=
  match spot.crumbs with
  | ⟨label, before, after⟩ :: above =>
    some ⟨.mk label (before.reverse ++ spot.node :: after), above⟩
  | [] => none

/-- The next sibling of a node or of its nearest ancestor that has one. -/
def climb (node : Node) : List Crumb → Option Spot
  | [] => none
  | ⟨label, before, next :: after⟩ :: above => some ⟨next, ⟨label, node :: before, after⟩ :: above⟩
  | ⟨label, before, []⟩ :: above => climb (.mk label (before.reverse ++ [node])) above

/-- Where a walk goes next: into a node, unless it is a string, and otherwise past it. -/
def advance? (spot : Spot) : Option Spot :=
  if spot.node.kind = .string then climb spot.node spot.crumbs
  else
    match spot.firstChild? with
    | some child => some child
    | none => climb spot.node spot.crumbs

/-- The strings on a walk of at most `steps` nodes. -/
def stringsFrom : Nat → Spot → List Spot
  | 0, _ => []
  | steps + 1, spot =>
    let later :=
      match spot.advance? with
      | some next => stringsFrom steps next
      | none => []
    if spot.node.kind = .string then spot :: later else later

end Spot

/-- The string literals of a tree in order.  A walk meets each node at most once, so the number of
nodes bounds its length. -/
def stringSpots (tree : Node) : List Spot :=
  Spot.stringsFrom tree.size (Spot.top tree)

end Uplift.Source
