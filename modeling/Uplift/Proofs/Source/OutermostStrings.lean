import Mathlib.Data.List.Lex
import Uplift.Proofs.Source.Cursor

/-!
# The string literals of a tree are its outermost strings

A node of a tree has an address: which child to take at each step down from the top.  Document order
is the order of addresses in which a node comes before everything below it, and everything below a
node before what is below the siblings after it (`Precedes`).

The walk over a tree finds each string that is not inside another one, nothing else, and each of them
once, in document order (`stringSpots_exact`).  What it finds are places of the tree: from each of
them the ancestors rebuild the whole tree, and the node at its address is the one found.
-/

set_option autoImplicit false

namespace Uplift.Source

/-! ## Addresses -/

/-- The node at an address. -/
def Node.descend? : Node → List Nat → Option Node
  | node, [] => some node
  | node, index :: rest => node.children[index]?.bind (descend? · rest)

/-- The address of whatever has the given ancestors. -/
def addressBelow (crumbs : List Crumb) : List Nat :=
  (crumbs.map fun crumb => crumb.before.length).reverse

/-- The tree that a node with given ancestors is in. -/
def rebuild : Node → List Crumb → Node
  | node, [] => node
  | node, ⟨label, before, after⟩ :: above =>
    rebuild (.mk label (before.reverse ++ node :: after)) above

/-- The address of a spot. -/
def Spot.address (spot : Spot) : List Nat :=
  addressBelow spot.crumbs

/-- The tree that a spot is in. -/
def Spot.whole (spot : Spot) : Node :=
  rebuild spot.node spot.crumbs

theorem addressBelow_cons (crumb : Crumb) (above : List Crumb) :
    addressBelow (crumb :: above) = addressBelow above ++ [crumb.before.length] :=
  List.reverse_cons

/-- From the top of a rebuilt tree the address leads back to the node. -/
theorem descend?_rebuild (node : Node) (crumbs : List Crumb) (rest : List Nat) :
    (rebuild node crumbs).descend? (addressBelow crumbs ++ rest) = node.descend? rest := by
  induction crumbs generalizing node rest with
  | nil => rfl
  | cons crumb above ih =>
      obtain ⟨label, before, after⟩ := crumb
      have child : (before.reverse ++ node :: after)[before.length]? = some node := by
        rw [← List.length_reverse, List.getElem?_append_right (Nat.le_refl _), Nat.sub_self]
        rfl
      rw [rebuild, addressBelow_cons, List.append_assoc, ih, List.singleton_append, Node.descend?]
      change (before.reverse ++ node :: after)[before.length]?.bind _ = _
      rw [child, Option.bind_some]

/-- Document order: a node before what is below it, and that before the siblings that follow. -/
def Precedes (first second : List Nat) : Prop :=
  List.Lex (· < ·) first second

theorem Precedes.ne {first second : List Nat} (precedes : Precedes first second) :
    first ≠ second := by
  rintro rfl
  exact irrefl_of (List.Lex (· < ·)) first precedes

/-! ## Outermost strings -/

/-- A string that is not inside another one. -/
def IsOutermostString (tree : Node) (address : List Nat) : Prop :=
  (∃ node, tree.descend? address = some node ∧ node.kind = .string) ∧
    ∀ above node, above <+: address → above ≠ address → tree.descend? above = some node →
      node.kind ≠ .string

theorem isOutermostString_nil_iff {tree : Node} :
    IsOutermostString tree [] ↔ tree.kind = .string := by
  constructor
  · rintro ⟨⟨node, found, string⟩, _⟩
    cases found
    exact string
  · intro string
    exact ⟨⟨tree, rfl, string⟩, fun _ _ initial proper _ => absurd (List.prefix_nil.1 initial) proper⟩

/-- Below a node that is no string itself, the outermost strings are those of its children. -/
theorem isOutermostString_cons_iff {tree : Node} {index : Nat} {rest : List Nat} :
    IsOutermostString tree (index :: rest) ↔
      tree.kind ≠ .string ∧
        ∃ child, tree.children[index]? = some child ∧ IsOutermostString child rest := by
  constructor
  · rintro ⟨⟨node, found, string⟩, outermost⟩
    obtain ⟨child, isChild, below⟩ := Option.bind_eq_some_iff.1 found
    refine ⟨outermost [] tree List.nil_prefix (List.cons_ne_nil _ _).symm rfl, child, isChild,
      ⟨node, below, string⟩, fun above other initial proper found => ?_⟩
    refine outermost (index :: above) other (List.cons_prefix_cons.2 ⟨rfl, initial⟩) ?_ ?_
    · exact fun same => proper (List.cons.inj same).2
    · rw [Node.descend?, isChild]
      exact found
  · rintro ⟨other, child, isChild, ⟨node, below, string⟩, outermost⟩
    refine ⟨⟨node, ?_, string⟩, fun above inner initial proper found => ?_⟩
    · rw [Node.descend?, isChild]
      exact below
    · cases above with
      | nil =>
          cases found
          exact other
      | cons first above =>
          obtain ⟨rfl, below⟩ := List.cons_prefix_cons.1 initial
          rw [Node.descend?, isChild] at found
          exact outermost above inner below (fun same => proper (congrArg _ same)) found

/-! ## What the walk finds -/

namespace Spot

mutual

/-- **The strings in a node are its outermost ones.** -/
theorem mem_address_stringsIn_iff {address : List Nat} :
    ∀ {node : Node} {above : List Crumb},
      address ∈ (stringsIn node above).map Spot.address ↔
        ∃ rest, address = addressBelow above ++ rest ∧ IsOutermostString node rest
  | .mk label children, above => by
      by_cases string : Node.kind (.mk label children) = .string
      · rw [stringsIn_of_string string, List.map_singleton, List.mem_singleton]
        constructor
        · rintro rfl
          exact ⟨[], (List.append_nil _).symm, isOutermostString_nil_iff.2 string⟩
        · rintro ⟨_ | ⟨index, rest⟩, rfl, outermost⟩
          · exact List.append_nil _
          · exact absurd string (isOutermostString_cons_iff.1 outermost).1
      · rw [stringsIn_of_other string, Node.children, mem_address_stringsAmong_iff]
        constructor
        · rintro ⟨index, child, rest, isChild, rfl, outermost⟩
          refine ⟨index :: rest, ?_, isOutermostString_cons_iff.2 ⟨string, child, isChild, outermost⟩⟩
          rw [List.length_nil, Nat.zero_add]
        · rintro ⟨_ | ⟨index, rest⟩, rfl, outermost⟩
          · exact absurd (isOutermostString_nil_iff.1 outermost) string
          · obtain ⟨_, child, isChild, below⟩ := isOutermostString_cons_iff.1 outermost
            refine ⟨index, child, rest, isChild, ?_, below⟩
            rw [List.length_nil, Nat.zero_add]

theorem mem_address_stringsAmong_iff {address : List Nat} {label : Label} :
    ∀ {children before : List Node} {above : List Crumb},
      address ∈ (stringsAmong label before children above).map Spot.address ↔
        ∃ index child rest, children[index]? = some child ∧
          address = addressBelow above ++ (before.length + index) :: rest ∧
            IsOutermostString child rest
  | [], before, above => by simp [stringsAmong]
  | child :: after, before, above => by
      rw [stringsAmong, List.map_append, List.mem_append, mem_address_stringsIn_iff,
        mem_address_stringsAmong_iff, addressBelow_cons]
      constructor
      · rintro (⟨rest, rfl, outermost⟩ | ⟨index, other, rest, isChild, rfl, outermost⟩)
        · exact ⟨0, child, rest, rfl, by rw [List.append_assoc]; rfl, outermost⟩
        · refine ⟨index + 1, other, rest, isChild, ?_, outermost⟩
          rw [List.length_cons, Nat.add_right_comm, Nat.add_assoc]
      · rintro ⟨_ | index, other, rest, isChild, rfl, outermost⟩
        · cases isChild
          exact .inl ⟨rest, by rw [List.append_assoc]; rfl, outermost⟩
        · refine .inr ⟨index, other, rest, isChild, ?_, outermost⟩
          rw [List.length_cons, Nat.add_right_comm, Nat.add_assoc]

end

mutual

/-- **The strings in a node come in document order.** -/
theorem pairwise_address_stringsIn :
    ∀ (node : Node) (above : List Crumb),
      ((stringsIn node above).map Spot.address).Pairwise Precedes
  | .mk label children, above => by
      by_cases string : Node.kind (.mk label children) = .string
      · rw [stringsIn_of_string string]
        exact List.pairwise_singleton _ _
      · rw [stringsIn_of_other string]
        exact pairwise_address_stringsAmong label children [] above

/-- Addresses of strings ascend.  Two of them part at the children in which they lie, or further
down in the same one. -/
theorem pairwise_address_stringsAmong (label : Label) :
    ∀ (children before : List Node) (above : List Crumb),
      ((stringsAmong label before children above).map Spot.address).Pairwise Precedes
  | [], _, _ => List.Pairwise.nil
  | child :: after, before, above => by
      rw [stringsAmong, List.map_append]
      refine List.pairwise_append.2 ⟨pairwise_address_stringsIn child _,
        pairwise_address_stringsAmong label after _ above, ?_⟩
      intro first inFirst second inSecond
      obtain ⟨rest, rfl, _⟩ := mem_address_stringsIn_iff.1 inFirst
      obtain ⟨index, _, more, _, rfl, _⟩ := mem_address_stringsAmong_iff.1 inSecond
      have parts : before.length < (child :: before).length + index := by
        rw [List.length_cons]
        omega
      rw [addressBelow_cons, List.append_assoc]
      exact List.Lex.append_left _ (List.Lex.rel parts) _

end

mutual

/-- Every string found is a place of the tree. -/
theorem whole_of_mem_stringsIn {spot : Spot} :
    ∀ {node : Node} {above : List Crumb}, spot ∈ stringsIn node above →
      spot.whole = rebuild node above
  | .mk label children, above, member => by
      by_cases string : Node.kind (.mk label children) = .string
      · rw [stringsIn_of_string string, List.mem_singleton] at member
        rw [member, Spot.whole]
      · rw [stringsIn_of_other string] at member
        exact whole_of_mem_stringsAmong member

theorem whole_of_mem_stringsAmong {spot : Spot} {label : Label} :
    ∀ {children before : List Node} {above : List Crumb},
      spot ∈ stringsAmong label before children above →
        spot.whole = rebuild (.mk label (before.reverse ++ children)) above
  | [], _, _, member => absurd member List.not_mem_nil
  | child :: after, before, above, member => by
      rw [stringsAmong] at member
      rcases List.mem_append.1 member with here | later
      · rw [whole_of_mem_stringsIn here, rebuild]
      · rw [whole_of_mem_stringsAmong later, List.reverse_cons, List.append_assoc]
        rfl

end

/-- The node of a spot is the one at its address. -/
theorem descend?_address (spot : Spot) : spot.whole.descend? spot.address = some spot.node := by
  have found := descend?_rebuild spot.node spot.crumbs []
  rwa [List.append_nil] at found

end Spot

/-- **The walk over a tree finds its outermost strings.**  The cursor loop ends, within twice as many
moves as the tree has nodes, with the string literals of the tree.  These are places of the tree,
they come in document order, each of them once, and they are exactly the strings that are not inside
another string. -/
theorem stringSpots_exact (tree : Node) :
    Stage.next^[2 * tree.size] (.arriving (Spot.top tree) []) = .done (stringSpots tree) ∧
    (∀ spot ∈ stringSpots tree,
      spot.whole = tree ∧ tree.descend? spot.address = some spot.node) ∧
    ((stringSpots tree).map Spot.address).Pairwise Precedes ∧
    ((stringSpots tree).map Spot.address).Nodup ∧
    ∀ address, address ∈ (stringSpots tree).map Spot.address ↔ IsOutermostString tree address := by
  refine ⟨Stage.iterate_next_top tree, ?_⟩
  rw [stringSpots_eq]
  have ordered := Spot.pairwise_address_stringsIn tree []
  refine ⟨fun spot member => ?_, ordered, ordered.imp Precedes.ne, fun address => ?_⟩
  · have whole : spot.whole = tree := Spot.whole_of_mem_stringsIn member
    refine ⟨whole, ?_⟩
    rw [← whole]
    exact spot.descend?_address
  · rw [Spot.mem_address_stringsIn_iff]
    constructor
    · rintro ⟨rest, rfl, outermost⟩
      exact outermost
    · exact fun outermost => ⟨address, rfl, outermost⟩

/-- A tree with a string two levels down, a string inside another one, and a last string. -/
def nestedStrings : Node :=
  .mk ⟨.program, .plain, 0, 12⟩
    [.mk ⟨.group, .plain, 0, 3⟩ [.mk ⟨.group, .plain, 0, 3⟩ [.leaf .string 0 3]],
      .mk ⟨.string, .plain, 4, 9⟩ [.leaf .string 5 8], .leaf .identifier 9 10, .leaf .string 10 12]

/-- The last of the strings, after the walk has climbed twice and passed a string by. -/
def lastString : Spot :=
  ⟨.leaf .string 10 12, [⟨⟨.program, .plain, 0, 12⟩,
    [.leaf .identifier 9 10, .mk ⟨.string, .plain, 4, 9⟩ [.leaf .string 5 8],
      .mk ⟨.group, .plain, 0, 3⟩ [.mk ⟨.group, .plain, 0, 3⟩ [.leaf .string 0 3]]], []⟩]⟩

theorem stringSpots_exact_nestedStrings :
    lastString ∈ stringSpots nestedStrings ∧
      lastString.whole = nestedStrings ∧
      nestedStrings.descend? lastString.address = some lastString.node ∧
      (stringSpots nestedStrings).map Spot.address = [[0, 0, 0], [1], [3]] := by
  have member : lastString ∈ stringSpots nestedStrings :=
    .tail _ (.tail _ (.head _))
  obtain ⟨whole, found⟩ := (stringSpots_exact nestedStrings).2.1 lastString member
  exact ⟨member, whole, found, rfl⟩

end Uplift.Source
