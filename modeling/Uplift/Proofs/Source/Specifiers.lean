import Uplift.Proofs.Source.Splicing
import Uplift.Proofs.Table

/-!
# The specifiers of a relocated source

A reading is faithful on a text if it finds the literals of the text in order and apart, and if
putting plain specifiers in the place of specifiers leaves the places where modules are named
(`Faithful`).  Then the specifiers of a relocated source are those of the original, each replaced by
its entry in the table if it has one (`content_of_mem_relocated`).
-/

set_option autoImplicit false

namespace Uplift.Source

/-! ## Literals -/

theorem unquote?_eq_some_iff {chars content : List Char} {quote : Char} :
    unquote? chars = some (quote, content) ↔
      (quote = '"' ∨ quote = '\'') ∧ chars = quote :: content ++ [quote] := by
  cases chars with
  | nil => simp [unquote?]
  | cons first rest =>
      rw [unquote?]
      constructor
      · intro unquoted
        split at unquoted
        next quoted =>
          obtain ⟨inner, rfl⟩ := List.getLast?_eq_some_iff.1 quoted.2
          rw [List.dropLast_concat] at unquoted
          cases unquoted
          exact ⟨quoted.1, rfl⟩
        next => cases unquoted
      · rintro ⟨isQuote, equal⟩
        rw [List.cons_append] at equal
        obtain ⟨rfl, rfl⟩ := List.cons.inj equal
        rw [if_pos ⟨isQuote, List.getLast?_concat⟩, List.dropLast_concat]

/-- A literal covers its content between its quotes. -/
theorem slice_of_mem_literals {text : List Char} {tree : Node} {literal : Literal}
    (member : literal ∈ literals text tree) :
    (literal.quote = '"' ∨ literal.quote = '\'') ∧
      slice text literal.start literal.stop =
        literal.quote :: literal.content.toList ++ [literal.quote] := by
  obtain ⟨spot, _, found⟩ := List.mem_filterMap.1 member
  obtain ⟨⟨quote, content⟩, unquoted, equal⟩ := Option.bind_eq_some_iff.1 found
  cases equal
  obtain ⟨isQuote, covers⟩ := unquote?_eq_some_iff.1 unquoted
  refine ⟨isQuote, ?_⟩
  rw [String.toList_ofList]
  exact covers

theorem start_lt_stop_of_mem_literals {text : List Char} {tree : Node} {literal : Literal}
    (member : literal ∈ literals text tree) : literal.start < literal.stop := by
  have length := congrArg List.length (slice_of_mem_literals member).2
  rw [slice, List.length_take, List.length_append, List.length_cons] at length
  omega

/-- The ranges in which modules are named. -/
def specifierRanges (text : List Char) (tree : Node) : List (Nat × Nat) :=
  ((literals text tree).filter Literal.isSpecifier).map fun literal =>
    (literal.start, literal.stop)

/-- The replacements that a table makes in a source. -/
def replacementsIn (text : List Char) (tree : Node) (relocations : Table String) :
    List Replacement :=
  (literals text tree).filterMap (Literal.replacement? relocations)

theorem mem_nameSet {names : List String} {name : String} :
    name ∈ Table.names (nameSet names) ↔ name ∈ names := by
  have single : ∀ first second : Unit, (name, first) ∈ names.map (fun name => (name, ())) →
      (name, second) ∈ names.map (fun name => (name, ())) → first = second :=
    fun _ _ _ _ => rfl
  rw [Table.mem_names_iff, nameSet]
  constructor
  · rintro ⟨value, found⟩
    simpa using (Table.get?_ofList_eq_some_iff single).1 found
  · intro member
    exact ⟨(), (Table.get?_ofList_eq_some_iff single).2 (by simpa using member)⟩

/-- The specifiers that a relocation keeps are those without an entry in the table. -/
theorem mem_retained_iff {text : List Char} {tree : Node} {relocations : Table String}
    {name : String} :
    name ∈ Table.names (relocateTree text tree relocations).retained ↔
      ∃ literal ∈ literals text tree, literal.isSpecifier = true ∧
        relocations.get? literal.content = none ∧ literal.content = name := by
  rw [relocateTree, mem_nameSet, List.mem_map]
  simp only [List.mem_filter, Bool.and_eq_true, Bool.not_eq_true', Table.contains,
    Option.isSome_eq_false_iff, Option.isNone_iff_eq_none, and_assoc]

/-! ## Faithful readings -/

/-- A specifier that stands for itself between quotes of either kind. -/
def IsPlain (specifier : String) : Prop :=
  ∀ c ∈ specifier.toList, c ∉ ['"', '\'', '\\', '\n', '\r']

instance (specifier : String) : Decidable (IsPlain specifier) :=
  List.decidableBAll (fun c => c ∉ ['"', '\'', '\\', '\n', '\r']) specifier.toList

/-- A reading that finds the literals of a text in order and apart, and the same specifiers after
some of them have been replaced by plain ones. -/
structure Faithful (read : Reading) (dialect : Dialect) (text : List Char)
    (relocations : Table String) : Prop where
  ordered : ∀ tree, read dialect text = some tree →
    (literals text tree).Pairwise fun first second => first.stop ≤ second.start
  inside : ∀ tree, read dialect text = some tree →
    ∀ literal ∈ literals text tree, literal.stop ≤ text.length
  stable : (∀ name target, relocations.get? name = some target → IsPlain target) →
    ∀ tree, read dialect text = some tree →
      ∃ later, read dialect (applyAll text (replacementsIn text tree relocations)) = some later ∧
        specifierRanges (applyAll text (replacementsIn text tree relocations)) later =
          (specifierRanges text tree).map fun range =>
            (moved (replacementsIn text tree relocations) range.1,
              moved (replacementsIn text tree relocations) range.2)

/-- Whether a reading is faithful on a text, found out by relocating and reading again. -/
def isFaithful (read : Reading) (dialect : Dialect) (text : List Char)
    (relocations : Table String) : Bool :=
  match read dialect text with
  | none => true
  | some tree =>
    let replacements := replacementsIn text tree relocations
    decide ((literals text tree).Pairwise fun first second => first.stop ≤ second.start) &&
      (literals text tree).all (fun literal => literal.stop ≤ text.length) &&
      (read dialect (applyAll text replacements)).any fun later =>
        specifierRanges (applyAll text replacements) later =
          (specifierRanges text tree).map fun range =>
            (moved replacements range.1, moved replacements range.2)

theorem faithful_of_isFaithful {read : Reading} {dialect : Dialect} {text : List Char}
    {relocations : Table String} (checked : isFaithful read dialect text relocations = true) :
    Faithful read dialect text relocations := by
  rw [isFaithful] at checked
  split at checked
  next unread =>
    constructor <;> simp [unread]
  next tree parsed =>
    simp only [Bool.and_eq_true, decide_eq_true_eq, List.all_eq_true, Option.any_eq_true]
      at checked
    obtain ⟨⟨ordered, inside⟩, stable⟩ := checked
    constructor
    case ordered =>
      rintro _ found
      cases parsed.symm.trans found
      exact ordered
    case inside =>
      rintro _ found
      cases parsed.symm.trans found
      exact inside
    case stable =>
      rintro _ _ found
      cases parsed.symm.trans found
      exact stable

/-- A replacement has the range of its literal. -/
theorem range_of_replacement? {relocations : Table String} {literal : Literal}
    {replacement : Replacement} (replaced : literal.replacement? relocations = some replacement) :
    replacement.start = literal.start ∧ replacement.stop = literal.stop := by
  rw [Literal.replacement?] at replaced
  split at replaced
  next =>
    obtain ⟨target, _, rfl⟩ := Option.map_eq_some_iff.1 replaced
    exact ⟨rfl, rfl⟩
  next => cases replaced

theorem exists_literal_of_mem {relocations : Table String} {found : List Literal}
    {replacement : Replacement}
    (member : replacement ∈ found.filterMap (Literal.replacement? relocations)) :
    ∃ literal ∈ found, replacement.start = literal.start ∧ replacement.stop = literal.stop := by
  obtain ⟨literal, among, replaced⟩ := List.mem_filterMap.1 member
  exact ⟨literal, among, range_of_replacement? replaced⟩

/-- Replacements of literals in order fit. -/
theorem fits_of_ordered (relocations : Table String) {found : List Literal} {start stop : Nat}
    (ordered : found.Pairwise fun first second => first.stop ≤ second.start)
    (proper : ∀ literal ∈ found, literal.start < literal.stop)
    (lower : ∀ literal ∈ found, start ≤ literal.start)
    (upper : ∀ literal ∈ found, literal.stop ≤ stop) (le : start ≤ stop) :
    Fits start stop (found.filterMap (Literal.replacement? relocations)) := by
  refine .of_pairwise (List.pairwise_filterMap.2 (ordered.imp ?_)) ?_ ?_ ?_ le
  · intro first second before replacement replaced other replaced'
    rw [(range_of_replacement? replaced).2, (range_of_replacement? replaced').1]
    exact before
  · intro replacement member
    obtain ⟨literal, among, begins, ends⟩ := exists_literal_of_mem member
    rw [begins, ends]
    exact proper literal among
  · intro replacement member
    obtain ⟨literal, among, begins, _⟩ := exists_literal_of_mem member
    rw [begins]
    exact lower literal among
  · intro replacement member
    obtain ⟨literal, among, _, ends⟩ := exists_literal_of_mem member
    rw [ends]
    exact upper literal among

/-! ## Relocated specifiers -/

theorem Faithful.fits {read : Reading} {dialect : Dialect} {text : List Char}
    {relocations : Table String} (faithful : Faithful read dialect text relocations) {tree : Node}
    (parsed : read dialect text = some tree) {found : List Literal}
    (sublist : found.Sublist (literals text tree)) {start stop : Nat}
    (lower : ∀ literal ∈ found, start ≤ literal.start)
    (upper : ∀ literal ∈ found, literal.stop ≤ stop) (le : start ≤ stop) :
    Fits start stop (found.filterMap (Literal.replacement? relocations)) :=
  fits_of_ordered relocations ((faithful.ordered tree parsed).sublist sublist)
    (fun _ member => start_lt_stop_of_mem_literals (sublist.subset member)) lower upper le

/-- What a specifier of a source is replaced by, quotes included. -/
theorem splice_specifier {text : List Char} {tree : Node} {relocations : Table String}
    {literal : Literal} (member : literal ∈ literals text tree)
    (specifier : literal.isSpecifier = true) :
    splice text literal.start literal.stop (literal.replacement? relocations).toList =
      literal.quote :: ((relocations.get? literal.content).getD literal.content).toList ++
        [literal.quote] := by
  have covers := (slice_of_mem_literals member).2
  rw [Literal.replacement?, if_pos specifier]
  cases relocations.get? literal.content with
  | none => exact covers
  | some target => simp [splice, slice]

/-- The replacements before, at and after a literal. -/
theorem filterMap_replacement?_append (relocations : Table String) (earlier later : List Literal)
    (literal : Literal) :
    (earlier ++ literal :: later).filterMap (Literal.replacement? relocations) =
      earlier.filterMap (Literal.replacement? relocations) ++
        (literal.replacement? relocations).toList ++
        later.filterMap (Literal.replacement? relocations) := by
  rw [List.filterMap_append, List.append_assoc]
  cases replaced : literal.replacement? relocations with
  | none => rw [List.filterMap_cons_none replaced, Option.toList_none, List.nil_append]
  | some replacement =>
      rw [List.filterMap_cons_some replaced, Option.toList_some, List.singleton_append]

/-- **At the new place of a specifier stands its replacement.** -/
theorem slice_relocated {read : Reading} {dialect : Dialect} {text : List Char}
    {relocations : Table String} (faithful : Faithful read dialect text relocations) {tree : Node}
    (parsed : read dialect text = some tree) {literal : Literal}
    (member : literal ∈ literals text tree) (specifier : literal.isSpecifier = true) :
    slice (applyAll text (replacementsIn text tree relocations))
        (moved (replacementsIn text tree relocations) literal.start)
        (moved (replacementsIn text tree relocations) literal.stop) =
      literal.quote :: ((relocations.get? literal.content).getD literal.content).toList ++
        [literal.quote] := by
  obtain ⟨earlier, later, whole⟩ := List.append_of_mem member
  have ordered := faithful.ordered tree parsed
  have inside := faithful.inside tree parsed
  have proper := start_lt_stop_of_mem_literals member
  rw [whole] at ordered
  obtain ⟨_, behind, across⟩ := List.pairwise_append.1 ordered
  obtain ⟨after, _⟩ := List.pairwise_cons.1 behind
  have fitsBefore : Fits 0 literal.start
      (earlier.filterMap (Literal.replacement? relocations)) := by
    refine faithful.fits parsed ?_ (fun _ _ => Nat.zero_le _) ?_ (Nat.zero_le _)
    · rw [whole]
      exact List.sublist_append_left _ _
    · intro other earlierMember
      exact across other earlierMember literal List.mem_cons_self
  have fitsHere : Fits literal.start literal.stop (literal.replacement? relocations).toList := by
    have single : [literal].filterMap (Literal.replacement? relocations) =
        (literal.replacement? relocations).toList := by
      simpa using filterMap_replacement?_append relocations [] [] literal
    rw [← single]
    refine faithful.fits parsed (List.singleton_sublist.2 member) ?_ ?_ (Nat.le_of_lt proper)
    · simp
    · simp
  have fitsAfter : Fits literal.stop text.length
      (later.filterMap (Literal.replacement? relocations)) := by
    refine faithful.fits parsed ?_ after ?_ (inside literal member)
    · rw [whole]
      exact (List.sublist_cons_self _ _).trans (List.sublist_append_right _ _)
    · intro other laterMember
      refine inside other ?_
      rw [whole]
      simp [laterMember]
  rw [replacementsIn, whole, filterMap_replacement?_append,
    slice_applyAll fitsBefore fitsHere fitsAfter, splice_specifier member specifier]
  intro replacement hereMember
  have := fitsHere.mem hereMember
  omega

/-- **The specifiers of a relocated source** are those of the original, replaced by their entries in
the table. -/
theorem content_of_mem_relocated {read : Reading} {dialect : Dialect} {text : List Char}
    {relocations : Table String} (faithful : Faithful read dialect text relocations)
    (plain : ∀ name target, relocations.get? name = some target → IsPlain target) {tree : Node}
    (parsed : read dialect text = some tree) :
    ∃ later, read dialect (applyAll text (replacementsIn text tree relocations)) = some later ∧
      ∀ literal ∈ literals (applyAll text (replacementsIn text tree relocations)) later,
        literal.isSpecifier = true → ∃ old ∈ literals text tree, old.isSpecifier = true ∧
          literal.content = (relocations.get? old.content).getD old.content := by
  obtain ⟨later, reread, ranges⟩ := faithful.stable plain tree parsed
  refine ⟨later, reread, fun literal member specifier => ?_⟩
  have range : (literal.start, literal.stop) ∈
      specifierRanges (applyAll text (replacementsIn text tree relocations)) later :=
    List.mem_map.2 ⟨literal, List.mem_filter.2 ⟨member, specifier⟩, rfl⟩
  rw [ranges] at range
  obtain ⟨oldRange, oldMember, moves⟩ := List.mem_map.1 range
  obtain ⟨old, filtered, rfl⟩ := List.mem_map.1 oldMember
  obtain ⟨oldMember, oldSpecifier⟩ := List.mem_filter.1 filtered
  obtain ⟨newStart, newStop⟩ := Prod.mk.inj moves
  refine ⟨old, oldMember, oldSpecifier, ?_⟩
  have covers := (slice_of_mem_literals member).2
  rw [← newStart, ← newStop, slice_relocated faithful parsed oldMember oldSpecifier] at covers
  obtain ⟨_, rest⟩ := List.cons.inj covers
  obtain ⟨content, _⟩ := List.append_inj' rest rfl
  exact (String.toList_inj.1 content).symm

end Uplift.Source
