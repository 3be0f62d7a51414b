import Uplift.Proofs.Source.Specifiers

/-!
# What relocation makes of a source

Relocation replaces literals from the last to the first, by their places in the old text.  What
comes out is described without an order: every character of the old text stands for itself, unless
a relocated literal covers it; then the first character stands for the whole replacement and the
others for nothing (`relocatedAt`).  The description fits whatever order the literals are found in,
as long as no two of them share a character (`applyAll_replacementsIn`).  Together with the three
accounts of what was replaced, what occurs in plain text and what was retained, this is all that
relocating a source does (`relocated_of_parses`).
-/

set_option autoImplicit false

namespace Uplift.Source

/-! ## Replacements offset by offset -/

/-- Whether a replacement covers an offset. -/
def Replacement.Covers (replacement : Replacement) (offset : Nat) : Prop :=
  replacement.start ≤ offset ∧ offset < replacement.stop

instance (replacement : Replacement) (offset : Nat) : Decidable (replacement.Covers offset) :=
  inferInstanceAs (Decidable (_ ∧ _))

/-- What a replacement puts in place of the character at an offset that it covers: all of its
content in place of the first character, and nothing in place of the others. -/
def Replacement.inPlaceOf? (replacement : Replacement) (offset : Nat) : Option (List Char) :=
  if replacement.Covers offset then
    some (if offset = replacement.start then replacement.content else [])
  else none

/-- What stands for the character at an offset after replacements: what one of them puts in its
place, or itself. -/
def replacedAt (text : List Char) (replacements : List Replacement) (offset : Nat) : List Char :=
  (replacements.findSome? fun replacement => replacement.inPlaceOf? offset).getD
    text[offset]?.toList

theorem replacedAt_of_uncovered {text : List Char} {replacements : List Replacement} {offset : Nat}
    (uncovered : ∀ replacement ∈ replacements, ¬ replacement.Covers offset) :
    replacedAt text replacements offset = text[offset]?.toList := by
  have none : (replacements.findSome? fun replacement => replacement.inPlaceOf? offset) = none :=
    List.findSome?_eq_none_iff.2 fun replacement member => if_neg (uncovered replacement member)
  rw [replacedAt, none, Option.getD_none]

theorem replacedAt_cons_of_covers {text : List Char} {replacement : Replacement}
    {rest : List Replacement} {offset : Nat} (covers : replacement.Covers offset) :
    replacedAt text (replacement :: rest) offset =
      if offset = replacement.start then replacement.content else [] := by
  rw [replacedAt, List.findSome?_cons_of_isSome (by simp [Replacement.inPlaceOf?, covers]),
    Replacement.inPlaceOf?, if_pos covers, Option.getD_some]

theorem replacedAt_cons_of_not_covers {text : List Char} {replacement : Replacement}
    {rest : List Replacement} {offset : Nat} (uncovered : ¬ replacement.Covers offset) :
    replacedAt text (replacement :: rest) offset = replacedAt text rest offset := by
  rw [replacedAt, List.findSome?_cons_of_isNone (by simp [Replacement.inPlaceOf?, uncovered]),
    replacedAt]

/-- The characters of a piece, offset by offset. -/
theorem flatMap_getElem? (text : List Char) {start stop : Nat} (inside : stop ≤ text.length) :
    (List.range' start (stop - start)).flatMap (fun offset => text[offset]?.toList) =
      slice text start stop := by
  generalize length : stop - start = count
  rw [slice, length]
  have bound : count = 0 ∨ start + count ≤ text.length := by omega
  clear length inside stop
  induction count generalizing start with
  | zero => rfl
  | succ count ih =>
      have here : start < text.length := by omega
      rw [List.range'_succ, List.flatMap_cons, ih (by omega), List.getElem?_eq_getElem here,
        List.drop_eq_getElem_cons here, List.take_succ_cons]
      rfl

/-- A range that begins with a covered replacement has its content for all of it. -/
theorem flatMap_covered {text : List Char} {replacement : Replacement} {rest : List Replacement}
    (proper : replacement.start < replacement.stop) :
    (List.range' replacement.start (replacement.stop - replacement.start)).flatMap
        (replacedAt text (replacement :: rest)) = replacement.content := by
  obtain ⟨count, length⟩ : ∃ count, replacement.stop - replacement.start = count + 1 :=
    ⟨replacement.stop - replacement.start - 1, by omega⟩
  have later : (List.range' (replacement.start + 1) count).flatMap
      (replacedAt text (replacement :: rest)) = [] := by
    rw [List.flatMap_eq_nil_iff]
    intro offset member
    rw [List.mem_range'_1] at member
    rw [replacedAt_cons_of_covers ⟨by omega, by omega⟩, if_neg (by omega)]
  rw [length, List.range'_succ, List.flatMap_cons, later, List.append_nil,
    replacedAt_cons_of_covers ⟨Nat.le_refl _, proper⟩, if_pos rfl]

/-- Offsets up to one and from there on. -/
theorem range'_append_range' {start middle stop : Nat} (before : start ≤ middle)
    (after : middle ≤ stop) :
    List.range' start (middle - start) ++ List.range' middle (stop - middle) =
      List.range' start (stop - start) := by
  have append := List.range'_append_1 (s := start) (m := middle - start) (n := stop - middle)
  rwa [Nat.add_sub_cancel' before, Nat.add_comm, Nat.sub_add_sub_cancel after before] at append

/-- **Splicing, offset by offset.** -/
theorem splice_eq_flatMap (text : List Char) {start stop : Nat} {replacements : List Replacement}
    (fits : Fits start stop replacements) (inside : stop ≤ text.length) :
    splice text start stop replacements =
      (List.range' start (stop - start)).flatMap (replacedAt text replacements) := by
  induction fits with
  | nil le => exact (flatMap_getElem? text inside).symm
  | @cons start stop replacement rest before proper later ih =>
      have upper := later.le
      have first : (List.range' start (replacement.start - start)).flatMap
          (replacedAt text (replacement :: rest)) = slice text start replacement.start := by
        rw [← flatMap_getElem? text (by omega)]
        refine List.flatMap_congr fun offset member => ?_
        rw [List.mem_range'_1] at member
        refine replacedAt_of_uncovered fun other among covers => ?_
        rcases List.mem_cons.1 among with rfl | among
        · have := covers.1
          omega
        · have := (later.mem among).1
          have := covers.1
          omega
      have last : (List.range' replacement.stop (stop - replacement.stop)).flatMap
          (replacedAt text (replacement :: rest)) = splice text replacement.stop stop rest := by
        rw [ih inside]
        refine List.flatMap_congr fun offset member => ?_
        rw [List.mem_range'_1] at member
        refine replacedAt_cons_of_not_covers fun covers => ?_
        have := covers.2
        omega
      rw [splice, ← range'_append_range' (Nat.le_trans before (Nat.le_of_lt proper)) upper,
        ← range'_append_range' before (Nat.le_of_lt proper), List.flatMap_append,
        List.flatMap_append, first, last, flatMap_covered proper]

/-! ## In any order -/

/-- Two replacements share no offset. -/
def Replacement.Apart (first second : Replacement) : Prop :=
  first.stop ≤ second.start ∨ second.stop ≤ first.start

theorem Replacement.Apart.symm {first second : Replacement} (apart : first.Apart second) :
    second.Apart first :=
  Or.symm apart

theorem Replacement.Apart.not_covers {first second : Replacement} (apart : first.Apart second)
    {offset : Nat} (covers : first.Covers offset) : ¬ second.Covers offset := by
  intro again
  have := covers.1
  have := covers.2
  have := again.1
  have := again.2
  rcases apart with _ | _ <;> omega

/-- Replacements in the order of their ranges. -/
def inOrder (replacements : List Replacement) : List Replacement :=
  (replacements.mergeSort fun a b => b.start ≤ a.start).reverse

theorem inOrder_perm (replacements : List Replacement) :
    (inOrder replacements).Perm replacements :=
  (List.reverse_perm _).trans (List.mergeSort_perm replacements _)

section Apart

variable {replacements : List Replacement}
  (apart : replacements.Pairwise Replacement.Apart)
  (proper : ∀ replacement ∈ replacements, replacement.start < replacement.stop)
include apart

/-- At most one replacement puts something in place of a character. -/
theorem findSome?_inPlaceOf?_eq_some_iff {offset : Nat} {chars : List Char} :
    (replacements.findSome? fun replacement => replacement.inPlaceOf? offset) = some chars ↔
      ∃ replacement ∈ replacements, replacement.inPlaceOf? offset = some chars := by
  induction replacements with
  | nil => simp
  | cons replacement rest ih =>
      obtain ⟨first, later⟩ := List.pairwise_cons.1 apart
      rw [List.findSome?_cons, List.exists_mem_cons_iff]
      by_cases covers : replacement.Covers offset
      · have others : ¬ ∃ other ∈ rest, other.inPlaceOf? offset = some chars := by
          rintro ⟨other, member, placed⟩
          rw [Replacement.inPlaceOf?, if_neg ((first other member).not_covers covers)] at placed
          cases placed
        rw [or_iff_left others, Replacement.inPlaceOf?, if_pos covers]
      · have nothing : replacement.inPlaceOf? offset = none := if_neg covers
        rw [nothing, ih later]
        simp

/-- The order of replacements that are apart does not matter. -/
theorem replacedAt_perm (text : List Char) {others : List Replacement}
    (perm : others.Perm replacements) (offset : Nat) :
    replacedAt text others offset = replacedAt text replacements offset := by
  have apart' : others.Pairwise Replacement.Apart := perm.symm.pairwise apart (·.symm)
  rw [replacedAt, replacedAt]
  congr 1
  refine Option.ext fun chars => ?_
  rw [findSome?_inPlaceOf?_eq_some_iff apart, findSome?_inPlaceOf?_eq_some_iff apart']
  simp only [perm.mem_iff]

include proper

theorem pairwise_inOrder :
    (inOrder replacements).Pairwise fun first second => first.stop ≤ second.start := by
  have sorted : (inOrder replacements).Pairwise fun first second => first.start ≤ second.start := by
    rw [inOrder, List.pairwise_reverse]
    refine (List.pairwise_mergeSort ?_ ?_ replacements).imp fun {first second} le => ?_
    · intro a b c
      simp only [decide_eq_true_eq]
      omega
    · intro a b
      simp only [Bool.or_eq_true, decide_eq_true_eq]
      omega
    · simpa using le
  have apartInOrder : (inOrder replacements).Pairwise Replacement.Apart :=
    (inOrder_perm replacements).symm.pairwise apart (·.symm)
  refine (sorted.and apartInOrder).imp_of_mem fun {first second} _ member both => ?_
  have here := proper second ((inOrder_perm replacements).mem_iff.1 member)
  rcases both.2 with le | le
  · exact le
  · have := both.1
    omega

/-- **Replacements that are apart are carried out as if at once**, in whatever order they are
given. -/
theorem applyAll_eq_flatMap {text : List Char}
    (inside : ∀ replacement ∈ replacements, replacement.stop ≤ text.length) :
    applyAll text replacements =
      (List.range text.length).flatMap (replacedAt text replacements) := by
  have among := fun {replacement} => (inOrder_perm replacements).mem_iff (a := replacement)
  have fits : Fits 0 text.length (inOrder replacements) := by
    refine .of_pairwise (pairwise_inOrder apart proper) ?_ ?_ ?_ (Nat.zero_le _)
    · exact fun replacement member => proper replacement (among.1 member)
    · exact fun _ _ => Nat.zero_le _
    · exact fun replacement member => inside replacement (among.1 member)
  have spliced : applyAll text replacements = splice text 0 text.length (inOrder replacements) := by
    rw [applyAll, ← List.foldr_reverse]
    exact foldr_apply_eq_splice text fits
  rw [spliced, splice_eq_flatMap text fits (Nat.le_refl _), Nat.sub_zero, ← List.range_eq_range']
  exact List.flatMap_congr fun offset _ => replacedAt_perm apart text (inOrder_perm _) offset

end Apart

/-! ## Relocated sources -/

/-- The literals of a source lie inside it, and no two of them share a character. -/
structure LiteralsApart (text : List Char) (tree : Node) : Prop where
  inside : ∀ literal ∈ literals text tree, literal.stop ≤ text.length
  apart : (literals text tree).Pairwise fun first second =>
    first.stop ≤ second.start ∨ second.stop ≤ first.start

instance (text : List Char) (tree : Node) : Decidable (LiteralsApart text tree) :=
  decidable_of_iff ((∀ literal ∈ literals text tree, literal.stop ≤ text.length) ∧
      (literals text tree).Pairwise fun first second =>
        first.stop ≤ second.start ∨ second.stop ≤ first.start)
    ⟨fun both => ⟨both.1, both.2⟩, fun apart => ⟨apart.inside, apart.apart⟩⟩

/-- What a literal puts in place of the character at an offset, if it is relocated and covers the
offset: in place of its first character its own quote, its target and the quote again, and nothing
in place of the others. -/
def Literal.inPlaceOf? (relocations : Table String) (literal : Literal) (offset : Nat) :
    Option (List Char) :=
  if literal.isSpecifier ∧ literal.start ≤ offset ∧ offset < literal.stop then
    (relocations.get? literal.content).map fun target =>
      if offset = literal.start then literal.quote :: target.toList ++ [literal.quote] else []
  else none

/-- What stands for the character at an offset in a relocated source: what a relocated literal puts
in its place, or itself. -/
def relocatedAt (relocations : Table String) (text : List Char) (found : List Literal)
    (offset : Nat) : List Char :=
  (found.findSome? fun literal => literal.inPlaceOf? relocations offset).getD
    text[offset]?.toList

theorem inPlaceOf?_eq_bind (relocations : Table String) (literal : Literal) (offset : Nat) :
    literal.inPlaceOf? relocations offset =
      (literal.replacement? relocations).bind fun replacement =>
        replacement.inPlaceOf? offset := by
  rw [Literal.inPlaceOf?, Literal.replacement?]
  by_cases specifier : literal.isSpecifier = true
  · rw [if_pos specifier]
    cases relocations.get? literal.content with
    | none => simp
    | some target => simp [Replacement.inPlaceOf?, Replacement.Covers, specifier]
  · simp [specifier]

/-- Literals put in place what their replacements do. -/
theorem relocatedAt_eq (relocations : Table String) (text : List Char) (found : List Literal)
    (offset : Nat) :
    relocatedAt relocations text found offset =
      replacedAt text (found.filterMap (Literal.replacement? relocations)) offset := by
  rw [relocatedAt, replacedAt]
  congr 1
  induction found with
  | nil => rfl
  | cons literal rest ih =>
      rw [List.findSome?_cons, inPlaceOf?_eq_bind, ih]
      cases replaced : literal.replacement? relocations with
      | none => rw [List.filterMap_cons_none replaced, Option.bind_none]
      | some replacement =>
          rw [List.filterMap_cons_some replaced, List.findSome?_cons, Option.bind_some]

/-- **A relocated source**, offset by offset. -/
theorem applyAll_replacementsIn {text : List Char} {tree : Node} (relocations : Table String)
    (literalsApart : LiteralsApart text tree) :
    applyAll text (replacementsIn text tree relocations) =
      (List.range text.length).flatMap
        (relocatedAt relocations text (literals text tree)) := by
  have apart : (replacementsIn text tree relocations).Pairwise Replacement.Apart := by
    refine List.pairwise_filterMap.2 (literalsApart.apart.imp fun {first second} apart => ?_)
    intro replacement replaced other replaced'
    rw [Replacement.Apart, (range_of_replacement? replaced).1, (range_of_replacement? replaced).2,
      (range_of_replacement? replaced').1, (range_of_replacement? replaced').2]
    exact apart
  rw [applyAll_eq_flatMap apart]
  · exact List.flatMap_congr fun offset _ => (relocatedAt_eq _ _ _ _).symm
  · intro replacement member
    obtain ⟨literal, found, begins, ends⟩ := exists_literal_of_mem member
    rw [begins, ends]
    exact start_lt_stop_of_mem_literals found
  · intro replacement member
    obtain ⟨literal, found, _, ends⟩ := exists_literal_of_mem member
    rw [ends]
    exact literalsApart.inside literal found

/-- As many replacements are made as there are literals that name a module and are in the table. -/
theorem length_replacementsIn (text : List Char) (tree : Node) (relocations : Table String) :
    (replacementsIn text tree relocations).length =
      (literals text tree).countP fun literal =>
        literal.isSpecifier && relocations.contains literal.content := by
  rw [replacementsIn, List.length_filterMap_eq_countP]
  refine List.countP_congr fun literal _ => ?_
  rw [Literal.replacement?, Table.contains]
  cases literal.isSpecifier <;> simp

/-- What is left in plain text: the keys of the table that some literal has for its content without
naming a module. -/
theorem mem_residual_iff {text : List Char} {tree : Node} {relocations : Table String}
    {name : String} :
    name ∈ Table.names (relocateTree text tree relocations).residual ↔
      ∃ literal ∈ literals text tree, literal.isSpecifier = false ∧
        relocations.contains literal.content = true ∧ literal.content = name := by
  rw [relocateTree, mem_nameSet, List.mem_map]
  simp only [List.mem_filter, Bool.and_eq_true, Bool.not_eq_true', and_assoc]

/-- **Relocating a source touches exactly its relocated specifiers.**  A source that can be read is
relocated.  If its literals are apart, the result is the source with each literal that names a
module and is in the table replaced by its target in the quotes it had, all at once, and every other
character in its place.  The literals replaced are counted; the keys of the table that occur in
plain text and the specifiers that are not in the table are listed.  If none is replaced, the source
stays as it is. -/
theorem relocated_of_parses {read : Reading} {dialect : Dialect} {source : String} {tree : Node}
    (relocations : Table String) (parses : read dialect source.toList = some tree)
    (literalsApart : LiteralsApart source.toList tree) :
    ∃ result, relocate read dialect source relocations = .ok result ∧
      result.output.toList = (List.range source.toList.length).flatMap
        (relocatedAt relocations source.toList (literals source.toList tree)) ∧
      result.replaced = (literals source.toList tree).countP (fun literal =>
        literal.isSpecifier && relocations.contains literal.content) ∧
      (∀ name, name ∈ Table.names result.residual ↔ relocations.contains name = true ∧
        ∃ literal ∈ literals source.toList tree,
          literal.isSpecifier = false ∧ literal.content = name) ∧
      (∀ name, name ∈ Table.names result.retained ↔ relocations.contains name = false ∧
        ∃ literal ∈ literals source.toList tree,
          literal.isSpecifier = true ∧ literal.content = name) ∧
      (result.replaced = 0 → result.output = source) := by
  refine ⟨relocateTree source.toList tree relocations, ?_, ?_, ?_, ?_, ?_, ?_⟩
  · rw [relocate, parses]
  · exact String.toList_ofList.trans (applyAll_replacementsIn relocations literalsApart)
  · exact length_replacementsIn source.toList tree relocations
  · intro name
    rw [mem_residual_iff]
    constructor
    · rintro ⟨literal, found, plain, key, rfl⟩
      exact ⟨key, literal, found, plain, rfl⟩
    · rintro ⟨key, literal, found, plain, rfl⟩
      exact ⟨literal, found, plain, key, rfl⟩
  · intro name
    rw [mem_retained_iff, Table.contains, Option.isSome_eq_false_iff, Option.isNone_iff_eq_none]
    constructor
    · rintro ⟨literal, found, specifier, absent, rfl⟩
      exact ⟨absent, literal, found, specifier, rfl⟩
    · rintro ⟨absent, literal, found, specifier, rfl⟩
      exact ⟨literal, found, specifier, absent, rfl⟩
  · intro none
    have empty : replacementsIn source.toList tree relocations = [] :=
      List.length_eq_zero_iff.1 none
    change String.ofList (applyAll source.toList
      (replacementsIn source.toList tree relocations)) = source
    rw [empty]
    simp [applyAll]

/-- A source with a literal of each sort: two specifiers in the table, in either quotes, one of them
inside a call; the same text as a value; and a specifier that is not in the table. -/
def mixedSource : String :=
  "import a from \"old\";\nlet b = require('old'), c = \"old\";\nexport * from \"kept\";\n"

/-- A table in which the target of one key is another. -/
def chainedTable : Table String :=
  Table.ofList [("old", "older/than"), ("older/than", "x")]

/-- The source with its two relocated specifiers. -/
def mixedOutput : String :=
  "import a from \"older/than\";\nlet b = require('older/than'), c = \"old\";\n" ++
    "export * from \"kept\";\n"

theorem relocated_of_parses_mixedSource :
    ∃ tree, parse? .typed mixedSource.toList = some tree ∧
      LiteralsApart mixedSource.toList tree ∧
      ∃ result, relocate parse? .typed mixedSource chainedTable = .ok result ∧
        result.output = mixedOutput ∧ result.replaced = 2 ∧
        "old" ∈ Table.names result.residual ∧ "kept" ∈ Table.names result.retained := by
  have checked : ((parse? .typed mixedSource.toList).any fun tree =>
      decide (LiteralsApart mixedSource.toList tree ∧
        (List.range mixedSource.toList.length).flatMap
          (relocatedAt chainedTable mixedSource.toList (literals mixedSource.toList tree)) =
            mixedOutput.toList ∧
        (literals mixedSource.toList tree).countP (fun literal =>
          literal.isSpecifier && chainedTable.contains literal.content) = 2 ∧
        (∃ literal ∈ literals mixedSource.toList tree,
          literal.isSpecifier = false ∧ literal.content = "old") ∧
        ∃ literal ∈ literals mixedSource.toList tree,
          literal.isSpecifier = true ∧ literal.content = "kept")) = true := by
    decide +kernel
  obtain ⟨tree, parses, holds⟩ := (Option.any_eq_true _ _).1 checked
  obtain ⟨apart, spread, count, plain, kept⟩ := of_decide_eq_true holds
  obtain ⟨result, done, output, replaced, residual, retained, _⟩ :=
    relocated_of_parses chainedTable parses apart
  refine ⟨tree, parses, apart, result, done, ?_, replaced.trans count, ?_, ?_⟩
  · exact String.toList_inj.1 (output.trans spread)
  · exact (residual "old").2 ⟨by decide +kernel, plain⟩
  · exact (retained "kept").2 ⟨by decide +kernel, kept⟩

end Uplift.Source
