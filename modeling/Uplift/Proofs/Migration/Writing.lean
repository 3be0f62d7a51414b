import Mathlib.Data.List.Forall2
import Uplift.Migration.Header
import Uplift.Proofs.Text.Trimming

/-!
# Written migration documents

How the header of a document may be written, apart from how it is read.  Every scalar is an entry
of one line, and the changes are a list of items, each of which has its fields in lines of their
own, further in than its first line.  The scalars and the list may come in any order, and blank
lines and remarks may stand anywhere (`Header.HasLines`).

Reading cuts a text into lines and drops the carriage returns at their ends.  No line of a header
has a line feed in it or looks like a delimiter (`Header.HasLines.isHeaderLine`), and dropping the
returns leaves the lines of a header (`Header.HasLines.map_dropReturn`): only remarks and blank
lines can end in one.
-/

set_option autoImplicit false

namespace Uplift.Migration

/-! ## Lines that count for nothing -/

/-- A line that counts for nothing: it is blank, or a remark that blanks may precede. -/
inductive IsSilent : List Char → Prop where
  | blank {line : List Char} :
      (∀ c ∈ line, Text.isBlank c = true) → '\n' ∉ line → IsSilent line
  | remark {blank : List Char} (text : List Char) :
      (∀ c ∈ blank, Text.isBlank c = true) → '\n' ∉ blank → '\n' ∉ text →
      IsSilent (blank ++ '#' :: text)

/-- Lines among which silent lines were put, any number of them at any place. -/
inductive Spaced : List (List Char) → List (List Char) → Prop where
  | nil : Spaced [] []
  | silent {line : List Char} {entries lines : List (List Char)} :
      IsSilent line → Spaced entries lines → Spaced entries (line :: lines)
  | entry (line : List Char) {entries lines : List (List Char)} :
      Spaced entries lines → Spaced (line :: entries) (line :: lines)

/-! ## Entries -/

/-- A key and its value, in quotes. -/
def quoted (key value : String) : List Char :=
  key.toList ++ ':' :: ' ' :: '"' :: value.toList ++ ['"']

/-- The entry for the authors' flag. -/
def flagEntry (breaking : Bool) : List Char :=
  if breaking then "breaking: true".toList else "breaking: false".toList

/-- The fields that a change can have, with their keys. -/
def Change.slots (change : Change) : List (String × Option String) :=
  [("from", change.origin), ("to", change.destination), ("path", change.path),
    ("export", change.symbol), ("detail", change.detail), ("codemod", change.codemod)]

/-- The fields that are present in a change, with their keys. -/
def Change.fields (change : Change) : List (String × String) :=
  change.slots.filterMap fun (key, value) => value.map fun value => (key, value)

/-- Spaces and tabs, at least one. -/
@[mk_iff]
structure IsIndent (indent : List Char) : Prop where
  nonempty : indent ≠ []
  blank : ∀ c ∈ indent, c = ' ' ∨ c = '\t'

instance (indent : List Char) : Decidable (IsIndent indent) :=
  decidable_of_iff (indent ≠ [] ∧ indent.all fun c => c == ' ' || c == '\t')
    (by simp [isIndent_iff])

/-- A line with a field of an item, further in than the item's first line. -/
def IsFieldLine (indent : List Char) (field : String × String) (line : List Char) : Prop :=
  ∃ deeper, IsIndent deeper ∧ indent.length < deeper.length ∧
    line = deeper ++ quoted field.1 field.2

/-- What an item's first line says. -/
def kindEntry (kind : ChangeKind) : List Char :=
  "- type: ".toList ++ kind.text.toList

/-- The lines of a change: its kind behind a hyphen, and below it a line for each field. -/
inductive Change.HasLines (change : Change) : List (List Char) → Prop where
  | item {indent : List Char} {fields : List (String × String)} {lines : List (List Char)} :
      IsIndent indent → fields.Perm change.fields →
      List.Forall₂ (IsFieldLine indent) fields lines →
      change.HasLines ((indent ++ kindEntry change.kind) :: lines)

/-- The lines of a list of changes; an empty list may be left out. -/
inductive HasListLines : List Change → List (List Char) → Prop where
  | omitted : HasListLines [] []
  | listed {changes : List Change} {items : List (List (List Char))} :
      List.Forall₂ Change.HasLines changes items →
      HasListLines changes ("changes:".toList :: items.flatten)

/-- The lines of a header: its scalars and its list of changes in any order, and silent lines. -/
inductive Header.HasLines (header : Header) : List (List Char) → Prop where
  | spaced {listLines lines : List (List Char)} {blocks : List (List (List Char))} :
      HasListLines header.changes listLines →
      blocks.Perm [[quoted "package" header.package], [quoted "version" header.version],
        [flagEntry header.breaking], listLines] →
      Spaced blocks.flatten lines → header.HasLines lines

/-- A header that can be written: what must be given is not empty, and each text fits in a line. -/
structure Header.IsWritable (header : Header) : Prop where
  package_ne : header.package ≠ ""
  version_ne : header.version ≠ ""
  package_line : '\n' ∉ header.package.toList
  version_line : '\n' ∉ header.version.toList
  field_line : ∀ change ∈ header.changes, ∀ field ∈ change.fields, '\n' ∉ field.2.toList

/-- The lines of a header between its two delimiters. -/
def framed (lines : List (List Char)) : List (List Char) :=
  delimiter :: (lines ++ [delimiter])

/-- The text of a document: the lines of its header between two delimiters, then its body.  A byte
order mark may come first, and all lines may end in a carriage return and a line feed. -/
def documentText (marked returned : Bool) (lines : List (List Char)) (body : String) : String :=
  let text := Text.terminate (framed lines) ++ body.toList
  String.ofList ((if marked then ['\uFEFF'] else []) ++
    if returned then Text.withReturns text else text)

/-! ## Lines of a header -/

/-- A line that does not end a header, nor break in two. -/
structure IsHeaderLine (line : List Char) : Prop where
  unbroken : '\n' ∉ line
  started : line.head? ≠ some '-'

/-- A line of a header that says something: it does not end in a carriage return either. -/
structure IsEntry (line : List Char) : Prop extends IsHeaderLine line where
  unreturned : Text.dropReturn line = line

theorem IsIndent.isBlank {indent : List Char} (isIndent : IsIndent indent) :
    ∀ c ∈ indent, Text.isBlank c = true := by
  intro c member
  rcases isIndent.blank c member with rfl | rfl <;> rfl

theorem IsIndent.unbroken {indent : List Char} (isIndent : IsIndent indent) :
    '\n' ∉ indent := by
  intro member
  rcases isIndent.blank '\n' member with equal | equal <;> cases equal

theorem IsIndent.exists_cons {indent : List Char} (isIndent : IsIndent indent) :
    ∃ c more, indent = c :: more ∧ (c = ' ' ∨ c = '\t') := by
  cases indent with
  | nil => exact absurd rfl isIndent.nonempty
  | cons c more => exact ⟨c, more, rfl, isIndent.blank c List.mem_cons_self⟩

/-- A silent line starts with a blank or as a remark. -/
theorem isHeaderLine_of_isSilent {line : List Char} (silent : IsSilent line) :
    IsHeaderLine line := by
  have started : ∀ {blank : List Char}, (∀ c ∈ blank, Text.isBlank c = true) →
      blank.head? ≠ some '-' := by
    intro blank blanks found
    exact Bool.noConfusion (blanks '-' (List.mem_of_head? found))
  cases silent with
  | blank blanks unbroken => exact ⟨unbroken, started blanks⟩
  | @remark blank text blanks unbroken plain =>
      refine ⟨by simp [unbroken, plain], ?_⟩
      cases blank with
      | nil => exact nofun
      | cons c blank =>
          have first : (c :: blank).head? ≠ some '-' := started blanks
          exact first

/-- A silent line stays silent without the return at its end. -/
theorem IsSilent.dropReturn {line : List Char} (silent : IsSilent line) :
    IsSilent (Text.dropReturn line) := by
  cases silent with
  | blank blanks unbroken =>
      exact .blank (fun c member => blanks c ((Text.dropReturn_sublist line).subset member))
        (Text.not_mem_dropReturn unbroken)
  | @remark blank text blanks unbroken plain =>
      rw [Text.dropReturn_append blank (List.cons_ne_nil '#' text),
        Text.dropReturn_cons (by decide)]
      exact .remark _ blanks unbroken (Text.not_mem_dropReturn plain)

/-- Lines with silent lines among them stay so without the returns at their ends. -/
theorem Spaced.map_dropReturn {entries lines : List (List Char)} (spaced : Spaced entries lines)
    (isEntry : ∀ line ∈ entries, IsEntry line) :
    Spaced entries (lines.map Text.dropReturn) := by
  induction spaced with
  | nil => exact .nil
  | silent silent _ ih => exact .silent silent.dropReturn (ih isEntry)
  | entry line _ ih =>
      rw [List.map_cons, (isEntry line List.mem_cons_self).unreturned]
      exact .entry line (ih fun other member => isEntry other (List.mem_cons_of_mem _ member))

theorem Spaced.isHeaderLine {entries lines : List (List Char)} (spaced : Spaced entries lines)
    (isEntry : ∀ line ∈ entries, IsEntry line) : ∀ line ∈ lines, IsHeaderLine line := by
  induction spaced with
  | nil => exact nofun
  | silent silent _ ih =>
      exact List.forall_mem_cons.2 ⟨isHeaderLine_of_isSilent silent, ih isEntry⟩
  | entry line _ ih =>
      obtain ⟨first, others⟩ := List.forall_mem_cons.1 isEntry
      exact List.forall_mem_cons.2 ⟨first.toIsHeaderLine, ih others⟩

/-! ## Keys -/

/-- A key: it has no blank and no colon, and starts neither a remark nor an item. -/
@[mk_iff]
structure IsKey (key : String) : Prop where
  started : ∃ c, key.toList.head? = some c ∧ c ≠ '#' ∧ c ≠ '-'
  dark : ∀ c ∈ key.toList, Text.isBlank c = false
  plain : ':' ∉ key.toList

instance : DecidablePred IsKey := fun key =>
  decidable_of_iff
    (key.toList.head?.any (fun c => c != '#' && c != '-') ∧
      key.toList.all (fun c => !Text.isBlank c) ∧ ':' ∉ key.toList)
    (by simp [isKey_iff, Option.any_eq_true])

theorem IsKey.exists_cons {key : String} (isKey : IsKey key) :
    ∃ c more, key.toList = c :: more ∧ c ≠ '#' ∧ c ≠ '-' ∧ Text.isBlank c = false := by
  obtain ⟨c, head, unremarked, unmarked⟩ := isKey.started
  obtain ⟨more, written⟩ := List.head?_eq_some_iff.1 head
  exact ⟨c, more, written, unremarked, unmarked, isKey.dark c (List.mem_of_head? head)⟩

theorem Change.mem_fields {change : Change} {field : String × String} :
    field ∈ change.fields ↔ (field.1, some field.2) ∈ change.slots := by
  simp [fields, List.mem_filterMap, Prod.ext_iff]

theorem Change.isKey_of_mem_fields {change : Change} {field : String × String}
    (member : field ∈ change.fields) : IsKey field.1 := by
  have keys : ∀ key ∈ change.slots.map Prod.fst, IsKey key := by
    show ∀ key ∈ ["from", "to", "path", "export", "detail", "codemod"], IsKey key
    decide
  exact keys field.1 (List.mem_map_of_mem (mem_fields.1 member))

theorem isEntry_quoted {key value : String} (isKey : IsKey key) (line : '\n' ∉ value.toList) :
    IsEntry (quoted key value) := by
  obtain ⟨c, more, written, _, unmarked, _⟩ := isKey.exists_cons
  have unbroken : '\n' ∉ key.toList := fun member => Bool.noConfusion (isKey.dark '\n' member)
  refine ⟨⟨by simp [quoted, unbroken, line], ?_⟩, ?_⟩
  · simpa [quoted, written] using unmarked
  · rw [quoted, Text.dropReturn_concat, if_neg (by decide)]

/-- An entry stays one behind an indentation. -/
theorem IsIndent.isEntry {indent text : List Char} (isIndent : IsIndent indent)
    (unbroken : '\n' ∉ text) (nonempty : text ≠ []) (unreturned : Text.dropReturn text = text) :
    IsEntry (indent ++ text) where
  unbroken := by simp [isIndent.unbroken, unbroken]
  started := by
    obtain ⟨c, more, rfl, rfl | rfl⟩ := isIndent.exists_cons <;> exact nofun
  unreturned := by rw [Text.dropReturn_append indent nonempty, unreturned]

theorem Change.HasLines.isEntry {change : Change} {lines : List (List Char)}
    (has : change.HasLines lines) (fits : ∀ field ∈ change.fields, '\n' ∉ field.2.toList) :
    ∀ line ∈ lines, IsEntry line := by
  cases has with
  | @item indent fields lines isIndent ordered below =>
      have kind : ∀ kind, '\n' ∉ kindEntry kind ∧ kindEntry kind ≠ [] ∧
          Text.dropReturn (kindEntry kind) = kindEntry kind := by
        intro kind
        cases kind <;> decide
      obtain ⟨unbroken, nonempty, unreturned⟩ := kind change.kind
      refine List.forall_mem_cons.2 ⟨isIndent.isEntry unbroken nonempty unreturned, ?_⟩
      have member : ∀ field ∈ fields, field ∈ change.fields := fun _ among => ordered.subset among
      clear ordered
      induction below with
      | nil => exact nofun
      | @cons field line fields lines written _ ih =>
          obtain ⟨deeper, isDeeper, _, rfl⟩ := written
          obtain ⟨first, others⟩ := List.forall_mem_cons.1 member
          have entry := isEntry_quoted (isKey_of_mem_fields first) (fits field first)
          exact List.forall_mem_cons.2 ⟨isDeeper.isEntry entry.unbroken
            (by simp [quoted]) entry.unreturned, ih others⟩

theorem HasListLines.isEntry {changes : List Change} {lines : List (List Char)}
    (has : HasListLines changes lines)
    (fits : ∀ change ∈ changes, ∀ field ∈ change.fields, '\n' ∉ field.2.toList) :
    ∀ line ∈ lines, IsEntry line := by
  cases has with
  | omitted => exact nofun
  | @listed changes items each =>
      refine List.forall_mem_cons.2 ⟨⟨⟨by decide, by decide⟩, by decide⟩, ?_⟩
      induction each with
      | nil => exact nofun
      | cons item _ ih =>
          obtain ⟨first, others⟩ := List.forall_mem_cons.1 fits
          rw [List.flatten_cons]
          exact List.forall_mem_append.2 ⟨item.isEntry first, ih others⟩

/-- The entries of a header that can be written. -/
theorem Header.IsWritable.isEntry {header : Header} (writable : header.IsWritable)
    {listLines : List (List Char)} (listed : HasListLines header.changes listLines)
    {blocks : List (List (List Char))}
    (ordered : blocks.Perm [[quoted "package" header.package], [quoted "version" header.version],
      [flagEntry header.breaking], listLines]) :
    ∀ line ∈ blocks.flatten, IsEntry line := by
  have package : IsEntry (quoted "package" header.package) :=
    isEntry_quoted (by decide) writable.package_line
  have version : IsEntry (quoted "version" header.version) :=
    isEntry_quoted (by decide) writable.version_line
  have flag : IsEntry (flagEntry header.breaking) := by
    cases header.breaking <;> exact ⟨⟨by decide, by decide⟩, by decide⟩
  have list := listed.isEntry writable.field_line
  intro line member
  obtain ⟨block, among, member⟩ := List.mem_flatten.1 member
  have block := ordered.subset among
  simp only [List.mem_cons, List.not_mem_nil, or_false] at block
  rcases block with rfl | rfl | rfl | rfl
  · exact List.mem_singleton.1 member ▸ package
  · exact List.mem_singleton.1 member ▸ version
  · exact List.mem_singleton.1 member ▸ flag
  · exact list line member

theorem Header.HasLines.isHeaderLine {header : Header} {lines : List (List Char)}
    (has : header.HasLines lines) (writable : header.IsWritable) :
    ∀ line ∈ lines, IsHeaderLine line := by
  cases has with
  | spaced listed ordered spaced => exact spaced.isHeaderLine (writable.isEntry listed ordered)

theorem Header.HasLines.map_dropReturn {header : Header} {lines : List (List Char)}
    (has : header.HasLines lines) (writable : header.IsWritable) :
    header.HasLines (lines.map Text.dropReturn) := by
  cases has with
  | spaced listed ordered spaced =>
      exact .spaced listed ordered (spaced.map_dropReturn (writable.isEntry listed ordered))

theorem unbroken_framed {lines : List (List Char)} (plain : ∀ line ∈ lines, IsHeaderLine line) :
    ∀ line ∈ framed lines, '\n' ∉ line := by
  have unbroken : '\n' ∉ delimiter := by decide
  refine List.forall_mem_cons.2 ⟨unbroken, List.forall_mem_append.2 ⟨?_, ?_⟩⟩
  · exact fun line member => (plain line member).unbroken
  · exact List.forall_mem_singleton.2 unbroken

theorem map_dropReturn_framed (lines : List (List Char)) :
    (framed lines).map Text.dropReturn = framed (lines.map Text.dropReturn) := by
  have whole : Text.dropReturn delimiter = delimiter := by decide
  rw [framed, List.map_cons, List.map_append, List.map_singleton, whole, framed]

end Uplift.Migration
