import Mathlib.Data.List.Pairwise
import Mathlib.Data.List.Perm.Basic
import Uplift.Proofs.Migration.Writing

/-!
# Reading a written document

The header of a document is read line by line.  A silent line changes nothing (`step_silent`), and
what the lines of a scalar or of the list of changes do is told once the item and the list that
are open are ended: then each of them has one effect (`Acts`), on fields of its own, and the order
of the effects does not matter.  A field of an item is likewise read in any order, because no two
fields of a change have one key.  So a document reads back as the header it was written for and as
its body without the blanks around it (`parseDocument?_documentText`).
-/

set_option autoImplicit false

namespace Uplift.Migration

/-! ## Entries -/

/-- An entry is split at its first colon, which is the one behind its key. -/
theorem keyValue?_entry {key : String} (isKey : IsKey key) (written : List Char) :
    keyValue? (key.toList ++ ':' :: written) =
      some (key, String.ofList (unquote (Text.trim written))) := by
  obtain ⟨c, more, chars, _⟩ := isKey.exists_cons
  have nonempty : key.toList.isEmpty = false := by rw [chars, List.isEmpty_cons]
  have unbroken : key.toList.contains ' ' = false := by
    rw [List.contains_eq_mem, decide_eq_false_iff_not]
    exact fun member => Bool.noConfusion (isKey.dark ' ' member)
  rw [keyValue?, Text.splitOnce?_append isKey.plain]
  simp only [Option.bind_eq_bind, Option.bind_some, Text.trim_of_dark isKey.dark, nonempty,
    unbroken, Bool.or_self, Bool.false_eq_true, if_false, String.ofList_toList]

theorem unquote_quotes (value : List Char) : unquote ('"' :: (value ++ ['"'])) = value := by
  rw [unquote, List.getLast?_concat, if_pos ⟨.inl rfl, rfl⟩, List.dropLast_concat]

theorem hasDarkEnds_quotes (value : List Char) :
    Text.HasDarkEnds ('"' :: (value ++ ['"'])) where
  first := ⟨'"', rfl, rfl⟩
  last := ⟨'"', by rw [← List.cons_append, List.getLast?_concat], rfl⟩

/-- A value in quotes is read back, whatever it has in it. -/
theorem keyValue?_quoted {key : String} (isKey : IsKey key) (value : String) :
    keyValue? (quoted key value) = some (key, value) := by
  have blank : ∀ c ∈ [' '], Text.isBlank c = true := List.forall_mem_singleton.2 rfl
  have regroup : quoted key value =
      key.toList ++ ':' :: ([' '] ++ '"' :: (value.toList ++ ['"'])) := by
    simp [quoted]
  rw [regroup, keyValue?_entry isKey, Text.trim_of_ends blank (hasDarkEnds_quotes _),
    unquote_quotes, String.ofList_toList]

theorem hasDarkEnds_quoted {key : String} (isKey : IsKey key) (value : String) :
    Text.HasDarkEnds (quoted key value) := by
  obtain ⟨c, more, chars, _, _, dark⟩ := isKey.exists_cons
  refine ⟨⟨c, by rw [quoted, chars]; rfl, dark⟩, '"', ?_, rfl⟩
  rw [quoted, List.getLast?_concat]

/-! ## Steps -/

namespace Draft

/-- What has been read once the item and the list that are being read are ended. -/
def settle (draft : Draft) : Draft :=
  { draft.flush with inChanges := false }

/-- What has been read, with an item that is being read. -/
def holding (draft : Draft) (raw : RawChange) : Draft :=
  { draft with current := some raw }

/-- What has been read, with a list that is being read. -/
def listing (draft : Draft) : Draft :=
  { draft with inChanges := true }

/-- What has been read, and changes after it. -/
def adding (draft : Draft) (changes : List Change) : Draft :=
  { draft with changes := draft.changes ++ changes }

theorem adding_nil (draft : Draft) : draft.adding [] = draft := by
  rw [adding, List.append_nil]

theorem settle_settle (draft : Draft) : draft.settle.settle = draft.settle := by
  obtain ⟨_, _, _, _, _, current⟩ := draft
  cases current <;> rfl

theorem settle_listing (draft : Draft) : draft.listing.settle = draft.settle := by
  obtain ⟨_, _, _, _, _, current⟩ := draft
  cases current <;> rfl

theorem finish?_settle (draft : Draft) : draft.settle.finish? = draft.finish? := by
  obtain ⟨_, _, _, _, _, current⟩ := draft
  cases current <;> rfl

/-- **A silent line** changes nothing. -/
theorem step_silent {line : List Char} (silent : IsSilent line) (draft : Draft) :
    draft.step line = draft := by
  have passed : (Text.trim line).isEmpty || (Text.trim line).head? = some '#' := by
    cases silent with
    | blank blanks _ => rw [Text.trim_of_blank blanks]; rfl
    | remark text blanks _ _ =>
        obtain ⟨more, trimmed⟩ := Text.trim_cons (by decide : Text.isBlank '#' = false) text
        rw [Text.trim_blank_append blanks, trimmed]
        rfl
  rw [step, if_pos passed]

theorem foldl_step_spaced {entries lines : List (List Char)} (spaced : Spaced entries lines)
    (draft : Draft) : lines.foldl step draft = entries.foldl step draft := by
  induction spaced generalizing draft with
  | nil => rfl
  | silent silent _ ih => rw [List.foldl_cons, step_silent silent, ih]
  | entry line _ ih => rw [List.foldl_cons, List.foldl_cons, ih]

/-- A line that is not silent, without the blanks before it. -/
theorem step_busy {blank text : List Char} (blanks : ∀ c ∈ blank, Text.isBlank c = true)
    (ends : Text.HasDarkEnds text) (busy : text.head? ≠ some '#') (draft : Draft) :
    draft.step (blank ++ text) =
      if draft.inChanges then
        match listItem? text with
        | some item => { draft.flush with current := some (keyValue? item).toList }
        | none =>
          if isIndented (blank ++ text) then
            match draft.current, keyValue? text with
            | some raw, some pair => { draft with current := some (raw ++ [pair]) }
            | _, _ => draft
          else draft.settle.scalar text
      else draft.scalar text := by
  have counted : (text.isEmpty || text.head? = some '#') = false := by
    obtain ⟨_, head, _⟩ := ends.first
    cases text with
    | nil => cases head
    | cons c text => simpa using busy
  rw [step, Text.trim_of_ends blanks ends]
  simp only [counted, Bool.false_eq_true, if_false]
  rfl

end Draft

/-! ## Scalars -/

/-- A line that is neither a remark nor an item, without blanks around it. -/
structure IsTop (text : List Char) : Prop extends Text.HasDarkEnds text where
  unremarked : text.head? ≠ some '#'
  unmarked : text.head? ≠ some '-'

theorem isTop_quoted {key : String} (isKey : IsKey key) (value : String) :
    IsTop (quoted key value) := by
  obtain ⟨c, more, chars, unremarked, unmarked, _⟩ := isKey.exists_cons
  exact ⟨hasDarkEnds_quoted isKey value, by simpa [quoted, chars], by simpa [quoted, chars]⟩

theorem isTop_flagEntry (breaking : Bool) : IsTop (flagEntry breaking) := by
  cases breaking <;> exact ⟨⟨⟨'b', rfl, rfl⟩, ⟨'e', rfl, rfl⟩⟩, by decide, by decide⟩

theorem listItem?_eq_none {text : List Char} (unmarked : text.head? ≠ some '-') :
    listItem? text = none := by
  unfold listItem?
  split
  next => exact absurd rfl unmarked
  next => exact absurd rfl unmarked
  next => rfl

theorem isIndented_of_isTop {text : List Char} (isTop : IsTop text) :
    isIndented text = false := by
  obtain ⟨c, head, dark⟩ := isTop.first
  obtain ⟨more, rfl⟩ := List.head?_eq_some_iff.1 head
  have apart : c ≠ ' ' ∧ c ≠ '\t' := by
    constructor <;> rintro rfl <;> cases dark
  simp [isIndented, apart]

namespace Draft

/-- A scalar ends the list of changes before it is taken into account. -/
theorem step_top {text : List Char} (isTop : IsTop text) (draft : Draft) :
    draft.step text = (if draft.inChanges then draft.settle else draft).scalar text := by
  have stepped := step_busy (nofun : ∀ c ∈ [], Text.isBlank c = true) isTop.toHasDarkEnds
    isTop.unremarked draft
  rw [List.nil_append, listItem?_eq_none isTop.unmarked, isIndented_of_isTop isTop] at stepped
  rw [stepped]
  split <;> rfl

end Draft

/-- What lines do to what has been read, once the item and the list that are open are ended. -/
def Acts (lines : List (List Char)) (effect : Draft → Draft) : Prop :=
  ∀ draft : Draft, (lines.foldl Draft.step draft).settle = effect draft.settle

/-- A scalar acts as it is read, whether an item is being read or not. -/
theorem acts_of_scalar {text : List Char} {key value : String} {effect : Draft → Draft}
    (isTop : IsTop text) (read : keyValue? text = some (key, value)) (unlisted : key ≠ "changes")
    (effects : ∀ draft : Draft, draft.scalar text = effect draft) : Acts [text] effect := by
  intro draft
  have settled : ∀ draft : Draft, (draft.scalar text).settle = draft.settle.scalar text := by
    rintro ⟨_, _, _, _, _, current⟩
    rw [Draft.scalar, Draft.scalar, read]
    split
    next => cases current <;> rfl
    next => cases current <;> rfl
    next => cases current <;> rfl
    next listed =>
      cases listed
      exact absurd rfl unlisted
    next => rfl
  rw [List.foldl_cons, List.foldl_nil, Draft.step_top isTop, settled, effects]
  split
  · rw [Draft.settle_settle]
  · rfl

/-- The effect of each part of a header. -/
def Header.effects (header : Header) : List (Draft → Draft) :=
  [fun draft => { draft with package := some header.package },
    fun draft => { draft with version := some header.version },
    fun draft => { draft with breaking := some header.breaking },
    (Draft.adding · header.changes)]

/-- Effects may come in any order: each is on a field of its own. -/
theorem Header.effects_comm (header : Header) : ∀ first ∈ header.effects,
    ∀ second ∈ header.effects, ∀ draft, second (first draft) = first (second draft) := by
  simp [effects, Draft.adding]

theorem acts_quoted {key : String} (isKey : IsKey key) (unlisted : key ≠ "changes")
    (value : String) {effect : Draft → Draft}
    (effects : ∀ draft : Draft, draft.scalar (quoted key value) = effect draft) :
    Acts [quoted key value] effect :=
  acts_of_scalar (isTop_quoted isKey value) (keyValue?_quoted isKey value) unlisted effects

theorem acts_package (value : String) :
    Acts [quoted "package" value] fun draft => { draft with package := some value } := by
  refine acts_quoted (by decide) (by decide) value fun draft => ?_
  rw [Draft.scalar, keyValue?_quoted (by decide)]
  rfl

theorem acts_version (value : String) :
    Acts [quoted "version" value] fun draft => { draft with version := some value } := by
  refine acts_quoted (by decide) (by decide) value fun draft => ?_
  rw [Draft.scalar, keyValue?_quoted (by decide)]
  rfl

theorem acts_flag (breaking : Bool) :
    Acts [flagEntry breaking] fun draft => { draft with breaking := some breaking } := by
  have read : keyValue? (flagEntry breaking) =
      some ("breaking", if breaking then "true" else "false") := by
    cases breaking <;> rfl
  refine acts_of_scalar (isTop_flagEntry breaking) read (by decide) fun draft => ?_
  rw [Draft.scalar, read]
  cases breaking <;> rfl

/-! ## Fields -/

/-- The lines of an item with different keys are taken into account in any order. -/
theorem PartialChange.set_comm {first second : String × String} (apart : first.1 ≠ second.1)
    (draft : PartialChange) :
    (draft.set first).set second = (draft.set second).set first := by
  unfold PartialChange.set
  split <;> split <;> first | rfl | exact (apart rfl).elim

theorem Change.fields_pairwise (change : Change) :
    change.fields.Pairwise fun first second => first.1 ≠ second.1 := by
  have apart : change.slots.Pairwise fun first second => first.1 ≠ second.1 := by
    have keys : ["from", "to", "path", "export", "detail", "codemod"].Nodup := by decide
    exact List.pairwise_map.1 (show (change.slots.map Prod.fst).Nodup from keys)
  refine apart.filterMap _ ?_
  rintro ⟨key, value⟩ ⟨other, text⟩ apart _ first _ second
  obtain ⟨_, _, rfl⟩ := Option.map_eq_some_iff.1 first
  obtain ⟨_, _, rfl⟩ := Option.map_eq_some_iff.1 second
  exact apart

/-- **The fields of a change**, read in any order, give the change. -/
theorem toChange?_fields {change : Change} {fields : List (String × String)}
    (ordered : fields.Perm change.fields) :
    RawChange.toChange? (("type", change.kind.text) :: fields) = some change := by
  have comm : ∀ first ∈ fields, ∀ second ∈ fields, ∀ draft : PartialChange,
      (draft.set first).set second = (draft.set second).set first := by
    have symmetric : Std.Symm fun first second : String × String => first.1 ≠ second.1 :=
      ⟨fun _ _ => Ne.symm⟩
    intro first member second other draft
    by_cases same : first = second
    · rw [same]
    · exact PartialChange.set_comm (change.fields_pairwise.forall (ordered.subset member)
        (ordered.subset other) same) draft
  rw [RawChange.toChange?, List.foldl_cons, ordered.foldl_eq' comm]
  obtain ⟨kind, origin, destination, path, symbol, detail, codemod⟩ := change
  have typed : ∀ draft : PartialChange,
      draft.set ("type", kind.text) = { draft with kind := some kind } := by
    intro draft
    rw [PartialChange.set, ChangeKind.parse?_text]
  rw [typed]
  cases origin <;> cases destination <;> cases path <;> cases symbol <;> cases detail <;>
    cases codemod <;> rfl

/-! ## Items -/

theorem isIndented_indent {indent : List Char} (isIndent : IsIndent indent) (text : List Char) :
    isIndented (indent ++ text) = true := by
  obtain ⟨c, more, rfl, rfl | rfl⟩ := isIndent.exists_cons <;> rfl

namespace Draft

variable {draft : Draft} {indent : List Char}

theorem flush_inChanges (draft : Draft) : draft.flush.inChanges = draft.inChanges := by
  obtain ⟨_, _, _, _, _, current⟩ := draft
  cases current <;> rfl

theorem settle_holding (draft : Draft) (raw : RawChange) :
    (draft.flush.holding raw).settle = draft.settle.adding raw.toChange?.toList := by
  obtain ⟨_, _, _, _, _, current⟩ := draft
  cases current <;> rfl

/-- The first line of an item ends the item before it and starts a new one. -/
theorem step_kind (inside : draft.inChanges = true) (isIndent : IsIndent indent)
    (kind : ChangeKind) :
    draft.step (indent ++ kindEntry kind) = draft.flush.holding [("type", kind.text)] := by
  have ends : Text.HasDarkEnds (kindEntry kind) := by
    refine ⟨⟨'-', rfl, rfl⟩, ?_⟩
    cases kind <;> exact ⟨'d', rfl, rfl⟩
  obtain ⟨item, named, typed⟩ : ∃ item, listItem? (kindEntry kind) = some item ∧
      keyValue? item = some ("type", kind.text) := by
    cases kind <;> exact ⟨_, rfl, rfl⟩
  rw [step_busy isIndent.isBlank ends nofun, if_pos inside, named]
  simp only [typed, Option.toList_some]
  rfl

/-- A line further in belongs to the item. -/
theorem step_field (inside : draft.inChanges = true) (raw : RawChange)
    {field : String × String} (isKey : IsKey field.1) {line : List Char}
    (written : IsFieldLine indent field line) :
    (draft.holding raw).step line = draft.holding (raw ++ [field]) := by
  obtain ⟨deeper, isDeeper, _, rfl⟩ := written
  have isTop := isTop_quoted isKey field.2
  have inside : (draft.holding raw).inChanges = true := inside
  rw [step_busy isDeeper.isBlank isTop.toHasDarkEnds isTop.unremarked, if_pos inside,
    listItem?_eq_none isTop.unmarked, isIndented_indent isDeeper, keyValue?_quoted isKey]
  rfl

theorem foldl_step_fields (inside : draft.inChanges = true) {raw : RawChange}
    {fields : List (String × String)} (keys : ∀ field ∈ fields, IsKey field.1)
    {lines : List (List Char)} (written : List.Forall₂ (IsFieldLine indent) fields lines) :
    lines.foldl step (draft.holding raw) = draft.holding (raw ++ fields) := by
  induction written generalizing raw with
  | nil => rw [List.foldl_nil, List.append_nil]
  | @cons field line fields lines first _ ih =>
      obtain ⟨isKey, others⟩ := List.forall_mem_cons.1 keys
      rw [List.foldl_cons, step_field inside raw isKey first, ih others, ← List.append_cons]

/-- The lines of a change add it to what was read, and leave the list open. -/
theorem foldl_step_change (inside : draft.inChanges = true) {change : Change}
    {lines : List (List Char)} (written : change.HasLines lines) :
    (lines.foldl step draft).inChanges = true ∧
      (lines.foldl step draft).settle = draft.settle.adding [change] := by
  cases written with
  | @item indent fields lines isIndent ordered below =>
      have keys : ∀ field ∈ fields, IsKey field.1 := fun _ member =>
        change.isKey_of_mem_fields (ordered.subset member)
      have started : draft.flush.inChanges = true := by rw [flush_inChanges, inside]
      rw [List.foldl_cons, step_kind inside isIndent, foldl_step_fields started keys below]
      refine ⟨started, ?_⟩
      rw [settle_holding, List.singleton_append, toChange?_fields ordered, Option.toList_some]

/-- The lines of changes add them in order. -/
theorem foldl_step_changes (inside : draft.inChanges = true) {changes : List Change}
    {items : List (List (List Char))} (written : List.Forall₂ Change.HasLines changes items) :
    (items.flatten.foldl step draft).settle = draft.settle.adding changes := by
  induction written generalizing draft with
  | nil => rw [List.flatten_nil, List.foldl_nil, adding_nil]
  | @cons change _ changes _ first _ ih =>
      obtain ⟨still, settled⟩ := foldl_step_change inside first
      rw [List.flatten_cons, List.foldl_append, ih still, settled, adding, adding, adding,
        List.append_assoc, List.singleton_append]

end Draft

theorem acts_changes {changes : List Change} {lines : List (List Char)}
    (written : HasListLines changes lines) : Acts lines (Draft.adding · changes) := by
  intro draft
  cases written with
  | omitted => exact (Draft.adding_nil draft.settle).symm
  | @listed changes items each =>
      have isTop : IsTop "changes:".toList :=
        ⟨⟨⟨'c', rfl, rfl⟩, ⟨':', rfl, rfl⟩⟩, by decide, by decide⟩
      have opened : ∀ draft : Draft, draft.scalar "changes:".toList = draft.listing := fun _ => rfl
      rw [List.foldl_cons, Draft.step_top isTop, opened, Draft.foldl_step_changes rfl each,
        Draft.settle_listing]
      split
      · rw [Draft.settle_settle]
      · rfl

/-! ## The header as a whole -/

theorem settle_foldl_flatten {blocks : List (List (List Char))} {effects : List (Draft → Draft)}
    (each : List.Forall₂ Acts blocks effects) (draft : Draft) :
    (blocks.flatten.foldl Draft.step draft).settle =
      effects.foldl (fun draft effect => effect draft) draft.settle := by
  induction each generalizing draft with
  | nil => rfl
  | cons acts _ ih =>
      rw [List.flatten_cons, List.foldl_append, ih, acts, List.foldl_cons]

theorem Header.HasLines.settle_foldl {header : Header} {lines : List (List Char)}
    (has : header.HasLines lines) (draft : Draft) :
    (lines.foldl Draft.step draft).settle =
      header.effects.foldl (fun draft effect => effect draft) draft.settle := by
  cases has with
  | @spaced listLines lines blocks listed ordered spaced =>
      have acts : List.Forall₂ Acts [[quoted "package" header.package],
          [quoted "version" header.version], [flagEntry header.breaking], listLines]
          header.effects :=
        .cons (acts_package _) (.cons (acts_version _) (.cons (acts_flag _)
          (.cons (acts_changes listed) .nil)))
      obtain ⟨effects, each, reordered⟩ := List.perm_comp_forall₂ ordered acts
      rw [Draft.foldl_step_spaced spaced, settle_foldl_flatten each]
      exact (reordered.symm.foldl_eq' header.effects_comm _).symm

/-- **The lines of a header** are read as the header. -/
theorem parseHeader?_lines {header : Header} (writable : header.IsWritable)
    {lines : List (List Char)} (has : header.HasLines lines) :
    parseHeader? lines = some header := by
  have read : header.effects.foldl (fun draft effect => effect draft) Draft.start.settle =
      ⟨some header.package, some header.version, some header.breaking, header.changes, false,
        none⟩ := rfl
  rw [parseHeader?, ← Draft.finish?_settle, has.settle_foldl, read]
  simp [Draft.finish?, Draft.flush, writable.package_ne, writable.version_ne]

/-! ## The document -/

theorem trimEnd_ne_delimiter {line : List Char} (isHeaderLine : IsHeaderLine line) :
    Text.trimEnd line ≠ delimiter := by
  intro equal
  obtain ⟨rest, written⟩ := Text.trimEnd_isPrefix line
  refine isHeaderLine.started ?_
  rw [← written, equal]
  rfl

theorem splitHeader?_append {lines : List (List Char)}
    (plain : ∀ line ∈ lines, IsHeaderLine line) (body : List (List Char)) :
    splitHeader? (lines ++ delimiter :: body) = some (lines, body) := by
  induction lines with
  | nil => rw [List.nil_append, splitHeader?, if_pos (by decide)]
  | cons line lines ih =>
      obtain ⟨first, others⟩ := List.forall_mem_cons.1 plain
      rw [List.cons_append, splitHeader?, if_neg (trimEnd_ne_delimiter first), ih others]
      rfl

/-- The lines between the delimiters of a text are read as its header, and the others as its
body. -/
theorem parseDocument?_of_folded {header : Header} (writable : header.IsWritable)
    {lines : List (List Char)} (has : header.HasLines lines) {body : List Char}
    (unreturned : '\r' ∉ body) {text : String}
    (folded : stripMark (Text.foldCrlf text.toList) = Text.terminate (framed lines) ++ body) :
    parseDocument? text = some (header, String.ofList (Text.trim body)) := by
  have kept := has.map_dropReturn writable
  have trimmed : Text.trimEnd delimiter = delimiter := by decide
  have unbroken := unbroken_framed (has.isHeaderLine writable)
  rw [parseDocument?, folded, Text.lines_terminate_append unbroken, map_dropReturn_framed, framed]
  simp only [List.cons_append, List.append_assoc, List.nil_append]
  rw [if_pos trimmed, splitHeader?_append (kept.isHeaderLine writable), Option.bind_eq_bind,
    Option.bind_some, parseHeader?_lines writable kept, Option.bind_eq_bind, Option.bind_some,
    Text.trim_joinWith_lines unreturned]

/-- The byte order mark is dropped, if there is one. -/
theorem stripMark_foldCrlf (marked : Bool) {text folded : List Char}
    (folds : Text.foldCrlf text = folded) (unmarked : stripMark folded = folded) :
    stripMark (Text.foldCrlf ((if marked then ['\uFEFF'] else []) ++ text)) = folded := by
  cases marked with
  | false => exact (congrArg stripMark folds).trans unmarked
  | true =>
      rw [if_pos rfl, List.singleton_append,
        Text.foldCrlf_cons fun equal => absurd equal (by decide), folds]
      rfl

/-- A document starts with a delimiter, not with a mark. -/
theorem stripMark_terminate (lines : List (List Char)) (body : List Char) :
    stripMark (Text.terminate (framed lines) ++ body) = Text.terminate (framed lines) ++ body := by
  rw [framed, Text.terminate_cons_append]
  rfl

/-- **A written document reads back** as its header and as its body without the blanks around it.
-/
theorem parseDocument?_documentText {header : Header} {lines : List (List Char)} {body : String}
    (writable : header.IsWritable) (has : header.HasLines lines) (unreturned : '\r' ∉ body.toList)
    (marked returned : Bool) :
    parseDocument? (documentText marked returned lines body) =
      some (header, Text.trimmed body) := by
  have text : (documentText marked returned lines body).toList = _ := String.toList_ofList
  cases returned with
  | true =>
      refine parseDocument?_of_folded writable has unreturned ?_
      rw [text]
      exact stripMark_foldCrlf marked (Text.foldCrlf_withReturns _) (stripMark_terminate _ _)
  | false =>
      have kept := has.map_dropReturn writable
      have unbroken := unbroken_framed (has.isHeaderLine writable)
      refine parseDocument?_of_folded writable kept unreturned ?_
      rw [text]
      refine stripMark_foldCrlf marked ?_ (stripMark_terminate _ _)
      rw [if_neg Bool.false_ne_true, Text.foldCrlf_terminate_append unbroken,
        map_dropReturn_framed, Text.foldCrlf_of_not_mem unreturned]

/-- A header whose values look like other parts of a document. -/
def disguisedHeader : Header :=
  ⟨"- a ", "---", true,
    [⟨.moved, some " # ", none, none, none, some "\"x: y\"", none⟩]⟩

/-- Lines for the header, with its changes first and its package last. -/
def disguisedLines : List (List Char) :=
  ["\t# changes:", "changes:", "", " - type: moved", "\t\tdetail: \"\"x: y\"\"", "   from: \" # \"",
    "version: \"---\"", "breaking: true", "  ", "package: \"- a \""].map String.toList

theorem disguisedHeader_hasLines : disguisedHeader.HasLines disguisedLines := by
  have indented : IsIndent " ".toList := by decide
  have item : Change.HasLines ⟨.moved, some " # ", none, none, none, some "\"x: y\"", none⟩
      [" - type: moved".toList, "\t\tdetail: \"\"x: y\"\"".toList, "   from: \" # \"".toList] :=
    .item indented (.swap ("from", " # ") ("detail", "\"x: y\"") [])
      (.cons ⟨"\t\t".toList, by decide, by decide, rfl⟩
        (.cons ⟨"   ".toList, by decide, by decide, rfl⟩ .nil))
  have ordered : [["changes:".toList, " - type: moved".toList, "\t\tdetail: \"\"x: y\"\"".toList,
      "   from: \" # \"".toList], [quoted "version" "---"], [flagEntry true],
      [quoted "package" "- a "]].Perm [[quoted "package" "- a "], [quoted "version" "---"],
        [flagEntry true], ["changes:".toList, " - type: moved".toList,
          "\t\tdetail: \"\"x: y\"\"".toList, "   from: \" # \"".toList]] := by
    decide
  have tab : ∀ c ∈ ['\t'], Text.isBlank c = true := List.forall_mem_singleton.2 rfl
  have remark : IsSilent "\t# changes:".toList :=
    .remark " changes:".toList tab (by decide) (by decide)
  have blank : IsSilent [] := .blank nofun (by decide)
  have blanks : IsSilent "  ".toList :=
    .blank (List.forall_mem_cons.2 ⟨rfl, List.forall_mem_singleton.2 rfl⟩) (by decide)
  exact .spaced (.listed (.cons item .nil)) ordered (.silent remark (.entry _ (.silent blank
    (.entry _ (.entry _ (.entry _ (.entry _ (.entry _ (.silent blanks (.entry _ .nil))))))))))

theorem parseDocument?_documentText_disguised :
    disguisedHeader.IsWritable ∧ disguisedHeader.HasLines disguisedLines ∧
      '\r' ∉ "\n---\n# text\n".toList ∧
      parseDocument? ("\uFEFF---\r\n\t# changes:\r\nchanges:\r\n\r\n - type: moved\r\n" ++
        "\t\tdetail: \"\"x: y\"\"\r\n   from: \" # \"\r\nversion: \"---\"\r\nbreaking: true\r\n" ++
        "  \r\npackage: \"- a \"\r\n---\r\n\r\n---\r\n# text\r\n") =
          some (disguisedHeader, "---\n# text") := by
  have writable : disguisedHeader.IsWritable :=
    ⟨by decide, by decide, by decide, by decide, by decide⟩
  have plain : '\r' ∉ "\n---\n# text\n".toList := by decide
  have written : documentText true true disguisedLines "\n---\n# text\n" =
      "\uFEFF---\r\n\t# changes:\r\nchanges:\r\n\r\n - type: moved\r\n" ++
        "\t\tdetail: \"\"x: y\"\"\r\n   from: \" # \"\r\nversion: \"---\"\r\nbreaking: true\r\n" ++
        "  \r\npackage: \"- a \"\r\n---\r\n\r\n---\r\n# text\r\n" := by
    cbv
  rw [← written]
  exact ⟨writable, disguisedHeader_hasLines, plain,
    parseDocument?_documentText writable disguisedHeader_hasLines plain true true⟩

end Uplift.Migration
