import Mathlib.Data.List.Chain
import Uplift.Path.Display
import Uplift.Proofs.Path.Spelling

/-!
# Paths as messages show them

Tidying a path's text changes nothing if none of its names has a backslash or ends in a dot
(`IsTidyName`).  Seen from a root, a path below it is then shown as its further names with slashes
in between (`display_below`), and cutting that text at its slashes gives the names back
(`splitOn_intercalate`).
-/

set_option autoImplicit false

namespace Uplift

/-- A name that tidying leaves alone, whatever follows it. -/
def IsTidyName (name : String) : Prop :=
  '\\' ∉ name.toList ∧ name.toList.getLast? ≠ some '.'

instance (name : String) : Decidable (IsTidyName name) :=
  inferInstanceAs (Decidable (_ ∧ _))

/-- Names that are shown as they are, with slashes between them. -/
structure AreTidy (names : List String) : Prop where
  straight : ∀ name ∈ names, '\\' ∉ name.toList
  /-- No dot stands before a slash. -/
  closed : ∀ name ∈ names.dropLast, name.toList.getLast? ≠ some '.'

theorem areTidy_of_forall {names : List String} (tidyName : ∀ name ∈ names, IsTidyName name) :
    AreTidy names :=
  ⟨fun name member => (tidyName name member).1,
    fun name member => (tidyName name (List.dropLast_subset names member)).2⟩

namespace Path

/-! ## Cutting at slashes -/

theorem splitOn_append {mark : Char} {piece : List Char} (absent : mark ∉ piece)
    (rest : List Char) :
    Text.splitOn mark (piece ++ mark :: rest) = piece :: Text.splitOn mark rest := by
  induction piece with
  | nil => simp [Text.splitOn]
  | cons c piece ih =>
      have head : c ≠ mark := fun equal => absent (equal ▸ List.mem_cons_self)
      rw [List.cons_append, Text.splitOn, if_neg head,
        ih fun member => absent (List.mem_cons_of_mem _ member)]

/-- Pieces without the mark are what the text made of them is cut into. -/
theorem splitOn_intercalate {mark : Char} {pieces : List (List Char)} (nonempty : pieces ≠ [])
    (absent : ∀ piece ∈ pieces, mark ∉ piece) :
    Text.splitOn mark ([mark].intercalate pieces) = pieces := by
  induction pieces with
  | nil => exact absurd rfl nonempty
  | cons piece rest ih =>
      have here := absent piece List.mem_cons_self
      cases rest with
      | nil => rw [List.intercalate_singleton, splitOn_of_not_mem here]
      | cons next rest =>
          rw [List.intercalate_cons_cons, List.append_assoc, List.singleton_append,
            splitOn_append here,
            ih (by simp) fun other member => absent other (List.mem_cons_of_mem _ member)]

/-- The characters of names with slashes between them. -/
theorem toList_slashed (names : List String) :
    (String.intercalate "/" names).toList = ['/'].intercalate (names.map String.toList) :=
  String.toList_intercalate

/-- Names with slashes between them are cut into the names. -/
theorem splitOn_slashed {names : List String} (nonempty : names ≠ [])
    (plain : ∀ name ∈ names, '/' ∉ name.toList) :
    Text.splitOn '/' (String.intercalate "/" names).toList = names.map String.toList := by
  rw [toList_slashed]
  exact splitOn_intercalate (by simpa using nonempty) (List.forall_mem_map.2 plain)

theorem not_mem_of_mem_splitOn {mark : Char} {text piece : List Char}
    (member : piece ∈ Text.splitOn mark text) : mark ∉ piece := by
  induction text generalizing piece with
  | nil =>
      rw [Text.splitOn, List.mem_singleton] at member
      rw [member]
      exact List.not_mem_nil
  | cons c rest ih =>
      rw [Text.splitOn] at member
      split at member
      next =>
        rcases List.mem_cons.1 member with rfl | later
        · exact List.not_mem_nil
        · exact ih later
      next different =>
        split at member
        next none =>
          rw [List.mem_singleton.1 member, List.mem_singleton]
          exact fun same => different same.symm
        next first more pieces =>
          rcases List.mem_cons.1 member with rfl | later
          · rw [List.mem_cons, not_or]
            refine ⟨fun same => different same.symm, ih ?_⟩
            rw [pieces]
            exact List.mem_cons_self
          · refine ih ?_
            rw [pieces]
            exact List.mem_cons_of_mem _ later

theorem not_mem_of_mem_ofText {text piece : String} (member : piece ∈ (ofText text).pieces) :
    '/' ∉ piece.toList := by
  obtain ⟨chars, cut, rfl⟩ := List.mem_map.1 member
  rw [String.toList_ofList]
  exact not_mem_of_mem_splitOn cut

theorem mem_pieces_of_mem_components {path : Path} {name : String}
    (member : .normal name ∈ path.components) : name ∈ path.pieces := by
  have inner : ∀ pieces : List String, .normal name ∈ pieces.filterMap innerComponent? →
      name ∈ pieces := by
    intro pieces found
    obtain ⟨piece, here, same⟩ := List.mem_filterMap.1 found
    obtain ⟨_, none⟩ | ⟨_, up⟩ | ⟨_, isName⟩ := innerComponent?_cases piece
    · rw [none] at same
      cases same
    · rw [up] at same
      cases same
    · rw [isName] at same
      cases same
      exact here
  have leading : ∀ piece : String, .normal name ∈ (leadingComponent? piece).toList →
      name = piece := by
    intro piece found
    rw [Option.mem_toList, leadingComponent?] at found
    split at found
    · cases found
    · split at found
      · cases found
      · split at found
        · cases found
        · cases found
          rfl
  rw [components] at member
  split at member
  next => cases member
  next piece pieces => rw [pieces, leading piece member, List.mem_singleton]
  next rest _ pieces =>
    rw [pieces]
    exact List.mem_cons_of_mem _ (inner rest ((List.mem_cons.1 member).resolve_left (by simp)))
  next piece rest _ _ pieces =>
    rw [pieces]
    rcases List.mem_append.1 member with here | later
    · rw [leading piece here]
      exact List.mem_cons_self
    · exact List.mem_cons_of_mem _ (inner rest later)

/-- The names in a text have no slash. -/
theorem not_mem_of_component {text name : String}
    (member : .normal name ∈ (ofText text).components) : '/' ∉ name.toList :=
  not_mem_of_mem_ofText (mem_pieces_of_mem_components member)

/-! ## Tidying -/

/-- A text in which no dot stands before a slash. -/
def DotFree (text : List Char) : Prop :=
  text.IsChain fun c next => ¬ (c = '.' ∧ next = '/')

theorem replaceAll_of_dotFree {text : List Char} (free : DotFree text) :
    Text.replaceAll '.' ['/'] [] text = text := by
  induction text with
  | nil => rw [Text.replaceAll]
  | cons c rest ih =>
      obtain ⟨first, later⟩ := List.isChain_cons.1 free
      rw [Text.replaceAll]
      split
      next after found =>
        rw [Text.stripPrefix?_eq_some_iff, List.cons_append, List.singleton_append,
          List.cons.injEq] at found
        obtain ⟨rfl, rfl⟩ := found
        exact absurd ⟨rfl, rfl⟩ (first '/' rfl)
      next => rw [ih later]

theorem dotFree_intercalate {names : List (List Char)} (plain : ∀ name ∈ names, '/' ∉ name)
    (closed : ∀ name ∈ names.dropLast, name.getLast? ≠ some '.')
    (nonempty : ∀ name ∈ names, name ≠ []) :
    DotFree (['/'].intercalate names) := by
  have single : ∀ name ∈ names, DotFree name := by
    intro name member
    have apart := plain name member
    clear closed nonempty plain member
    induction name with
    | nil => exact .nil
    | cons c rest ih =>
        refine List.isChain_cons.2 ⟨?_, ih fun later => apart (List.mem_cons_of_mem _ later)⟩
        rintro next here ⟨-, rfl⟩
        exact apart (List.mem_cons_of_mem _ (List.mem_of_head? here))
  induction names with
  | nil => exact .nil
  | cons name rest ih =>
      have here := single name List.mem_cons_self
      cases rest with
      | nil => rwa [List.intercalate_singleton]
      | cons next rest =>
          rw [List.dropLast_cons_cons] at closed
          have later := ih (fun other member => plain other (List.mem_cons_of_mem _ member))
            (fun other member => closed other (List.mem_cons_of_mem _ member))
            (fun other member => nonempty other (List.mem_cons_of_mem _ member))
            (fun other member => single other (List.mem_cons_of_mem _ member))
          rw [List.intercalate_cons_cons, List.append_assoc, List.singleton_append]
          refine List.isChain_append.2 ⟨here, List.isChain_cons.2 ⟨?_, later⟩, ?_⟩
          · rintro c _ ⟨impossible, -⟩
            cases impossible
          · rintro c last d _ ⟨rfl, -⟩
            exact closed name List.mem_cons_self last

theorem mem_intercalate {mark c : Char} {pieces : List (List Char)}
    (member : c ∈ [mark].intercalate pieces) : c = mark ∨ ∃ piece ∈ pieces, c ∈ piece := by
  induction pieces with
  | nil => cases member
  | cons piece rest ih =>
      cases rest with
      | nil =>
          rw [List.intercalate_singleton] at member
          exact .inr ⟨piece, List.mem_cons_self, member⟩
      | cons next rest =>
          rw [List.intercalate_cons_cons, List.append_assoc, List.singleton_append,
            List.mem_append, List.mem_cons] at member
          rcases member with here | same | later
          · exact .inr ⟨piece, List.mem_cons_self, here⟩
          · exact .inl same
          · obtain same | ⟨other, among, found⟩ := ih later
            · exact .inl same
            · exact .inr ⟨other, List.mem_cons_of_mem _ among, found⟩

/-- Tidying leaves the text of tidy names alone. -/
theorem tidy_intercalate {names : List String} (isName : ∀ name ∈ names, IsName name)
    (plain : ∀ name ∈ names, '/' ∉ name.toList) (areTidy : AreTidy names) :
    tidy (String.intercalate "/" names) = String.intercalate "/" names := by
  have slashed : (['/'].intercalate (names.map String.toList)).map
      (fun c => if c = '\\' then '/' else c) = ['/'].intercalate (names.map String.toList) := by
    refine (List.map_congr_left fun c member => ?_).trans (List.map_id _)
    refine if_neg fun same => ?_
    subst same
    obtain impossible | ⟨piece, among, here⟩ := mem_intercalate member
    · cases impossible
    · obtain ⟨name, listed, rfl⟩ := List.mem_map.1 among
      exact areTidy.straight name listed here
  rw [tidy, toList_slashed, slashed, replaceAll_of_dotFree]
  · rw [← toList_slashed, String.ofList_toList]
  · refine dotFree_intercalate ?_ ?_ ?_
    · exact List.forall_mem_map.2 plain
    · rw [← List.map_dropLast]
      exact List.forall_mem_map.2 areTidy.closed
    · refine List.forall_mem_map.2 fun name member empty => (isName name member).1 ?_
      exact String.toList_eq_nil_iff.1 empty

/-! ## Seen from a root -/

theorem dropComponents_append {place rest : List String} (isName : ∀ name ∈ place, IsName name) :
    dropComponents place.length (place ++ rest) = rest := by
  induction place with
  | nil => rw [List.length_nil, List.nil_append, dropComponents]
  | cons name place ih =>
      have busy := (isName name List.mem_cons_self).not_isIdle
      rw [List.length_cons, List.cons_append, dropComponents, busy, if_neg Bool.false_ne_true,
        ih fun other member => isName other (List.mem_cons_of_mem _ member)]

/-- Below a root, the further names remain. -/
theorem stripBase?_below {root member : Path} {place added : List String}
    (spells : root.Spells place) (spelled : member.Spells (place ++ added))
    (plainest : member.pieces = "" :: (place ++ added)) (nonempty : added ≠ []) :
    member.stripBase? root = some ⟨added⟩ := by
  have starts : member.startsWith root = true := by
    rw [startsWith, List.isPrefixOf_iff_prefix, spelled, spells, List.cons_prefix_cons,
      List.map_append]
    exact ⟨rfl, List.prefix_append _ _⟩
  have isName : ∀ name ∈ place ++ added, IsName name := fun _ member => spelled.isName member
  have busy : ∀ name ∈ added, isIdle name = false := fun name member =>
    (isName name (List.mem_append_right _ member)).not_isIdle
  have trimmed : dropIdleEnd (added.dropWhile isIdle) = added := by
    obtain ⟨first, rest, rfl⟩ := List.exists_cons_of_ne_nil nonempty
    rw [List.dropWhile_cons_of_neg (by simp [busy first List.mem_cons_self]), dropIdleEnd]
    rcases List.eq_nil_or_concat (first :: rest) with empty | ⟨above, last, split⟩
    · cases empty
    · rw [List.concat_eq_append] at split
      have final := busy last (by rw [split]; simp)
      rw [split, List.reverse_concat, List.dropWhile_cons_of_neg (by simp [final]),
        ← List.reverse_concat, List.reverse_reverse]
  rw [stripBase?, if_pos starts, show root.components = _ from spells]
  simp only [List.length_cons, List.length_map, Nat.add_one_ne_zero, if_false,
    Nat.add_sub_cancel, plainest, List.drop_succ_cons, List.drop_zero]
  rw [dropComponents_append fun name member => isName name (List.mem_append_left _ member),
    trimmed]
  obtain ⟨first, rest, rfl⟩ := List.exists_cons_of_ne_nil nonempty
  rfl

/-- **A path below a root is shown as its further names**, if they are tidy. -/
theorem display_below {root member : Path} {place added : List String}
    (spells : root.Spells place) (spelled : member.Spells (place ++ added))
    (plainest : member.pieces = "" :: (place ++ added)) (nonempty : added ≠ [])
    (plain : ∀ name ∈ added, '/' ∉ name.toList) (areTidy : AreTidy added) :
    root.display member = String.intercalate "/" added := by
  rw [display, stripBase?_below spells spelled plainest nonempty, Option.getD_some]
  exact tidy_intercalate
    (fun name member => spelled.isName (List.mem_append_right _ member)) plain areTidy

end Path

end Uplift
