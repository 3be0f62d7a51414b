import Uplift.Proofs.Path.Display
import Uplift.Proofs.Url.Percent
import Uplift.Proofs.Version.Spelling
import Uplift.Url.Reader

/-!
# Segments of addresses

The segments that are read from a text are some of those that were done, without the last ones, and
after them some of the pieces of the text, escaped (`exists_added`).  A text that ends in a slash
leaves an empty segment at the end (`segmentsAfter_directory`), and of two pieces that are not
resolved away one is added after the other (`resolve_pair`).

There is no other way to come by a given segment: if the segment before the last is as long as an
escaped text, it was read from the whole of that text, which then is neither divided nor resolved
away (`whole_of_segmentsAfter`).
-/

set_option autoImplicit false

namespace Uplift

namespace Text

theorem splitOn_append_mark (mark : Char) (front rest : List Char) :
    splitOn mark (front ++ mark :: rest) = splitOn mark front ++ splitOn mark rest := by
  induction front with
  | nil => simp [splitOn]
  | cons c front ih =>
      rw [List.cons_append, splitOn, splitOn, ih]
      split
      next => rfl
      next =>
        obtain ⟨piece, pieces, cut⟩ :=
          List.exists_cons_of_ne_nil (Version.intercalate_splitOn mark front).1
        rw [cut]
        rfl

/-- A piece of a text is part of it. -/
theorem sublist_of_mem_splitOn {mark : Char} {text piece : List Char}
    (member : piece ∈ splitOn mark text) : piece.Sublist text := by
  induction text generalizing piece with
  | nil =>
      rw [splitOn, List.mem_singleton] at member
      exact member ▸ List.Sublist.refl _
  | cons c rest ih =>
      rw [splitOn] at member
      split at member
      next =>
        rcases List.mem_cons.1 member with rfl | later
        · exact List.nil_sublist _
        · exact (ih later).cons c
      next =>
        split at member
        next => exact List.mem_singleton.1 member ▸ (List.nil_sublist rest).cons_cons c
        next first more cut =>
          rw [cut] at ih
          rcases List.mem_cons.1 member with rfl | later
          · exact (ih List.mem_cons_self).cons_cons c
          · exact (ih (List.mem_cons_of_mem _ later)).cons c

end Text

namespace Url

/-! ## Pieces -/

section Pieces

variable {kind : SchemeKind} {text : List Char}

theorem pieces_ne_nil (kind : SchemeKind) (text : List Char) : pieces kind text ≠ [] :=
  (Version.intercalate_splitOn '/' _).1

theorem pieces_append (kind : SchemeKind) (front rest : List Char) :
    pieces kind (front ++ '/' :: rest) = pieces kind front ++ pieces kind rest := by
  rw [pieces, List.map_append, List.map_cons, if_pos (by rfl), Text.splitOn_append_mark]
  rfl

/-- What divides segments is a slash when the text is cut. -/
theorem map_divides_of_undivided (undivided : ∀ c ∈ text, kind.divides c = false) :
    text.map (fun c => if kind.divides c then '/' else c) = text := by
  rw [List.map_congr_left (g := id) fun c member => by rw [undivided c member]; rfl, List.map_id]

theorem pieces_of_undivided (undivided : ∀ c ∈ text, kind.divides c = false) :
    pieces kind text = [text] := by
  have slash : '/' ∉ text := fun member => by
    have := undivided '/' member
    cases kind <;> cases this
  rw [pieces, map_divides_of_undivided undivided, Path.splitOn_of_not_mem slash]

theorem sublist_of_mem_pieces {piece : List Char} (member : piece ∈ pieces kind text) :
    piece.Sublist text := by
  obtain ⟨part, sublist, rfl⟩ := List.sublist_map_iff.1 (Text.sublist_of_mem_splitOn member)
  have undivided : ∀ c ∈ part, kind.divides c = false := by
    intro c among
    have slash := Path.not_mem_of_mem_splitOn member
    by_contra divides
    exact slash (List.mem_map.2 ⟨c, among, if_pos (by simpa using divides)⟩)
  rwa [map_divides_of_undivided undivided]

/-- A text that is one of its pieces is not divided. -/
theorem undivided_of_mem_pieces (member : text ∈ pieces kind text) :
    ∀ c ∈ text, kind.divides c = false := by
  have sublist := Text.sublist_of_mem_splitOn member
  have same := sublist.eq_of_length (by rw [List.length_map])
  intro c among
  by_contra divides
  refine Path.not_mem_of_mem_splitOn member ?_
  rw [same]
  exact List.mem_map.2 ⟨c, among, if_pos (by simpa using divides)⟩

end Pieces

/-! ## Resolving -/

/-- What a segment that is not the last makes of those that are done. -/
def step (kind : SchemeKind) (done : List String) (segment : List Char) : List String :=
  if isDoubleDot segment then shorten kind done
  else if isDot segment then done
  else done ++ [segmentText kind done segment]

theorem resolve_concat (kind : SchemeKind) (done : List String) (front : List (List Char))
    (last : List Char) :
    resolve kind done (front ++ [last]) =
      if isDoubleDot last then shorten kind (front.foldl (step kind) done) ++ [""]
      else if isDot last then front.foldl (step kind) done ++ [""]
      else front.foldl (step kind) done ++
        [segmentText kind (front.foldl (step kind) done) last] := by
  induction front generalizing done with
  | nil => simp [resolve]
  | cons segment front ih =>
      have more : (front ++ [last]).isEmpty = false := by
        cases front <;> rfl
      rw [List.cons_append, resolve, List.foldl_cons, ← ih, step, more]
      simp only [Bool.false_eq_true, if_false, List.append_nil]
      split
      · rfl
      · split
        · rfl
        · rfl

/-! ## Drives -/

theorem isDrive_eq_true_iff {segment : List Char} :
    isDrive segment = true ↔
      ∃ letter mark, segment = [letter, mark] ∧ letter.isAlpha = true ∧
        (mark = ':' ∨ mark = '|') := by
  constructor
  · intro drive
    rw [isDrive.eq_def] at drive
    split at drive
    next letter mark =>
      rw [Bool.and_eq_true, Bool.or_eq_true, decide_eq_true_eq, decide_eq_true_eq] at drive
      exact ⟨letter, mark, rfl, drive⟩
    next => cases drive
  · rintro ⟨letter, mark, rfl, alpha, rfl | rfl⟩
    · simp [isDrive, alpha]
    · simp [isDrive, alpha]

/-- A drive needs no escapes. -/
theorem escape_of_isDrive {segment : List Char} (drive : isDrive segment = true) :
    escape reservedInSegment segment = segment := by
  obtain ⟨letter, mark, rfl, alpha, either⟩ := isDrive_eq_true_iff.1 drive
  refine escape_eq_self fun c member => ?_
  simp only [List.mem_cons, List.not_mem_nil, or_false] at member
  rcases member with rfl | rfl
  · exact reservedInSegment_of_isAlphanum (by rw [Char.isAlphanum, alpha, Bool.true_or])
  · rcases either with rfl | rfl <;> decide

/-- However a segment is written, it is as long as its escaped form. -/
theorem length_segmentText (kind : SchemeKind) (done : List String) (segment : List Char) :
    (segmentText kind done segment).toList.length =
      (escape reservedInSegment segment).length := by
  rw [segmentText]
  split
  next drive =>
    rw [escape_of_isDrive drive.2.2]
    obtain ⟨letter, mark, rfl, _⟩ := isDrive_eq_true_iff.1 drive.2.2
    simp
  next => rw [String.toList_ofList]

/-! ## What is added -/

/-- What is left of the segments that were done, and what is added from others. -/
theorem exists_added (kind : SchemeKind) (done : List String) (segments : List (List Char)) :
    ∃ kept added, segments.foldl (step kind) done = done.take kept ++ added ∧
      ∀ name ∈ added, ∃ segment ∈ segments, isDoubleDot segment = false ∧ isDot segment = false ∧
        name.toList.length = (escape reservedInSegment segment).length := by
  induction segments using List.reverseRecOn with
  | nil => exact ⟨done.length, [], by simp, nofun⟩
  | append_singleton segments segment ih =>
      obtain ⟨kept, added, walked, sources⟩ := ih
      have earlier : ∀ name ∈ added, ∃ source ∈ segments ++ [segment],
          isDoubleDot source = false ∧ isDot source = false ∧
            name.toList.length = (escape reservedInSegment source).length := by
        intro name member
        obtain ⟨source, among, rest⟩ := sources name member
        exact ⟨source, List.mem_append_left _ among, rest⟩
      rw [List.foldl_append, walked, List.foldl_cons, List.foldl_nil, step]
      split
      next =>
        rw [shorten]
        split
        next => exact ⟨kept, added, rfl, earlier⟩
        next =>
          by_cases none : added = []
          · rw [none, List.append_nil, List.dropLast_eq_take, List.take_take]
            exact ⟨_, [], (List.append_nil _).symm, nofun⟩
          · rw [List.dropLast_append_of_ne_nil none]
            exact ⟨kept, _, rfl, fun name member => earlier name (List.dropLast_subset _ member)⟩
      next notDouble =>
        split
        next => exact ⟨kept, added, rfl, earlier⟩
        next notDot =>
          rw [List.append_assoc]
          refine ⟨kept, _, rfl, fun name member => ?_⟩
          rcases List.mem_append.1 member with before | last
          · exact earlier name before
          · rw [List.mem_singleton.1 last]
            exact ⟨segment, List.mem_append_right _ List.mem_cons_self,
              Bool.eq_false_iff.2 notDouble, Bool.eq_false_iff.2 notDot,
              length_segmentText _ _ segment⟩

/-! ## Empty segments at the start -/

theorem dropLeadingEmpty_suffix (names : List String) : dropLeadingEmpty names <:+ names := by
  fun_induction dropLeadingEmpty names with
  | case1 next rest ih => exact ih.trans (List.suffix_cons _ _)
  | case2 names => exact List.suffix_rfl

theorem dropLeadingEmpty_of_head {names : List String} (head : names.head? ≠ some "") :
    dropLeadingEmpty names = names := by
  rw [dropLeadingEmpty.eq_def]
  split
  next => exact absurd rfl head
  next => rfl

/-- An empty segment at the end stays. -/
theorem dropLeadingEmpty_concat (names : List String) :
    ∃ front, dropLeadingEmpty (names ++ [""]) = front ++ [""] ∧ front.head? ≠ some "" := by
  induction names with
  | nil => exact ⟨[], rfl, nofun⟩
  | cons name names ih =>
      by_cases empty : name = ""
      · subst empty
        obtain ⟨next, rest, more⟩ := List.exists_cons_of_ne_nil
          (List.append_ne_nil_of_right_ne_nil names (List.cons_ne_nil "" []))
        rw [List.cons_append, more, dropLeadingEmpty, ← more]
        exact ih
      · have head : (name :: names).head? ≠ some "" := by simpa using empty
        refine ⟨name :: names, dropLeadingEmpty_of_head ?_, head⟩
        simpa using empty

/-! ## Segments of a text -/

section SegmentsAfter

variable {kind : SchemeKind} {done : List String}

/-- The segments, where there is no empty one at the start of a file's. -/
theorem segmentsAfter_of_head {text : List Char} {names : List String}
    (resolved : resolve kind done (pieces kind text) = names)
    (head : kind = .file → names.head? ≠ some "") :
    segmentsAfter kind done text = .segments names := by
  rw [segmentsAfter, resolved]
  split
  next isFile => rw [dropLeadingEmpty_of_head (head isFile)]
  next => rfl

/-- Nothing follows the last slash of the text. -/
def EndsInSlash (text : List Char) : Prop :=
  ∀ c ∈ text.getLast?, c = '/'

theorem EndsInSlash.nil : EndsInSlash [] := by
  rintro c ⟨⟩

theorem EndsInSlash.of_suffix {text rest : List Char} (ends : EndsInSlash text)
    (suffix : rest <:+ text) : EndsInSlash rest := by
  intro c last
  obtain ⟨front, rfl⟩ := suffix
  refine ends c ?_
  rw [List.getLast?_append_of_ne_nil _ (by rintro rfl; cases last)]
  exact last

/-- **A text that ends in a slash** leaves an empty segment at the end. -/
theorem segmentsAfter_directory {text : List Char} (ends : EndsInSlash text) :
    ∃ front, segmentsAfter kind done text = .segments (front ++ [""]) ∧
      (kind = .file → front.head? ≠ some "") := by
  obtain ⟨init, cut⟩ : ∃ init, pieces kind text = init ++ [[]] := by
    rcases List.eq_nil_or_concat text with rfl | ⟨front, c, rfl⟩
    · exact ⟨[], rfl⟩
    · have slash : c = '/' := ends c (by rw [List.concat_eq_append, List.getLast?_concat]; rfl)
      rw [slash, List.concat_eq_append, pieces_append]
      exact ⟨pieces kind front, rfl⟩
  have empty : ∀ walked, segmentText kind walked [] = "" := fun walked => by simp [segmentText,
    isDrive, escape]
  obtain ⟨walked, resolved⟩ : ∃ walked, resolve kind done (init ++ [[]]) = walked ++ [""] := by
    rw [resolve_concat, empty]
    exact ⟨_, rfl⟩
  rw [segmentsAfter, cut, resolved]
  split
  next =>
    obtain ⟨front, dropped, head⟩ := dropLeadingEmpty_concat walked
    exact ⟨front, by rw [dropped], fun _ => head⟩
  next other => exact ⟨walked, rfl, fun isFile => absurd isFile other⟩

/-- Two pieces that are not resolved away are added after one another. -/
theorem resolve_pair {text last : List Char} (undivided : ∀ c ∈ text, kind.divides c = false)
    (undivided_last : ∀ c ∈ last, kind.divides c = false) (solid : isDoubleDot text = false)
    (solid' : isDot text = false) (solid_last : isDoubleDot last = false)
    (solid_last' : isDot last = false) :
    resolve kind done (pieces kind (text ++ '/' :: last)) =
      done ++ [segmentText kind done text, String.ofList (escape reservedInSegment last)] := by
  have second : segmentText kind (done ++ [segmentText kind done text]) last =
      String.ofList (escape reservedInSegment last) := by
    rw [segmentText, if_neg]
    simp
  rw [pieces_append, pieces_of_undivided undivided, pieces_of_undivided undivided_last,
    resolve_concat, solid_last, solid_last', List.foldl_cons, List.foldl_nil, step, solid, solid']
  simp [second]

theorem segmentText_of_not_drive {text : List Char} (noDrive : kind = .file → isDrive text = false) :
    segmentText kind done text = String.ofList (escape reservedInSegment text) := by
  rw [segmentText, if_neg]
  rintro ⟨isFile, _, drive⟩
  rw [noDrive isFile] at drive
  cases drive

/-- If as many segments are left as were done, then the last but one was made from a piece before the
last one. -/
theorem exists_piece_of_segmentsAfter {front : List String} {rest : List Char}
    {name lastName : String} (short : done.length ≤ front.length) (named : lastName ≠ "")
    (route : segmentsAfter kind done rest = .segments (front ++ [name, lastName])) :
    ∃ init final, pieces kind rest = init ++ [final] ∧ ∃ segment ∈ init,
      isDoubleDot segment = false ∧ isDot segment = false ∧
        name.toList.length = (escape reservedInSegment segment).length := by
  obtain ⟨dropped, resolved⟩ : ∃ dropped,
      resolve kind done (pieces kind rest) = dropped ++ front ++ [name] ++ [lastName] := by
    rw [segmentsAfter, Route.segments.injEq] at route
    have ends : front ++ [name, lastName] <:+ resolve kind done (pieces kind rest) := by
      rw [← route]
      split
      · exact dropLeadingEmpty_suffix _
      · exact List.suffix_rfl
    obtain ⟨dropped, whole⟩ := ends
    exact ⟨dropped, by rw [← whole]; simp⟩
  obtain ⟨init, final, cut⟩ : ∃ init final, pieces kind rest = init ++ [final] := by
    rcases List.eq_nil_or_concat (pieces kind rest) with none | ⟨init, final, cut⟩
    · exact absurd none (pieces_ne_nil kind rest)
    · exact ⟨init, final, by rw [cut, List.concat_eq_append]⟩
  have walked : init.foldl (step kind) done = dropped ++ front ++ [name] := by
    rw [cut, resolve_concat] at resolved
    split at resolved
    next => exact absurd (List.append_inj_right' resolved rfl) (by simpa using named.symm)
    next =>
      split at resolved
      next => exact absurd (List.append_inj_right' resolved rfl) (by simpa using named.symm)
      next => exact List.append_inj_left' resolved rfl
  obtain ⟨kept, added, equal, sources⟩ := exists_added kind done init
  refine ⟨init, final, cut, sources name ?_⟩
  rw [walked] at equal
  rcases List.eq_nil_or_concat added with rfl | ⟨before, other, rfl⟩
  · have := congrArg List.length equal
    simp only [List.length_append, List.length_cons, List.length_nil, List.length_take] at this
    omega
  · rw [List.concat_eq_append, ← List.append_assoc] at equal
    have same := List.append_inj_right' equal rfl
    simp only [List.cons.injEq, and_true] at same
    rw [same, List.concat_eq_append]
    exact List.mem_append_right _ List.mem_cons_self

/-- If one of the pieces before the last is as long as a text when it is escaped, and the pieces come
from the end of that text or of part of it, then the piece is the text and nothing is before it. -/
theorem whole_of_mem_pieces {text part rest last segment : List Char} {init : List (List Char)}
    {final : List Char} (undivided : ∀ c ∈ last, kind.divides c = false)
    (sublist : part.Sublist text) (suffix : rest <:+ part ++ '/' :: last)
    (cut : pieces kind rest = init ++ [final]) (member : segment ∈ init)
    (long : (escape reservedInSegment segment).length = (escape reservedInSegment text).length) :
    rest = text ++ '/' :: last ∧ segment = text ∧ ∀ c ∈ text, kind.divides c = false := by
  obtain ⟨early, split⟩ := suffix
  rcases List.append_eq_append_iff.1 split with ⟨within, rfl, rfl⟩ | ⟨within, rfl, tail⟩
  · rw [pieces_append, pieces_of_undivided undivided] at cut
    have early_sublist := ((List.suffix_append early within).sublist).trans sublist
    rw [← List.append_inj_left' cut rfl] at member
    have here := sublist_of_mem_pieces member
    obtain rfl := eq_of_length_escape (here.trans early_sublist) long
    obtain rfl := here.antisymm early_sublist
    exact ⟨rfl, rfl, undivided_of_mem_pieces member⟩
  · cases within with
    | nil =>
        rw [List.nil_append] at tail
        subst tail
        have first := pieces_append kind [] last
        rw [List.nil_append, pieces_of_undivided undivided] at first
        rw [first] at cut
        rw [← List.append_inj_left' cut rfl] at member
        have empty : segment = [] := (List.sublist_nil).1 (sublist_of_mem_pieces member)
        subst empty
        obtain rfl := eq_of_length_escape (List.nil_sublist text) long
        exact ⟨rfl, rfl, by simp⟩
    | cons c within =>
        rw [List.cons_append, List.cons.injEq] at tail
        obtain ⟨_, rfl⟩ := tail
        have alone : pieces kind rest = [rest] :=
          pieces_of_undivided fun c member => undivided c (List.mem_append_right _ member)
        rw [alone] at cut
        have none := List.append_inj_left' (cut.symm.trans (List.nil_append [rest]).symm) rfl
        rw [none] at member
        cases member

/-- **Where a segment comes from.**  If the last segment but one is as long as an escaped text, and
what was read comes from the end of that text or of part of it, then the whole text was read, and it
is a plain piece. -/
theorem whole_of_segmentsAfter {front : List String} {text part rest last : List Char}
    {name lastName : String} (short : done.length ≤ front.length) (named : lastName ≠ "")
    (undivided : ∀ c ∈ last, kind.divides c = false)
    (sublist : part.Sublist text) (suffix : rest <:+ part ++ '/' :: last)
    (long : name.toList.length = (escape reservedInSegment text).length)
    (route : segmentsAfter kind done rest = .segments (front ++ [name, lastName])) :
    rest = text ++ '/' :: last ∧ (∀ c ∈ text, kind.divides c = false) ∧
      isDoubleDot text = false ∧ isDot text = false := by
  obtain ⟨init, final, cut, segment, member, solid, solid', length⟩ :=
    exists_piece_of_segmentsAfter short named route
  obtain ⟨whole, rfl, undivided⟩ :=
    whole_of_mem_pieces undivided sublist suffix cut member (length.symm.trans long)
  exact ⟨whole, undivided, solid, solid'⟩

end SegmentsAfter

end Url

end Uplift
