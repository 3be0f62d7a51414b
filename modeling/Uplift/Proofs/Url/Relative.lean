import Uplift.Proofs.Url.Directory

/-!
# Addresses relative to a directory

A plain piece with another after it is read beside a directory by adding both to the segments of the
directory (`join_of_isPlain`).  The scheme, the host and all that belongs to it stay, and there is no
query and no fragment.

Only plain pieces are read so (`isPlain_of_join`).  Whatever a text is read as, the segments are read
from the end of the text after no more segments than the directory has, or are too few
(`ReadFrom`).  Where a scheme or a slash at the start was taken for something else, what is left is
too short to hold the whole piece (`ReadFrom.length_le`).
-/

set_option autoImplicit false

namespace Uplift.Url

/-! ## Where segments are read from -/

/-- The segments of a route are those that were read from the end of a text, after no more than a
number of others; or there are too few of them to have been added to so many. -/
inductive ReadFrom (bound : Nat) (text : List Char) (route : Route) : Prop where
  | after {kind : SchemeKind} {done : List String} {rest : List Char} (short : done.length ≤ bound)
      (suffix : rest <:+ text) (read : route = segmentsAfter kind done rest) :
      ReadFrom bound text route
  | few (few : ∀ names, route = .segments names → names.length ≤ bound + 1) :
      ReadFrom bound text route

theorem divides_of_not_isSlash {kind : SchemeKind} {c : Char} (unslashed : isSlash c = false) :
    kind.divides c = false := by
  rw [isSlash, Bool.or_eq_false_iff] at unslashed
  simp [SchemeKind.divides, unslashed.1, unslashed.2]

section ReadFrom

variable {bound : Nat} {text rest : List Char} {route : Route} {scheme : String} {base url : Url}

theorem ReadFrom.of_suffix (from_ : ReadFrom bound rest route) (suffix : rest <:+ text) :
    ReadFrom bound text route := by
  cases from_ with
  | after short inner read => exact .after short (inner.trans suffix) read
  | few few => exact .few few

theorem ReadFrom.segmentsAfter {kind : SchemeKind} {done : List String}
    (short : done.length ≤ bound) : ReadFrom bound text (segmentsAfter kind done text) :=
  .after short List.suffix_rfl rfl

theorem readFrom_segmentsAfterHost (bound : Nat) (kind : SchemeKind) (text : List Char) :
    ReadFrom bound text (segmentsAfterHost kind text) := by
  rw [segmentsAfterHost.eq_def]
  split
  next =>
    split
    next =>
      refine .few fun names route => ?_
      cases route
      exact Nat.zero_le _
    next => exact .segmentsAfter (Nat.zero_le _)
  next c rest =>
    split
    next => exact (ReadFrom.segmentsAfter (Nat.zero_le _)).of_suffix (List.suffix_cons c rest)
    next => exact .segmentsAfter (Nat.zero_le _)

theorem readFrom_afterSlashes (read : afterSlashes scheme text = .ok url) :
    ReadFrom bound text url.route := by
  obtain ⟨_, rest, suffix, route⟩ := afterSlashes_eq_ok read
  rw [route]
  exact (readFrom_segmentsAfterHost bound _ rest).of_suffix suffix

theorem readFrom_fileOnHost (host : Host) : ReadFrom bound text (fileOnHost host text).route := by
  rw [fileOnHost]
  split
  · exact readFrom_segmentsAfterHost bound .file text
  · exact readFrom_segmentsAfterHost bound .file text

theorem readFrom_fileFromRoot (short : base.drive.length ≤ bound) :
    ReadFrom bound text (fileFromRoot base text).route := by
  rw [fileFromRoot]
  split
  · exact .segmentsAfter (Nat.zero_le _)
  · split
    · exact .segmentsAfter (Nat.zero_le _)
    · exact .segmentsAfter short

theorem readFrom_fileBeside (short : base.segments.dropLast.length ≤ bound) :
    ReadFrom bound text (fileBeside base text).route := by
  rw [fileBeside]
  split
  · exact .segmentsAfter (Nat.zero_le _)
  · exact .segmentsAfter short

/-- The segments of a base alone are too few. -/
theorem readFrom_base (short : base.segments.dropLast.length ≤ bound) :
    ReadFrom bound text base.route := by
  refine .few fun names route => ?_
  have same : base.segments = names := by rw [segments, route]
  rw [same, List.length_dropLast] at short
  omega

/-! ## Files -/

section Files

variable {base : Option Url} {c : Char}

/-- The slash at the start of a file is not one of its segments. -/
theorem readFrom_readFile_of_slash (slash : isSlash c = true)
    (drive_short : (base.getD plainFile).drive.length ≤ bound)
    (read : readFile base (c :: rest) = .ok url) : ReadFrom bound rest url.route := by
  cases rest with
  | nil =>
      rw [readFile.eq_def] at read
      simp only [slash, if_true] at read
      cases read
      exact readFrom_fileFromRoot drive_short
  | cons d rest =>
      rw [readFile.eq_def] at read
      simp only [slash, true_and, if_true] at read
      split at read
      next =>
        refine ReadFrom.of_suffix ?_ (List.suffix_cons d rest)
        split at read
        next =>
          cases read
          exact readFrom_fileOnHost _
        next =>
          split at read
          all_goals
            obtain ⟨host, _, read⟩ := Results.bind_eq_ok_iff.1 read
            cases read
            exact (readFrom_fileOnHost _).of_suffix (List.dropWhile_suffix _)
      next =>
        cases read
        exact readFrom_fileFromRoot drive_short

theorem readFile_of_not_slash (base : Option Url) (unslashed : isSlash c = false)
    (rest : List Char) :
    readFile base (c :: rest) = .ok (fileBeside (base.getD plainFile) (c :: rest)) := by
  rw [readFile.eq_def]
  cases rest <;> simp [unslashed]

theorem readFrom_readFile (short : ((base.getD plainFile).segments.dropLast).length ≤ bound)
    (drive_short : (base.getD plainFile).drive.length ≤ bound)
    (read : readFile base text = .ok url) : ReadFrom bound text url.route := by
  cases text with
  | nil =>
      rw [readFile.eq_def] at read
      cases read
      split
      · exact .segmentsAfter (Nat.zero_le _)
      · exact readFrom_base short
  | cons c rest =>
      cases slash : isSlash c with
      | true =>
          exact (readFrom_readFile_of_slash slash drive_short read).of_suffix
            (List.suffix_cons c rest)
      | false =>
          rw [readFile_of_not_slash base slash rest] at read
          cases read
          exact readFrom_fileBeside short

end Files

/-! ## Other addresses -/

section Relative

variable {c : Char}

/-- The slash at the start of a text is not one of its segments. -/
theorem readFrom_readRelative_of_slash (slash : isSlash c = true)
    (read : readRelative base (c :: rest) = .ok url) : ReadFrom bound rest url.route := by
  rw [readRelative.eq_def] at read
  simp only [slash, if_true] at read
  split at read
  next d after =>
    split at read
    next =>
      split at read
      next => exact (readFrom_afterSlashes read).of_suffix (List.suffix_cons d after)
      next =>
        rw [List.dropWhile_cons_of_pos slash] at read
        exact (readFrom_afterSlashes read).of_suffix (List.dropWhile_suffix _)
    next =>
      cases read
      exact .segmentsAfter (Nat.zero_le _)
  next =>
    cases read
    exact .segmentsAfter (Nat.zero_le _)

theorem readRelative_of_not_slash (base : Url) (unslashed : isSlash c = false)
    (rest : List Char) :
    readRelative base (c :: rest) =
      .ok (base.withRoute (Url.segmentsAfter (SchemeKind.of base.scheme) base.segments.dropLast
        (c :: rest))) := by
  rw [readRelative.eq_def]
  simp [unslashed]

theorem readFrom_readRelative (short : base.segments.dropLast.length ≤ bound)
    (read : readRelative base text = .ok url) : ReadFrom bound text url.route := by
  cases text with
  | nil =>
      cases read
      exact readFrom_base short
  | cons c rest =>
      cases slash : isSlash c with
      | true =>
          exact (readFrom_readRelative_of_slash slash read).of_suffix (List.suffix_cons c rest)
      | false =>
          rw [readRelative_of_not_slash base slash rest] at read
          cases read
          exact .segmentsAfter short

end Relative

theorem readFrom_readOther (read : readOther scheme text = .ok url) :
    ReadFrom bound text url.route := by
  rw [readOther.eq_def] at read
  split at read
  next rest => exact (readFrom_afterSlashes read).of_suffix ⟨['/', '/'], rfl⟩
  next rest _ =>
    cases read
    exact (ReadFrom.segmentsAfter (Nat.zero_le _)).of_suffix (List.suffix_cons '/' rest)
  next =>
    cases read
    exact .few fun names undivided => by cases undivided

/-- A drive at the start of a directory is one of the segments beside which others are read. -/
theorem length_drive_le (directory : IsDirectory base) :
    base.drive.length ≤ base.segments.dropLast.length := by
  rw [drive]
  rcases directory with route | ⟨front, route, _⟩
  · rw [segments, route]
    rfl
  · rw [segments, route, List.dropLast_concat]
    cases front with
    | nil => exact Nat.le_refl _
    | cons name front =>
        refine (List.length_filter_le _ _).trans ?_
        rw [List.cons_append, List.take_succ_cons, List.take_zero]
        exact Nat.succ_le_succ (Nat.zero_le _)

/-- What follows a scheme is all that segments are read from. -/
theorem readFrom_readAfterScheme (directory : IsDirectory base)
    (read : readAfterScheme (some base) scheme text = .ok url) :
    ReadFrom base.segments.dropLast.length text url.route := by
  unfold readAfterScheme at read
  simp only at read
  split at read
  next =>
    refine readFrom_readFile ?_ ?_ read
    · by_cases same : base.scheme = scheme
      · rw [Option.filter_some_pos (by simpa using same)]
        exact Nat.le_refl _
      · rw [Option.filter_some_neg (by simpa using same)]
        exact Nat.zero_le _
    · by_cases same : base.scheme = scheme
      · rw [Option.filter_some_pos (by simpa using same)]
        exact length_drive_le directory
      · rw [Option.filter_some_neg (by simpa using same)]
        exact Nat.zero_le _
  next => exact readFrom_readOther read
  next =>
    split at read
    next given found =>
      obtain rfl : base = given := by
        rw [Option.filter_eq_some_iff] at found
        exact Option.some.inj found.1
      split at read
      next => exact readFrom_readRelative (Nat.le_refl _) read
      next => exact (readFrom_afterSlashes read).of_suffix (List.dropWhile_suffix _)
    next => exact (readFrom_afterSlashes read).of_suffix (List.dropWhile_suffix _)

/-- The slash at the start of a text without a scheme is not one of its segments. -/
theorem readFrom_readWithoutScheme_of_slash {c : Char} {query fragment : Option (List Char)}
    (directory : IsDirectory base) (slash : isSlash c = true)
    (read : readWithoutScheme base ⟨c :: rest, query, fragment⟩ = .ok url) :
    ReadFrom base.segments.dropLast.length rest url.route := by
  rw [readWithoutScheme.eq_def] at read
  split at read
  next => cases read
  next =>
    split at read
    next =>
      refine readFrom_readFile_of_slash slash ?_ read
      exact length_drive_le directory
    next => exact readFrom_readRelative_of_slash slash read

/-- A text that starts with neither a scheme nor a slash is read beside the last segment. -/
theorem readWithoutScheme_of_not_slash {c : Char} {query fragment : Option (List Char)}
    (directory : IsDirectory base) (unslashed : isSlash c = false) (rest : List Char) :
    readWithoutScheme base ⟨c :: rest, query, fragment⟩ =
      .ok (if SchemeKind.of base.scheme = .file then fileBeside base (c :: rest)
        else base.withRoute (segmentsAfter (SchemeKind.of base.scheme) base.segments.dropLast
          (c :: rest))) := by
  obtain ⟨names, route⟩ : ∃ names, base.route = .segments names := by
    rcases directory with route | ⟨front, route, _⟩
    · exact ⟨_, route⟩
    · exact ⟨_, route⟩
  rw [readWithoutScheme, route]
  simp only
  split
  next => exact readFile_of_not_slash (some base) unslashed rest
  next => exact readRelative_of_not_slash base unslashed rest

/-- What a text is read after if it starts with neither a scheme nor a slash: nothing if it starts
with a drive. -/
theorem exists_read_of_not_slash {c : Char} {query fragment : Option (List Char)}
    (directory : IsDirectory base) (unslashed : isSlash c = false)
    (read : readWithoutScheme base ⟨c :: rest, query, fragment⟩ = .ok url) :
    ∃ done, done.length ≤ base.segments.dropLast.length ∧
      url.route = segmentsAfter (SchemeKind.of base.scheme) done (c :: rest) ∧
      (SchemeKind.of base.scheme = .file → startsWithDrive (c :: rest) = true → done = []) := by
  rw [readWithoutScheme_of_not_slash directory unslashed] at read
  cases read
  split
  next isFile =>
    rw [fileBeside, isFile]
    split
    next => exact ⟨[], Nat.zero_le _, rfl, fun _ _ => rfl⟩
    next noDrive => exact ⟨_, Nat.le_refl _, rfl, fun _ drive => absurd drive noDrive⟩
  next other => exact ⟨_, Nat.le_refl _, rfl, fun isFile => absurd isFile other⟩

/-- **A text is read as a whole or not at all.**  If the last segment but one of what was read is as
long as an escaped text, then no part of the text was read as something else. -/
theorem ReadFrom.length_le {front : List String} {text part rest last : List Char} {route : Route}
    {name lastName : String} (from_ : ReadFrom front.length rest route) (named : lastName ≠ "")
    (unslashed : ∀ c ∈ last, isSlash c = false) (sublist : part.Sublist text)
    (suffix : rest <:+ part ++ '/' :: last)
    (long : name.toList.length = (escape reservedInSegment text).length)
    (equal : route = .segments (front ++ [name, lastName])) :
    (part ++ '/' :: last).length ≤ rest.length := by
  cases from_ with
  | few few =>
      have := few _ equal
      simp at this
  | @after kind done inner short within read =>
      have undivided : ∀ c ∈ last, kind.divides c = false :=
        fun c member => divides_of_not_isSlash (unslashed c member)
      obtain ⟨rfl, _⟩ := whole_of_segmentsAfter short named undivided sublist
        (within.trans suffix) long (read.symm.trans equal)
      calc (part ++ '/' :: last).length
          ≤ (text ++ '/' :: last).length := (sublist.append_right _).length_le
        _ ≤ rest.length := within.length_le

end ReadFrom

/-! ## Plain pieces -/

/-- A piece that is read as a segment of its own if another follows it. -/
structure IsPlain (kind : SchemeKind) (piece : List Char) : Prop where
  starts : ∃ c, piece.head? = some c ∧ isOuter c = false ∧ isSlash c = false
  unmarked : ∀ c ∈ piece,
    isLineMark c = false ∧ kind.divides c = false ∧ c ≠ '#' ∧ c ≠ '?'
  solid : isDoubleDot piece = false ∧ isDot piece = false
  noScheme : readScheme? piece = none
  noDrive : kind = .file → isDrive piece = false

/-- A piece that ends an address as it is written. -/
structure IsEnding (last : List Char) : Prop where
  named : last ≠ []
  unmarked : ∀ c ∈ last, isOuter c = false ∧ isSlash c = false ∧ c ≠ '#' ∧ c ≠ '?'
  solid : isDoubleDot last = false ∧ isDot last = false

/-- The segments of a piece and an ending after those of an address without its last one. -/
def routeBeside (base : Url) (piece last : List Char) : Route :=
  .segments (base.segments.dropLast ++
    [String.ofList (escape reservedInSegment piece), String.ofList (escape reservedInSegment last)])

/-- A slash ends what can be a scheme. -/
theorem readScheme?_append_slash (piece rest : List Char) :
    readScheme? (piece ++ '/' :: rest) = none ↔ readScheme? piece = none := by
  rw [readScheme?, readScheme?]
  generalize hallowed : (fun c : Char => c.isAlphanum || ['+', '-', '.'].contains c) = allowed
  have slash : ¬ allowed '/' = true := by
    rw [← hallowed]
    decide
  cases left : piece.dropWhile allowed with
  | nil =>
      have start : (piece ++ '/' :: rest).dropWhile allowed = '/' :: rest := by
        rw [List.dropWhile_append, left, List.dropWhile_cons_of_neg slash]
        rfl
      rw [start]
      simp
  | cons c more =>
      have start : (piece ++ '/' :: rest).dropWhile allowed = c :: (more ++ '/' :: rest) := by
        rw [List.dropWhile_append, left]
        rfl
      have taken : (piece ++ '/' :: rest).takeWhile allowed = piece.takeWhile allowed := by
        have whole : (piece.takeWhile allowed ++ piece.dropWhile allowed).length = piece.length :=
          congrArg List.length List.takeWhile_append_dropWhile
        rw [left, List.length_append, List.length_cons] at whole
        rw [List.takeWhile_append, if_neg (by omega)]
      rw [start, taken]
      by_cases colon : c = ':'
      · subst colon
        cases piece.takeWhile allowed with
        | nil => simp
        | cons d front => simp
      · simp [colon]

section Join

variable {base url : Url} {piece last : List Char} {kind : SchemeKind}

theorem IsPlain.ne_nil (plain : IsPlain kind piece) : piece ≠ [] := by
  rintro rfl
  obtain ⟨c, head, _⟩ := plain.starts
  cases head

theorem IsPlain.noMark (plain : IsPlain kind piece) (ending : IsEnding last) :
    '#' ∉ piece ++ '/' :: last ∧ '?' ∉ piece ++ '/' :: last := by
  constructor
  all_goals
    intro member
    rcases List.mem_append.1 member with inside | _ | ⟨_, inside⟩
    · have := plain.unmarked _ inside
      simp at this
    · have := ending.unmarked _ inside
      simp at this

/-- The first segment of a text is what stands before its first slash. -/
theorem startsWithDrive_append (undivided : ∀ c ∈ piece, SchemeKind.file.divides c = false)
    (last : List Char) : startsWithDrive (piece ++ '/' :: last) = isDrive piece := by
  have unslashed : ∀ c ∈ piece, (!isSlash c) = true := fun c member => by
    simpa [SchemeKind.divides, isSlash] using undivided c member
  rw [startsWithDrive, List.takeWhile_append_of_pos unslashed,
    List.takeWhile_cons_of_neg (by decide), List.append_nil]

/-- What a plain piece and an ending add beside a directory. -/
theorem segmentsAfter_of_isPlain (directory : IsDirectory base)
    (plain : IsPlain (SchemeKind.of base.scheme) piece) (ending : IsEnding last) :
    segmentsAfter (SchemeKind.of base.scheme) base.segments.dropLast (piece ++ '/' :: last) =
      routeBeside base piece last := by
  refine segmentsAfter_of_head ?_ fun isFile => ?_
  · rw [resolve_pair (fun c member => (plain.unmarked c member).2.1)
      (fun c member => divides_of_not_isSlash (ending.unmarked c member).2.1) plain.solid.1
      plain.solid.2 ending.solid.1 ending.solid.2, segmentText_of_not_drive plain.noDrive]
  · rcases directory with route | ⟨front, route, start⟩
    · have none : base.segments = [] := by rw [segments, route]
      rw [none]
      simpa using escape_ne_nil reservedInSegment plain.ne_nil
    · have before : base.segments.dropLast = front := by
        rw [segments, route, List.dropLast_concat]
      rw [before]
      cases front with
      | nil => simpa using escape_ne_nil reservedInSegment plain.ne_nil
      | cons name front => exact start isFile

/-- **A plain piece and an ending are read beside a directory** as two segments. -/
theorem join_of_isPlain (directory : IsDirectory base)
    (plain : IsPlain (SchemeKind.of base.scheme) piece) (ending : IsEnding last) :
    base.join (String.ofList (piece ++ '/' :: last)) =
      .ok (base.withRoute (routeBeside base piece last)) := by
  obtain ⟨c, head, visible, unslashed⟩ := plain.starts
  have tidy : tidied piece = piece := by
    refine tidied_eq_self_iff.2 ⟨?_, fun c member => (plain.unmarked c member).1⟩
    rw [head]
    rintro _ ⟨⟩
    exact visible
  obtain ⟨hash, question⟩ := plain.noMark ending
  unfold join read
  rw [String.toList_ofList, cleaned_append piece fun c member => (ending.unmarked c member).1, tidy,
    division_of_not_mem hash question]
  obtain ⟨more, rfl⟩ : ∃ more, piece = c :: more := by
    obtain ⟨d, more, rfl⟩ := List.exists_cons_of_ne_nil plain.ne_nil
    cases head
    exact ⟨more, rfl⟩
  have beside : readWithoutScheme base ⟨c :: more ++ '/' :: last, none, none⟩ =
      .ok (base.withRoute (segmentsAfter (SchemeKind.of base.scheme) base.segments.dropLast
        (c :: more ++ '/' :: last))) := by
    rw [List.cons_append, readWithoutScheme_of_not_slash directory unslashed, ← List.cons_append]
    split
    next isFile =>
      rw [isFile] at plain ⊢
      rw [fileBeside, startsWithDrive_append fun d member => (plain.unmarked d member).2.1,
        plain.noDrive rfl]
      rfl
    next => rfl
  simp only [(readScheme?_append_slash _ last).2 plain.noScheme]
  rw [if_neg (by simp), beside, segmentsAfter_of_isPlain directory plain ending]
  rfl

/-- A drive with a colon looks like a scheme, and one with a bar is not kept as it is written. -/
theorem isDrive_eq_false_of_segmentsAfter
    (undivided : ∀ c ∈ piece, SchemeKind.file.divides c = false) (ending : IsEnding last)
    (solid : isDoubleDot piece = false ∧ isDot piece = false) (noScheme : readScheme? piece = none)
    (read : segmentsAfter .file [] (piece ++ '/' :: last) = routeBeside base piece last) :
    isDrive piece = false := by
  by_contra drive
  rw [Bool.not_eq_false] at drive
  obtain ⟨letter, mark, rfl, alpha, _⟩ := isDrive_eq_true_iff.1 drive
  have written : segmentText .file [] [letter, mark] = String.ofList [letter, ':'] := by
    simp [segmentText, drive]
  have pair : resolve .file [] (pieces .file ([letter, mark] ++ '/' :: last)) =
      [] ++ [String.ofList [letter, ':'], String.ofList (escape reservedInSegment last)] := by
    rw [resolve_pair undivided
      (fun c member => divides_of_not_isSlash (ending.unmarked c member).2.1) solid.1 solid.2
      ending.solid.1 ending.solid.2, written]
  rw [segmentsAfter_of_head pair (by simp), routeBeside, escape_of_isDrive drive,
    Route.segments.injEq] at read
  have first := (List.cons.inj (List.append_inj_right' read rfl)).1
  have same : mark = ':' := by
    simpa using (String.ofList_injective first).symm
  rw [same] at noScheme
  simp [readScheme?, Char.isAlphanum, alpha] at noScheme

theorem IsEnding.text_ne (ending : IsEnding last) :
    String.ofList (escape reservedInSegment last) ≠ "" := by
  simpa using escape_ne_nil reservedInSegment ending.named

/-- What is read beside a directory from its first character on is a plain piece. -/
theorem isPlain_of_not_slash {c : Char} {rest : List Char} (directory : IsDirectory base)
    (ending : IsEnding last) (main : tidied piece ++ '/' :: last = c :: rest)
    (hash : '#' ∉ c :: rest) (question : '?' ∉ c :: rest)
    (noScheme : readScheme? (c :: rest) = none) (unslashed : isSlash c = false)
    (read : readWithoutScheme base ⟨c :: rest, none, none⟩ = .ok url)
    (route : url.route = routeBeside base piece last) :
    IsPlain (SchemeKind.of base.scheme) piece := by
  obtain ⟨done, short, beside, noDone⟩ := exists_read_of_not_slash directory unslashed read
  rw [route] at beside
  obtain ⟨same, undivided, solid⟩ := whole_of_segmentsAfter short ending.text_ne
    (fun c member => divides_of_not_isSlash (ending.unmarked c member).2.1)
    (tidied_sublist piece) (main ▸ List.suffix_rfl) (by rw [String.toList_ofList]) beside.symm
  rw [same] at main hash question noScheme beside noDone
  obtain ⟨head, marks⟩ := tidied_eq_self_iff.1 (List.append_cancel_right main)
  have noScheme := (readScheme?_append_slash piece last).1 noScheme
  obtain ⟨more, rfl⟩ : ∃ more, piece = c :: more := by
    cases piece with
    | nil =>
        cases same
        cases unslashed
    | cons d more =>
        cases same
        exact ⟨more, rfl⟩
  refine ⟨⟨c, rfl, head c rfl, unslashed⟩, fun d member => ⟨marks d member, undivided d member,
    ?noHash, ?noQuestion⟩, solid, noScheme, fun isFile => ?noDrive⟩
  case noHash =>
    rintro rfl
    exact hash (List.mem_append_left _ member)
  case noQuestion =>
    rintro rfl
    exact question (List.mem_append_left _ member)
  case noDrive =>
    rw [isFile] at undivided noDone beside
    rw [startsWithDrive_append undivided last] at noDone
    cases drive : isDrive (c :: more) with
    | false => rfl
    | true =>
        rw [noDone rfl drive] at beside
        exact drive.symm.trans
          (isDrive_eq_false_of_segmentsAfter undivided ending solid noScheme beside.symm)

/-- **Only a plain piece is read so.** -/
theorem isPlain_of_join (directory : IsDirectory base) (ending : IsEnding last)
    (joined : base.join (String.ofList (piece ++ '/' :: last)) = .ok url)
    (query : url.query = none) (fragment : url.fragment = none)
    (route : url.route = routeBeside base piece last) :
    IsPlain (SchemeKind.of base.scheme) piece := by
  have whole : ∀ {rest}, ReadFrom base.segments.dropLast.length rest url.route →
      rest <:+ tidied piece ++ '/' :: last → (tidied piece ++ '/' :: last).length ≤ rest.length :=
    fun from_ suffix =>
      from_.length_le ending.text_ne (fun c member => (ending.unmarked c member).2.1)
        (tidied_sublist piece) suffix (by rw [String.toList_ofList]) route
  unfold join read at joined
  rw [String.toList_ofList, cleaned_append piece fun c member => (ending.unmarked c member).1]
    at joined
  simp only at joined
  split at joined
  next _ scheme rest scheme_read =>
    obtain ⟨found, read, equal⟩ := Results.bind_eq_ok_iff.1 joined
    cases equal
    obtain ⟨_, _, undivided⟩ := undivided_of_withTail query fragment
    rw [undivided] at scheme_read
    obtain ⟨before, colon⟩ : ∃ before, tidied piece ++ '/' :: last = before ++ ':' :: rest :=
      eq_of_readScheme? scheme_read
    have from_ : ReadFrom base.segments.dropLast.length rest found.route :=
      readFrom_readAfterScheme directory read
    have long := whole from_ ⟨before ++ [':'], by rw [colon]; simp⟩
    rw [colon, List.length_append, List.length_cons] at long
    omega
  next none => cases none
  next _ given noScheme same =>
    cases same
    split at joined
    next only =>
      cases joined
      rw [(division_of_withTail query fragment).2] at only
      simp at only
    next =>
      obtain ⟨found, read, equal⟩ := Results.bind_eq_ok_iff.1 joined
      cases equal
      obtain ⟨hash, question, undivided⟩ := undivided_of_withTail query fragment
      rw [undivided] at noScheme read
      obtain ⟨c, rest, main⟩ := List.exists_cons_of_ne_nil
        (List.append_ne_nil_of_right_ne_nil (tidied piece) (List.cons_ne_nil '/' last))
      rw [main] at noScheme read hash question whole
      cases slash : isSlash c with
      | true =>
          have from_ : ReadFrom base.segments.dropLast.length rest found.route :=
            readFrom_readWithoutScheme_of_slash directory slash read
          have long := whole from_ (List.suffix_cons c rest)
          rw [List.length_cons] at long
          omega
      | false =>
          exact isPlain_of_not_slash directory ending main hash question noScheme slash read route

end Join

end Uplift.Url
