import Uplift.Proofs.Results
import Uplift.Proofs.Text.Cutting
import Uplift.Proofs.Url.Segments

/-!
# Directories

Blanks at the start of a text and line marks in it count for nothing (`cleaned_append`), and an
address without a query and a fragment was read from a text without their marks
(`undivided_of_withTail`).

An address is a directory if its route ends in a slash or is empty.  So is every divided address that
is read alone from a text that ends in a slash, if it has neither a query nor a fragment
(`isDirectory_of_parse`): whatever is the host, the segments are read from the end of the text.
-/

set_option autoImplicit false

namespace Uplift.Url

/-! ## Texts without what counts for nothing -/

/-- Blanks and controls, which count for nothing around an address. -/
def isOuter (c : Char) : Bool := c.toNat ≤ 0x20

/-- The characters that count for nothing within an address. -/
def isLineMark (c : Char) : Bool := c = '\t' || c = '\n' || c = '\r'

/-- A text without the blanks at its start and the line marks in it. -/
def tidied (text : List Char) : List Char :=
  (text.dropWhile isOuter).filter fun c => !isLineMark c

theorem tidied_sublist (text : List Char) : (tidied text).Sublist text :=
  (List.filter_sublist).trans (List.dropWhile_suffix _).sublist

theorem cleaned_eq (text : List Char) :
    cleaned text = (((text.dropWhile isOuter).reverse.dropWhile isOuter).reverse).filter
      fun c => !isLineMark c := by
  refine List.filter_congr fun c _ => ?_
  simp [isLineMark, Bool.and_assoc]

/-- What stands before a slash is tidied; what follows it stays, if there is no blank in it. -/
theorem cleaned_append (front : List Char) {last : List Char}
    (dark : ∀ c ∈ last, isOuter c = false) :
    cleaned (front ++ '/' :: last) = tidied front ++ '/' :: last := by
  have dark' : ∀ c ∈ '/' :: last, isOuter c = false := by
    rintro c (_ | ⟨_, member⟩)
    · rfl
    · exact dark c member
  have start : (front ++ '/' :: last).dropWhile isOuter =
      front.dropWhile isOuter ++ '/' :: last := by
    rw [List.dropWhile_append]
    split
    next none =>
      rw [List.isEmpty_iff.1 none, List.dropWhile_cons_of_neg (by decide), List.nil_append]
    next => rfl
  have finish : (front.dropWhile isOuter ++ '/' :: last).reverse.dropWhile isOuter =
      (front.dropWhile isOuter ++ '/' :: last).reverse := by
    rw [List.reverse_append]
    cases reversed : ('/' :: last).reverse with
    | nil => simp at reversed
    | cons c rest =>
        have member : c ∈ '/' :: last := by
          rw [← List.mem_reverse, reversed]
          exact List.mem_cons_self
        rw [List.cons_append, List.dropWhile_cons_of_neg (by simp [dark' c member])]
  have keep : ('/' :: last).filter (fun c => !isLineMark c) = '/' :: last := by
    refine List.filter_eq_self.2 fun c member => ?_
    have := dark' c member
    rw [Bool.not_eq_true', ← Bool.not_eq_true]
    intro mark
    simp only [isLineMark, Bool.or_eq_true, decide_eq_true_eq] at mark
    rcases mark with (rfl | rfl) | rfl <;> cases this
  rw [cleaned_eq, start, finish, List.reverse_reverse, List.filter_append, keep, tidied]

/-- A text without blanks at its start and without line marks is tidy, and no other is. -/
theorem tidied_eq_self_iff {text : List Char} :
    tidied text = text ↔
      (∀ c ∈ text.head?, isOuter c = false) ∧ ∀ c ∈ text, isLineMark c = false := by
  constructor
  · intro same
    have part : (tidied text).Sublist (text.dropWhile isOuter) := List.filter_sublist
    rw [same] at part
    have whole : text.dropWhile isOuter = text := (List.dropWhile_suffix _).sublist.antisymm part
    constructor
    · intro c head
      have := List.head?_dropWhile_not isOuter text
      rw [whole, head] at this
      simpa using this
    · intro c member
      rw [← same] at member
      simpa using (List.mem_filter.1 member).2
  · rintro ⟨head, marks⟩
    have whole : text.dropWhile isOuter = text := by
      cases text with
      | nil => rfl
      | cons c rest => exact List.dropWhile_cons_of_neg (by simp [head c rfl])
    rw [tidied, whole, List.filter_eq_self]
    intro c member
    simp [marks c member]

/-! ## Queries and fragments -/

theorem divideAt_of_not_mem {mark : Char} {text : List Char} (absent : mark ∉ text) :
    divideAt mark text = (text, none) := by
  rw [divideAt, Text.splitOnce?_of_not_mem absent]

theorem not_mem_of_divideAt {mark : Char} {text : List Char}
    (none : (divideAt mark text).2 = none) : mark ∉ text := by
  intro member
  obtain ⟨front, rest, rfl, absent⟩ := List.eq_append_cons_of_mem member
  rw [divideAt, Text.splitOnce?_append absent] at none
  cases none

theorem division_of_not_mem {text : List Char} (hash : '#' ∉ text) (question : '?' ∉ text) :
    Division.of text = ⟨text, none, none⟩ := by
  rw [Division.of, divideAt_of_not_mem hash]
  simp only [divideAt_of_not_mem question]

/-- A text without a query and a fragment is not divided. -/
theorem not_mem_of_division {text : List Char} (query : (Division.of text).query = none)
    (fragment : (Division.of text).fragment = none) : '#' ∉ text ∧ '?' ∉ text := by
  have hash : '#' ∉ text := not_mem_of_divideAt fragment
  have whole : Division.of text =
      ⟨(divideAt '?' text).1, (divideAt '?' text).2, none⟩ := by
    rw [Division.of, divideAt_of_not_mem hash]
  rw [whole] at query
  exact ⟨hash, not_mem_of_divideAt query⟩

/-- An address without a query and a fragment was read from a text without them. -/
theorem division_of_withTail {url : Url} {division : Division}
    (query : (url.withTail division).query = none)
    (fragment : (url.withTail division).fragment = none) :
    division.query = none ∧ division.fragment = none := by
  constructor
  · cases found : division.query with
    | none => rfl
    | some text =>
        simp only [withTail, found] at query
        cases query
  · exact Option.map_eq_none_iff.1 fragment

/-- Such a text has neither of their marks, and is all that is read. -/
theorem undivided_of_withTail {url : Url} {text : List Char}
    (query : (url.withTail (Division.of text)).query = none)
    (fragment : (url.withTail (Division.of text)).fragment = none) :
    '#' ∉ text ∧ '?' ∉ text ∧ Division.of text = ⟨text, none, none⟩ := by
  obtain ⟨noQuery, noFragment⟩ := division_of_withTail query fragment
  obtain ⟨hash, question⟩ := not_mem_of_division noQuery noFragment
  exact ⟨hash, question, division_of_not_mem hash question⟩

/-! ## Schemes -/

theorem eq_of_readScheme? {text rest : List Char} {scheme : String}
    (read : readScheme? text = some (scheme, rest)) : ∃ front, text = front ++ ':' :: rest := by
  rw [readScheme?] at read
  split at read
  next more left =>
    split at read
    next =>
      obtain ⟨_, equal⟩ := Option.ite_none_right_eq_some.1 read
      cases equal
      exact ⟨_, by rw [← left, List.takeWhile_append_dropWhile]⟩
    next => cases read
  next => cases read

/-! ## Hosts -/

theorem withAuthority_eq_ok {scheme : String} {authority rest : List Char} {url : Url}
    (read : withAuthority scheme authority rest = .ok url) :
    url.scheme = scheme ∧ url.route = segmentsAfterHost (SchemeKind.of scheme) rest := by
  unfold withAuthority at read
  simp only at read
  split at read
  all_goals
    split at read
    next => cases read
    next =>
      split at read
      all_goals
        obtain ⟨host, _, read⟩ := Results.bind_eq_ok_iff.1 read
        obtain ⟨portNumber, _, read⟩ := Results.bind_eq_ok_iff.1 read
        cases read
        exact ⟨rfl, rfl⟩

/-- What follows the host is at the end of the text. -/
theorem afterSlashes_eq_ok {scheme : String} {text : List Char} {url : Url}
    (read : afterSlashes scheme text = .ok url) :
    url.scheme = scheme ∧
      ∃ rest, rest <:+ text ∧ url.route = segmentsAfterHost (SchemeKind.of scheme) rest := by
  obtain ⟨scheme, route⟩ := withAuthority_eq_ok read
  exact ⟨scheme, _, List.dropWhile_suffix _, route⟩

/-! ## Directories -/

/-- A route that ends in a slash, or is empty. -/
def IsDirectoryRoute (kind : SchemeKind) (route : Route) : Prop :=
  route = .segments [] ∨
    ∃ front, route = .segments (front ++ [""]) ∧ (kind = .file → front.head? ≠ some "")

/-- An address beside whose last segment others can be read. -/
def IsDirectory (url : Url) : Prop :=
  IsDirectoryRoute (SchemeKind.of url.scheme) url.route

section Directories

variable {kind : SchemeKind} {done : List String} {text : List Char} {scheme : String} {url : Url}

theorem isDirectoryRoute_segmentsAfter (ends : EndsInSlash text) :
    IsDirectoryRoute kind (segmentsAfter kind done text) :=
  .inr (segmentsAfter_directory ends)

theorem isDirectoryRoute_segmentsAfterHost (ends : EndsInSlash text) :
    IsDirectoryRoute kind (segmentsAfterHost kind text) := by
  rw [segmentsAfterHost.eq_def]
  split
  next =>
    split
    next => exact .inl rfl
    next => exact isDirectoryRoute_segmentsAfter .nil
  next c rest =>
    split
    next => exact isDirectoryRoute_segmentsAfter (ends.of_suffix (List.suffix_cons c rest))
    next => exact isDirectoryRoute_segmentsAfter ends

theorem isDirectory_afterSlashes (ends : EndsInSlash text)
    (read : afterSlashes scheme text = .ok url) : IsDirectory url := by
  obtain ⟨rfl, rest, suffix, route⟩ := afterSlashes_eq_ok read
  rw [IsDirectory, route]
  exact isDirectoryRoute_segmentsAfterHost (ends.of_suffix suffix)

theorem isDirectory_fileOnHost (host : Host) (ends : EndsInSlash text) :
    IsDirectory (fileOnHost host text) := by
  rw [fileOnHost]
  split
  · exact isDirectoryRoute_segmentsAfterHost ends
  · exact isDirectoryRoute_segmentsAfterHost ends

theorem isDirectory_fileFromRoot (ends : EndsInSlash text) :
    IsDirectory (fileFromRoot plainFile text) := by
  rw [fileFromRoot]
  split
  · exact isDirectoryRoute_segmentsAfter ends
  · exact isDirectoryRoute_segmentsAfter ends

theorem isDirectory_fileBeside (ends : EndsInSlash text) :
    IsDirectory (fileBeside plainFile text) := by
  rw [fileBeside]
  split
  · exact isDirectoryRoute_segmentsAfter ends
  · exact isDirectoryRoute_segmentsAfter ends

theorem isDirectory_readFile (ends : EndsInSlash text) (read : readFile none text = .ok url) :
    IsDirectory url := by
  rw [readFile.eq_def] at read
  simp only [Option.getD_none] at read
  split at read
  next a b rest =>
    have later : EndsInSlash rest := ends.of_suffix ⟨[a, b], rfl⟩
    split at read
    next =>
      split at read
      next =>
        cases read
        exact isDirectory_fileOnHost _ later
      next =>
        split at read
        all_goals
          obtain ⟨host, _, read⟩ := Results.bind_eq_ok_iff.1 read
          cases read
          exact isDirectory_fileOnHost _ (later.of_suffix (List.dropWhile_suffix _))
    next =>
      split at read
      next =>
        cases read
        exact isDirectory_fileFromRoot (ends.of_suffix (List.suffix_cons a _))
      next =>
        cases read
        exact isDirectory_fileBeside ends
  next c =>
    cases read
    split
    · exact isDirectory_fileFromRoot .nil
    · exact isDirectory_fileBeside ends
  next =>
    cases read
    exact isDirectoryRoute_segmentsAfter .nil

theorem isDirectory_readOther (ends : EndsInSlash text) (read : readOther scheme text = .ok url)
    (divided : ∃ names, url.route = .segments names) (kind_eq : SchemeKind.of scheme = .other) :
    IsDirectory url := by
  rw [readOther.eq_def] at read
  split at read
  next rest => exact isDirectory_afterSlashes (ends.of_suffix ⟨['/', '/'], rfl⟩) read
  next rest _ =>
    cases read
    rw [IsDirectory, kind_eq]
    exact isDirectoryRoute_segmentsAfter (ends.of_suffix (List.suffix_cons '/' rest))
  next =>
    cases read
    obtain ⟨names, route⟩ := divided
    cases route

/-- What follows a scheme is read as a directory, if it ends in a slash. -/
theorem isDirectory_readAfterScheme (ends : EndsInSlash text)
    (read : readAfterScheme none scheme text = .ok url)
    (divided : ∃ names, url.route = .segments names) : IsDirectory url := by
  rw [readAfterScheme] at read
  simp only [Option.filter_none] at read
  split at read
  next => exact isDirectory_readFile ends read
  next kind_eq => exact isDirectory_readOther ends read divided kind_eq
  next => exact isDirectory_afterSlashes (ends.of_suffix (List.dropWhile_suffix _)) read

/-- **An address that is read alone from a text that ends in a slash** is a directory, if it is
divided and has neither a query nor a fragment. -/
theorem isDirectory_of_parse {front : List Char}
    (parsed : parse (String.ofList (front ++ ['/'])) = .ok url)
    (divided : ∃ names, url.route = .segments names) (query : url.query = none)
    (fragment : url.fragment = none) : IsDirectory url := by
  unfold parse read at parsed
  rw [String.toList_ofList, cleaned_append front (by simp)] at parsed
  simp only at parsed
  split at parsed
  next _ scheme rest scheme_read =>
    obtain ⟨found, read, equal⟩ := Results.bind_eq_ok_iff.1 parsed
    cases equal
    obtain ⟨_, _, undivided⟩ := undivided_of_withTail query fragment
    rw [undivided] at scheme_read
    obtain ⟨before, whole⟩ : ∃ before, tidied front ++ ['/'] = before ++ ':' :: rest :=
      eq_of_readScheme? scheme_read
    have ends : EndsInSlash (tidied front ++ ['/']) := by
      intro c last
      rw [List.getLast?_concat] at last
      exact (Option.some.inj last).symm
    have suffix : rest <:+ tidied front ++ ['/'] := ⟨before ++ [':'], by rw [whole]; simp⟩
    have directory : IsDirectory found :=
      isDirectory_readAfterScheme (ends.of_suffix suffix) read divided
    exact directory
  next => cases parsed
  next alone => cases alone

end Directories

end Uplift.Url
