import Uplift.Proofs.Range

/-!
# The grammar of ranges

A range is spelled by an optional `workspace:`, an optional operator, three runs of decimal digits
with dots between them and an optional suffix.  Reading accepts exactly the texts that are spelled
so, and gives the parts of the spelling (`parse?_eq_some_iff`).  No text has two spellings
(`Spelling.ext_text`): a version starts with a digit, which starts neither an operator nor the mark
of workspaces, and a run of digits ends where the next part starts, since a suffix starts with a
hyphen or a plus.
-/

set_option autoImplicit false

namespace Uplift.Range

/-! ## Spellings -/

/-- Nothing, or a hyphen or a plus and then ASCII letters and digits, dots, pluses and hyphens. -/
def IsSuffixText (text : List Char) : Prop :=
  text = [] ∨ ∃ mark rest, text = mark :: rest ∧ (mark = '-' ∨ mark = '+') ∧
    ∀ c ∈ rest, c.isAlphanum = true ∨ c = '.' ∨ c = '+' ∨ c = '-'

/-- A way to spell a range. -/
@[ext]
structure Spelling where
  workspace : Bool
  operator : RangeOperator
  major : List Char
  minor : List Char
  patch : List Char
  suffix : List Char
  digits_major : IsDigits major
  digits_minor : IsDigits minor
  digits_patch : IsDigits patch
  suffixText : IsSuffixText suffix

namespace Spelling

/-- The characters of the version. -/
def versionChars (spelling : Spelling) : List Char :=
  spelling.major ++ '.' :: (spelling.minor ++ '.' :: (spelling.patch ++ spelling.suffix))

/-- The range that is spelled. -/
def range (spelling : Spelling) : Range :=
  ⟨spelling.workspace, spelling.operator, String.ofList spelling.versionChars⟩

/-- The text of the spelling. -/
def text (spelling : Spelling) : String :=
  (if spelling.workspace then "workspace:" else "") ++ spelling.operator.text ++
    String.ofList spelling.versionChars

end Spelling

/-! ## Versions -/

theorem isSuffix_eq_true_iff {text : List Char} : isSuffix text = true ↔ IsSuffixText text := by
  cases text with
  | nil => simp [isSuffix, IsSuffixText]
  | cons c rest => simp [isSuffix, IsSuffixText, isSuffixChar, or_assoc]

/-- A suffix starts with no digit. -/
theorem IsSuffixText.not_digit {text : List Char} (suffix : IsSuffixText text) :
    ∀ c ∈ text.head?, Text.isDecimalDigit c = false := by
  intro c head
  rcases suffix with rfl | ⟨mark, rest, rfl, either, _⟩
  · cases head
  · cases head
    rcases either with rfl | rfl <;> decide

/-- A run of digits ends where something else starts. -/
theorem IsDigits.append_inj {digits digits' rest rest' : List Char} (isDigits : IsDigits digits)
    (isDigits' : IsDigits digits') (stops : ∀ c ∈ rest.head?, Text.isDecimalDigit c = false)
    (stops' : ∀ c ∈ rest'.head?, Text.isDecimalDigit c = false)
    (same : digits ++ rest = digits' ++ rest') : digits = digits' ∧ rest = rest' := by
  have skipped := skipDigits?_eq_some_iff.2 ⟨digits, isDigits, rfl, stops⟩
  have skipped' := skipDigits?_eq_some_iff.2 ⟨digits', isDigits', rfl, stops'⟩
  rw [same, skipped', Option.some.injEq] at skipped
  subst skipped
  exact ⟨List.append_cancel_right same, rfl⟩

/-- A full version starts with no part of a lead. -/
theorem startsVersion_of_isFullVersion {text : List Char} (full : isFullVersion text = true) :
    StartsVersion text := by
  obtain ⟨c, rest, rfl, digit⟩ := head?_of_isFullVersion full
  intro other head member
  cases head
  simp only [List.mem_cons, List.not_mem_nil, or_false] at member
  rcases member with rfl | rfl | rfl | rfl | rfl | rfl <;> revert digit <;> decide

namespace Spelling

theorem isFullVersion_versionChars (spelling : Spelling) :
    isFullVersion spelling.versionChars = true :=
  isFullVersion_eq_true_iff.2 ⟨_, _, _, _, spelling.digits_major, spelling.digits_minor,
    spelling.digits_patch, isSuffix_eq_true_iff.2 spelling.suffixText, rfl⟩

/-- What is spelled is read. -/
theorem parse?_text (spelling : Spelling) : parse? spelling.text = some spelling.range := by
  have full := spelling.isFullVersion_versionChars
  have starts : StartsVersion (String.ofList spelling.versionChars).toList := by
    rw [String.toList_ofList]
    exact startsVersion_of_isFullVersion full
  have read := parse?_retarget spelling.range starts
  rw [String.toList_ofList, if_pos full] at read
  exact read

/-- The version is divided in one way. -/
theorem ext_versionChars {first second : Spelling}
    (same : first.versionChars = second.versionChars) :
    first.major = second.major ∧ first.minor = second.minor ∧ first.patch = second.patch ∧
      first.suffix = second.suffix := by
  have dot : ∀ rest, ∀ c ∈ ('.' :: rest).head?, Text.isDecimalDigit c = false := by
    intro rest c head
    cases head
    decide
  obtain ⟨major, rest⟩ := first.digits_major.append_inj second.digits_major (dot _) (dot _) same
  obtain ⟨minor, rest⟩ := first.digits_minor.append_inj second.digits_minor (dot _) (dot _)
    (List.cons.inj rest).2
  obtain ⟨patch, suffix⟩ := first.digits_patch.append_inj second.digits_patch
    first.suffixText.not_digit second.suffixText.not_digit (List.cons.inj rest).2
  exact ⟨major, minor, patch, suffix⟩

/-- **No text has two spellings.** -/
theorem ext_text {first second : Spelling} (same : first.text = second.text) : first = second := by
  have read := first.parse?_text
  rw [same, second.parse?_text, Option.some.injEq, range, range, Range.mk.injEq] at read
  obtain ⟨workspace, operator, version⟩ := read
  obtain ⟨major, minor, patch, suffix⟩ := ext_versionChars (String.ofList_injective version)
  exact Spelling.ext workspace.symm operator.symm major.symm minor.symm patch.symm suffix.symm

end Spelling

/-! ## Reading -/

/-- The operator that is read and what follows it make up the text. -/
theorem text_readOperator (text : List Char) :
    (readOperator text).1.text.toList ++ (readOperator text).2 = text := by
  rw [readOperator.eq_def]
  split <;> simp [RangeOperator.text]

/-- What an operator leaves of a text is spelled, if it is a full version. -/
theorem exists_spelling (workspace : Bool) {text : List Char}
    (full : isFullVersion (readOperator text).2 = true) :
    ∃ spelling : Spelling,
      spelling.range =
        ⟨workspace, (readOperator text).1, String.ofList (readOperator text).2⟩ ∧
      spelling.text = (if workspace then "workspace:" else "") ++ String.ofList text := by
  obtain ⟨major, minor, patch, suffix, isMajor, isMinor, isPatch, isSuffix_, parts⟩ :=
    isFullVersion_eq_true_iff.1 full
  refine ⟨⟨workspace, (readOperator text).1, major, minor, patch, suffix, isMajor, isMinor,
    isPatch, isSuffix_eq_true_iff.1 isSuffix_⟩, ?_, ?_⟩
  · rw [Spelling.range, Spelling.versionChars, ← parts]
  · have whole : (readOperator text).1.text ++ String.ofList (readOperator text).2 =
        String.ofList text := by
      rw [← String.toList_inj, String.toList_append, String.toList_ofList, String.toList_ofList,
        text_readOperator]
    rw [Spelling.text, Spelling.versionChars, ← parts, String.append_assoc, whole]

/-- **Reading accepts exactly what is spelled by the grammar.** -/
theorem parse?_eq_some_iff {raw : String} {range : Range} :
    parse? raw = some range ↔
      ∃ spelling : Spelling, spelling.text = raw ∧ spelling.range = range := by
  constructor
  · intro parsed
    rw [parse?] at parsed
    split at parsed
    next workspace rest marked =>
      change (if isFullVersion (readOperator rest).2 then
        some (⟨workspace, (readOperator rest).1, String.ofList (readOperator rest).2⟩ : Range)
        else none) = some range at parsed
      obtain ⟨full, equal⟩ := Option.ite_none_right_eq_some.1 parsed
      obtain rfl := Option.some.inj equal
      obtain ⟨spelling, spelled, text⟩ := exists_spelling workspace full
      refine ⟨spelling, ?_, spelled⟩
      rw [text]
      split at marked
      next after stripped =>
        cases marked
        have whole := (Text.stripPrefix?_eq_some_iff _ _ _).1 stripped
        rw [← String.toList_inj, whole]
        simp [protocol]
      next =>
        cases marked
        simp
  · rintro ⟨spelling, rfl, rfl⟩
    exact spelling.parse?_text

/-- **Reading ranges and writing them.**  A text is read as a range exactly if it is spelled by the
grammar, in one way, and the range has the parts of the spelling.  The range is written as the text
it was read from, also with its own version put in again, and with any version of semantic
versioning in place of its own it is read with that version and the same lead. -/
theorem parse?_spells (raw : String) :
    (∀ range, parse? raw = some range ↔
      ∃ spelling : Spelling, spelling.text = raw ∧ spelling.range = range) ∧
    (∀ first second : Spelling, first.text = raw → second.text = raw → first = second) ∧
    ∀ range, parse? raw = some range →
      range.text = raw ∧ range.retarget range.version = raw ∧
        ∀ version, (Version.parse? version).isSome = true →
          parse? (range.retarget version) = some { range with version := version } := by
  refine ⟨fun range => parse?_eq_some_iff, fun first second here there =>
    Spelling.ext_text (here.trans there.symm), fun range parsed => ?_⟩
  obtain ⟨spelling, rfl, rfl⟩ := parse?_eq_some_iff.1 parsed
  refine ⟨rfl, rfl, fun version strict => ?_⟩
  obtain ⟨_, read⟩ := Option.isSome_iff_exists.1 strict
  have full : isFullVersion version.toList = true := isFullVersion_of_parseChars? read
  rw [parse?_retarget _ (startsVersion_of_isFullVersion full), if_pos full]

/-- A range with every part, and a version with a suffix of the other kind. -/
theorem parse?_spells_prerelease :
    parse? "workspace:>=1.0.0-rc.1" = some ⟨true, .atLeast, "1.0.0-rc.1"⟩ ∧
      (Version.parse? "2.0.0+linux").isSome = true ∧
      parse? ((⟨true, .atLeast, "1.0.0-rc.1"⟩ : Range).retarget "2.0.0+linux") =
        some ⟨true, .atLeast, "2.0.0+linux"⟩ := by
  have parsed : parse? "workspace:>=1.0.0-rc.1" = some ⟨true, .atLeast, "1.0.0-rc.1"⟩ := by decide
  have strict : (Version.parse? "2.0.0+linux").isSome = true := by decide
  exact ⟨parsed, strict, ((parse?_spells _).2.2 _ parsed).2.2 _ strict⟩

end Uplift.Range
