import Uplift.Proofs.Text.Trimming
import Uplift.Proofs.Version.Spelling
import Uplift.Range

/-!
# Ranges with another version

Putting a version behind the lead of a range gives a text that is read with the same lead, if it is
understood at all (`parse?_retarget`).  It is understood if the version is in full, and a version
that is accepted with blanks around it or a `v` before it is so only if it is strict
(`isFullVersion_iff`): a blank is neither a digit nor part of a suffix, and the first character of a
full version is a digit.
-/

set_option autoImplicit false

namespace Uplift.Text

/-- No decimal digit is blank. -/
theorem isBlank_of_isDecimalDigit {c : Char} (digit : isDecimalDigit c = true) :
    isBlank c = false := by
  obtain ⟨first, member, bounds⟩ := List.any_eq_true.1 digit
  rw [Bool.and_eq_true, decide_eq_true_eq, decide_eq_true_eq] at bounds
  have table : ∀ first ∈ digitZeros, 0x20 < first ∧ (first + 9 < 0x85 ∨ 0xA0 < first) ∧
      (first + 9 < 0x1680 ∨ 0x1680 < first) ∧ (first + 9 < 0x2000 ∨ 0x205F < first) ∧
      (first + 9 < 0x3000 ∨ 0x3000 < first) := by
    decide
  have apart := table first member
  rw [← Bool.not_eq_true, isBlank]
  simp only [Bool.or_eq_true, Bool.and_eq_true, decide_eq_true_eq, beq_iff_eq]
  omega

end Uplift.Text

namespace Uplift.Range

/-! ## Leads -/

/-- A text that does not start with an operator or with the mark of workspaces. -/
def StartsVersion (text : List Char) : Prop :=
  ∀ c ∈ text.head?, c ∉ ['>', '<', '=', '^', '~', 'w']

theorem readOperator_text (operator : RangeOperator) {text : List Char}
    (starts : StartsVersion text) :
    readOperator (operator.text.toList ++ text) = (operator, text) := by
  cases text with
  | nil => cases operator <;> rfl
  | cons c text =>
      have other := starts c rfl
      simp only [List.mem_cons, List.not_mem_nil, or_false, not_or] at other
      obtain ⟨above, below, equal, caret, tilde, _⟩ := other
      cases operator <;>
        simp [RangeOperator.text, readOperator, above, below, equal, caret, tilde]

/-- **A range with another version** is read with the same lead, if it is understood. -/
theorem parse?_retarget (range : Range) {version : String}
    (starts : StartsVersion version.toList) :
    parse? (range.retarget version) =
      if isFullVersion version.toList then
        some ⟨range.workspace, range.operator, version⟩
      else none := by
  have text : (range.retarget version).toList =
      (if range.workspace then protocol.toList else []) ++
        (range.operator.text.toList ++ version.toList) := by
    rw [retarget, lead, String.toList_append, String.toList_append, List.append_assoc]
    cases range.workspace <;> rfl
  have operator := readOperator_text range.operator starts
  rw [parse?, text]
  cases workspace : range.workspace with
  | true =>
      have stripped := (Text.stripPrefix?_eq_some_iff protocol.toList _
        (range.operator.text.toList ++ version.toList)).2 rfl
      simp only [if_true, stripped, operator, String.ofList_toList]
  | false =>
      have bare : Text.stripPrefix? protocol.toList
          (range.operator.text.toList ++ version.toList) = none := by
        rw [Option.eq_none_iff_forall_ne_some]
        intro rest stripped
        have whole := (Text.stripPrefix?_eq_some_iff _ _ _).1 stripped
        rw [whole] at operator
        have none : readOperator (protocol.toList ++ rest) = (.none, protocol.toList ++ rest) := rfl
        rw [none, Prod.mk.injEq] at operator
        refine starts 'w' ?_ (by simp)
        rw [← operator.2]
        rfl
      simp only [Bool.false_eq_true, if_false, List.nil_append, bare, operator,
        String.ofList_toList]

/-! ## Full versions -/

/-- A nonempty run of decimal digits. -/
def IsDigits (text : List Char) : Prop :=
  text ≠ [] ∧ ∀ c ∈ text, Text.isDecimalDigit c = true

theorem skipDigits?_eq_some_iff {text rest : List Char} :
    skipDigits? text = some rest ↔
      ∃ digits, IsDigits digits ∧ text = digits ++ rest ∧
        ∀ c ∈ rest.head?, Text.isDecimalDigit c = false := by
  rw [skipDigits?, Option.ite_none_right_eq_some, Option.some.injEq]
  constructor
  · rintro ⟨first, rfl⟩
    refine ⟨text.takeWhile Text.isDecimalDigit, ⟨?_, fun c => List.mem_takeWhile_imp⟩,
      List.takeWhile_append_dropWhile.symm, ?_⟩
    · cases text with
      | nil => cases first
      | cons c text =>
          have digit : Text.isDecimalDigit c = true := first
          rw [List.takeWhile_cons_of_pos digit]
          exact List.cons_ne_nil _ _
    · intro c head
      have := List.head?_dropWhile_not Text.isDecimalDigit text
      rw [head] at this
      simpa using this
  · rintro ⟨digits, ⟨nonempty, all⟩, rfl, stops⟩
    obtain ⟨c, more, rfl⟩ := List.exists_cons_of_ne_nil nonempty
    refine ⟨all c List.mem_cons_self, ?_⟩
    rw [List.dropWhile_append_of_pos all]
    cases rest with
    | nil => rfl
    | cons d rest => exact List.dropWhile_cons_of_neg (by simp [stops d rfl])

theorem skipDot?_eq_some_iff {text rest : List Char} :
    skipDot? text = some rest ↔ text = '.' :: rest := by
  constructor
  · intro skipped
    rw [skipDot?.eq_def] at skipped
    split at skipped
    next => cases skipped; rfl
    next => cases skipped
  · rintro rfl
    rfl

/-- **A full version** is made of three numbers and a suffix. -/
theorem isFullVersion_eq_true_iff {text : List Char} :
    isFullVersion text = true ↔
      ∃ major minor patch suffix, IsDigits major ∧ IsDigits minor ∧ IsDigits patch ∧
        isSuffix suffix = true ∧ text = major ++ '.' :: (minor ++ '.' :: (patch ++ suffix)) := by
  rw [isFullVersion]
  constructor
  · intro full
    split at full
    next suffix parts =>
      simp only [Option.bind_eq_bind, Option.bind_eq_some_iff, skipDigits?_eq_some_iff,
        skipDot?_eq_some_iff] at parts
      obtain ⟨_, ⟨major, isMajor, rfl, _⟩, _, rfl, _, ⟨minor, isMinor, rfl, _⟩, _, rfl, patch,
        isPatch, rfl, _⟩ := parts
      exact ⟨major, minor, patch, suffix, isMajor, isMinor, isPatch, full, rfl⟩
    next => cases full
  · rintro ⟨major, minor, patch, suffix, isMajor, isMinor, isPatch, isSuffix_, rfl⟩
    have stops : ∀ c ∈ suffix.head?, Text.isDecimalDigit c = false := by
      intro c head
      cases suffix with
      | nil => cases head
      | cons first rest =>
          cases head
          rw [isSuffix, Bool.and_eq_true, Bool.or_eq_true, decide_eq_true_eq,
            decide_eq_true_eq] at isSuffix_
          rcases isSuffix_.1 with rfl | rfl <;> decide
    have dot : ∀ rest, ∀ c ∈ ('.' :: rest).head?, Text.isDecimalDigit c = false := by
      intro rest c head
      cases head
      decide
    have parts : ((do skipDigits? (← skipDot? (← skipDigits? (← skipDot? (← skipDigits?
        (major ++ '.' :: (minor ++ '.' :: (patch ++ suffix))))))) : Option (List Char))) =
          some suffix := by
      simp only [Option.bind_eq_bind, Option.bind_eq_some_iff, skipDigits?_eq_some_iff,
        skipDot?_eq_some_iff]
      exact ⟨_, ⟨major, isMajor, rfl, dot _⟩, _, rfl, _, ⟨minor, isMinor, rfl, dot _⟩, _, rfl,
        patch, isPatch, rfl, stops⟩
    rw [parts]
    exact isSuffix_

theorem isBlank_of_isSuffixChar {c : Char} (suffix : isSuffixChar c = true) :
    Text.isBlank c = false := by
  have small : c.toNat = 43 ∨ 45 ≤ c.toNat ∧ c.toNat ≤ 46 ∨ 48 ≤ c.toNat ∧ c.toNat ≤ 122 := by
    simp only [isSuffixChar, Bool.or_eq_true, decide_eq_true_eq] at suffix
    rcases suffix with ((alphanum | rfl) | rfl) | rfl
    · exact .inr (.inr (Text.toNat_of_isAlphanum alphanum))
    all_goals decide
  rw [← Bool.not_eq_true, Text.isBlank]
  simp only [Bool.or_eq_true, Bool.and_eq_true, decide_eq_true_eq, beq_iff_eq]
  omega

/-- There is no blank in a full version. -/
theorem isBlank_of_isFullVersion {text : List Char} (full : isFullVersion text = true) :
    ∀ c ∈ text, Text.isBlank c = false := by
  obtain ⟨major, minor, patch, suffix, isMajor, isMinor, isPatch, isSuffix_, rfl⟩ :=
    isFullVersion_eq_true_iff.1 full
  have digits : ∀ {run : List Char}, IsDigits run → ∀ c ∈ run, Text.isBlank c = false :=
    fun isDigits c member => Text.isBlank_of_isDecimalDigit (isDigits.2 c member)
  have rest : ∀ c ∈ suffix, Text.isBlank c = false := by
    intro c member
    cases suffix with
    | nil => cases member
    | cons first rest =>
        simp only [isSuffix, Bool.and_eq_true, Bool.or_eq_true, decide_eq_true_eq,
          List.all_eq_true] at isSuffix_
        rcases List.mem_cons.1 member with rfl | member
        · rcases isSuffix_.1 with rfl | rfl <;> decide
        · exact isBlank_of_isSuffixChar (isSuffix_.2 c member)
  intro c member
  simp only [List.mem_append, List.mem_cons] at member
  rcases member with first | rfl | second | rfl | third | last
  · exact digits isMajor c first
  · decide
  · exact digits isMinor c second
  · decide
  · exact digits isPatch c third
  · exact rest c last

/-! ## Accepted versions -/

theorem isDigits_toDigits (n : Nat) : IsDigits (Nat.toDigits 10 n) :=
  ⟨Nat.toDigits_ne_nil, fun c member => Text.isDecimalDigit_of_isDigit c
    (Nat.isDigit_of_mem_toDigits (by decide) (by decide) member)⟩

/-- What a mark introduces is a suffix, if what follows it is one. -/
theorem isSuffix_of_readMarked? {mark : Char} (isMark : mark = '-' ∨ mark = '+') {normal : Bool}
    {text rest : List Char} {identifiers : List String}
    (read : Version.readMarked? mark normal text = some (identifiers, rest))
    (suffix : isSuffix rest = true) : isSuffix text = true := by
  rw [Version.readMarked?.eq_def] at read
  split at read
  next c after =>
    split at read
    next equal =>
      subst equal
      simp only [Version.readIdentifiers?, Option.ite_none_right_eq_some, Option.some.injEq,
        Prod.mk.injEq] at read
      obtain ⟨_, _, left⟩ := read
      have first : (decide (c = '-') || decide (c = '+')) = true := by
        rcases isMark with rfl | rfl <;> rfl
      rw [isSuffix, first, Bool.true_and, List.all_eq_true]
      intro other member
      rw [← List.takeWhile_append_dropWhile
        (p := fun c => Version.isIdentifierChar c || decide (c = '.')) (l := after), left,
        List.mem_append] at member
      rcases member with inside | later
      · have identifier := List.mem_takeWhile_imp inside
        simp only [Version.isIdentifierChar, Bool.or_eq_true, decide_eq_true_eq] at identifier
        simp only [isSuffixChar, Bool.or_eq_true, decide_eq_true_eq]
        tauto
      · cases rest with
        | nil => cases later
        | cons head rest =>
            simp only [isSuffix, Bool.and_eq_true, Bool.or_eq_true, decide_eq_true_eq,
              List.all_eq_true] at suffix
            rcases List.mem_cons.1 later with rfl | later
            · rcases suffix.1 with rfl | rfl <;> decide
            · exact suffix.2 other later
    next =>
      cases read
      exact suffix
  next =>
    cases read
    rfl

/-- A strict version is a full version. -/
theorem isFullVersion_of_parseChars? {text : List Char} {version : Version}
    (parsed : Version.parseChars? text = some version) : isFullVersion text = true := by
  rw [Version.parseChars?] at parsed
  simp only [Option.bind_eq_bind, Option.bind_eq_some_iff, Option.ite_none_right_eq_some,
    Option.some.injEq, Prod.exists, List.isEmpty_iff] at parsed
  obtain ⟨major, _, major_read, _, dot, minor, _, minor_read, _, dot', patch, suffix, patch_read,
    prerelease, _, prerelease_read, build, _, build_read, rfl, _⟩ := parsed
  rw [isFullVersion_eq_true_iff]
  refine ⟨_, _, _, suffix, isDigits_toDigits major, isDigits_toDigits minor,
    isDigits_toDigits patch, ?_, ?_⟩
  · exact isSuffix_of_readMarked? (.inl rfl) prerelease_read
      (isSuffix_of_readMarked? (.inr rfl) build_read rfl)
  · rw [Version.toDigits_of_readNumber? major_read, Version.readDot?_eq_some_iff.1 dot,
      Version.toDigits_of_readNumber? minor_read, Version.readDot?_eq_some_iff.1 dot',
      Version.toDigits_of_readNumber? patch_read]

/-- A full version starts with a digit. -/
theorem head?_of_isFullVersion {text : List Char} (full : isFullVersion text = true) :
    ∃ c rest, text = c :: rest ∧ Text.isDecimalDigit c = true := by
  obtain ⟨major, _, _, _, ⟨nonempty, all⟩, _, _, _, rfl⟩ := isFullVersion_eq_true_iff.1 full
  obtain ⟨c, more, rfl⟩ := List.exists_cons_of_ne_nil nonempty
  exact ⟨c, _, rfl, all c List.mem_cons_self⟩

/-- An accepted version may stand behind any lead. -/
theorem startsVersion_of_parseLoose? {text : String} {version : Version}
    (accepted : Version.parseLoose? text = some version) : StartsVersion text.toList := by
  intro c head operator
  obtain ⟨rest, equal⟩ : ∃ rest, text.toList = c :: rest := by
    cases chars : text.toList with
    | nil => rw [chars] at head; cases head
    | cons first rest => rw [chars] at head; cases head; exact ⟨rest, rfl⟩
  simp only [List.mem_cons, List.not_mem_nil, or_false] at operator
  have dark : Text.isBlank c = false := by
    rcases operator with rfl | rfl | rfl | rfl | rfl | rfl <;> decide
  obtain ⟨more, trimmed⟩ := Text.trim_cons dark rest
  rw [Version.parseLoose?, equal, trimmed] at accepted
  split at accepted
  next same =>
    cases same
    rcases operator with same | same | same | same | same | same <;> cases same
  next =>
    obtain ⟨_, _, same, digit⟩ := head?_of_isFullVersion (isFullVersion_of_parseChars? accepted)
    cases same
    rcases operator with rfl | rfl | rfl | rfl | rfl | rfl <;> revert digit <;> decide

/-- **An accepted version is a full version** exactly if it is strict. -/
theorem isFullVersion_iff {text : String} {version : Version}
    (accepted : Version.parseLoose? text = some version) :
    isFullVersion text.toList = true ↔ Version.parse? text = some version := by
  constructor
  · intro full
    obtain ⟨c, rest, equal, digit⟩ := head?_of_isFullVersion full
    rw [Version.parseLoose?, Text.trim_of_dark (isBlank_of_isFullVersion full)] at accepted
    split at accepted
    next same =>
      rw [same] at equal
      cases equal
      exact absurd digit (by decide)
    next => exact accepted
  · exact isFullVersion_of_parseChars?

theorem isFullVersion_eq_isSome {text : String} {version : Version}
    (accepted : Version.parseLoose? text = some version) :
    isFullVersion text.toList = (Version.parse? text).isSome := by
  rw [Bool.eq_iff_iff]
  constructor
  · intro full
    rw [(isFullVersion_iff accepted).1 full]
    rfl
  · intro strict
    obtain ⟨version, parsed⟩ := Option.isSome_iff_exists.1 strict
    exact isFullVersion_of_parseChars? parsed

end Uplift.Range
