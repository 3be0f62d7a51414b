import Mathlib.Data.List.TakeWhile
import Uplift.Proofs.Path.Display
import Uplift.Version

/-!
# The spelling of versions

A strict text of a version is the spelling of that version: numbers without superfluous zeros, the
identifiers with dots between them, and the marks before them (`toText_of_parse?`).  Different texts
therefore never spell the same version (`eq_of_parse?`).
-/

set_option autoImplicit false

namespace Uplift.Version

/-! ## Numbers -/

theorem digitChar_of_isDigit {c : Char} (digit : c.isDigit = true) :
    Nat.digitChar (c.toNat - 48) = c ∧ c.toNat - 48 < 10 := by
  have bounds : 48 ≤ c.toNat ∧ c.toNat ≤ 57 := by
    simp only [Char.isDigit, Bool.and_eq_true, decide_eq_true_eq] at digit
    exact ⟨UInt32.le_iff_toNat_le.1 digit.1, UInt32.le_iff_toNat_le.1 digit.2⟩
  obtain ⟨n, small, equal⟩ : ∃ n < 10, c.toNat = n + 48 := ⟨c.toNat - 48, by omega, by omega⟩
  have chars : ∀ n < 10, Nat.digitChar n = Char.ofNat (n + 48) := by decide
  rw [equal, Nat.add_sub_cancel, chars n small, ← equal, Char.ofNat_toNat]
  exact ⟨rfl, small⟩

theorem digitsValue_concat (digits : List Char) (digit : Char) :
    digitsValue (digits ++ [digit]) = digitsValue digits * 10 + (digit.toNat - 48) := by
  rw [digitsValue, List.foldl_append]
  rfl

/-- Digits that do not start with a zero are those of a positive number. -/
theorem toDigits_digitsValue {digits : List Char} (nonempty : digits ≠ [])
    (all : ∀ digit ∈ digits, digit.isDigit = true) (head : digits.head? ≠ some '0') :
    0 < digitsValue digits ∧ Nat.toDigits 10 (digitsValue digits) = digits := by
  induction digits using List.reverseRecOn with
  | nil => exact absurd rfl nonempty
  | append_singleton front digit ih =>
      obtain ⟨char, small⟩ := digitChar_of_isDigit (all digit (by simp))
      rw [digitsValue_concat]
      by_cases empty : front = []
      · subst empty
        have positive : digit.toNat - 48 ≠ 0 := by
          intro zero
          rw [zero] at char
          exact head (by rw [← char]; rfl)
        have value : digitsValue [] * 10 + (digit.toNat - 48) = digit.toNat - 48 := by
          rw [digitsValue, List.foldl_nil]
          omega
        rw [value, Nat.toDigits_of_lt_base small, char]
        exact ⟨Nat.pos_of_ne_zero positive, rfl⟩
      · have within : ∀ other ∈ front, other.isDigit = true := fun other member =>
          all other (List.mem_append_left _ member)
        have first : front.head? ≠ some '0' := by
          rwa [List.head?_append_of_ne_nil _ empty] at head
        obtain ⟨positive, spelled⟩ := ih empty within first
        refine ⟨by omega, ?_⟩
        rw [Nat.toDigits_of_base_le (by omega) (by omega)]
        congr 1
        · rw [show (digitsValue front * 10 + (digit.toNat - 48)) / 10 = digitsValue front by omega,
            spelled]
        · rw [show (digitsValue front * 10 + (digit.toNat - 48)) % 10 = digit.toNat - 48 by omega,
            char]

/-- A number is read from its digits. -/
theorem toDigits_of_readNumber? {text rest : List Char} {n : Nat}
    (read : readNumber? text = some (n, rest)) : text = Nat.toDigits 10 n ++ rest := by
  rw [readNumber?] at read
  have split := List.takeWhile_append_dropWhile (p := Char.isDigit) (l := text)
  have all : ∀ digit ∈ text.takeWhile Char.isDigit, digit.isDigit = true := fun digit member =>
    List.mem_takeWhile_imp member
  simp only [Option.ite_none_right_eq_some, Option.some.injEq, Prod.mk.injEq,
    Bool.and_eq_true] at read
  obtain ⟨⟨wellFormed, _⟩, rfl, rfl⟩ := read
  have spelled : Nat.toDigits 10 (digitsValue (text.takeWhile Char.isDigit)) =
      text.takeWhile Char.isDigit := by
    split at wellFormed
    next => cases wellFormed
    next zero => rw [zero]; rfl
    next c digits _ cons =>
      rw [cons] at all ⊢
      refine (toDigits_digitsValue (List.cons_ne_nil _ _) all ?_).2
      simpa using wellFormed
  rw [spelled, split]

theorem readDot?_eq_some_iff {text rest : List Char} :
    readDot? text = some rest ↔ text = '.' :: rest := by
  constructor
  · intro read
    rw [readDot?.eq_def] at read
    split at read
    · cases read
      rfl
    · cases read
  · rintro rfl
    rfl

/-! ## Identifiers -/

/-- What a text is cut into makes up the text, and is never nothing. -/
theorem intercalate_splitOn (mark : Char) (text : List Char) :
    Text.splitOn mark text ≠ [] ∧ [mark].intercalate (Text.splitOn mark text) = text := by
  induction text with
  | nil => exact ⟨List.cons_ne_nil _ _, rfl⟩
  | cons c rest ih =>
      obtain ⟨nonempty, whole⟩ := ih
      obtain ⟨piece, pieces, cut⟩ := List.exists_cons_of_ne_nil nonempty
      rw [cut] at whole
      rw [Text.splitOn]
      split
      next equal =>
        refine ⟨List.cons_ne_nil _ _, ?_⟩
        rw [cut, List.intercalate_cons_cons, whole, equal]
        rfl
      next =>
        rw [cut]
        refine ⟨List.cons_ne_nil _ _, ?_⟩
        cases pieces with
        | nil =>
            rw [List.intercalate_singleton] at whole ⊢
            rw [whole]
        | cons next pieces =>
            rw [List.intercalate_cons_cons] at whole ⊢
            rw [← whole]
            rfl

/-- What a mark introduces, as written. -/
def markedText (mark : String) (identifiers : List String) : String :=
  if identifiers.isEmpty then "" else mark ++ String.intercalate "." identifiers

theorem readIdentifiers?_spells {normal : Bool} {text rest : List Char}
    {identifiers : List String} (read : readIdentifiers? normal text = some (identifiers, rest)) :
    identifiers ≠ [] ∧ text = (String.intercalate "." identifiers).toList ++ rest := by
  simp only [readIdentifiers?, Option.ite_none_right_eq_some, Option.some.injEq,
    Prod.mk.injEq] at read
  obtain ⟨_, rfl, rfl⟩ := read
  obtain ⟨nonempty, whole⟩ := intercalate_splitOn '.'
    (text.takeWhile fun c => isIdentifierChar c || decide (c = '.'))
  refine ⟨by simpa using nonempty, ?_⟩
  have chars : (fun piece : List Char => (String.ofList piece).toList) = id := by
    funext piece
    exact String.toList_ofList
  rw [String.toList_intercalate, List.map_map]
  change text = ['.'].intercalate (List.map (fun piece : List Char =>
    (String.ofList piece).toList) _) ++ _
  rw [chars, List.map_id, whole, List.takeWhile_append_dropWhile]

theorem readMarked?_spells {mark : Char} {normal : Bool} {text rest : List Char}
    {identifiers : List String} (read : readMarked? mark normal text = some (identifiers, rest)) :
    text = (markedText (String.singleton mark) identifiers).toList ++ rest := by
  rw [readMarked?.eq_def] at read
  split at read
  next c after =>
    split at read
    next equal =>
      obtain ⟨nonempty, spells⟩ := readIdentifiers?_spells read
      rw [markedText, if_neg (by simpa using nonempty), String.toList_append, List.append_assoc,
        ← spells, equal]
      simp
    next =>
      cases read
      rfl
  next =>
    cases read
    rfl

/-! ## Versions -/

/-- **A strict text of a version is its spelling.** -/
theorem toText_of_parse? {text : String} {version : Version}
    (parsed : parse? text = some version) : version.toText = text := by
  rw [parse?, parseChars?] at parsed
  simp only [Option.bind_eq_bind, Option.bind_eq_some_iff, Option.ite_none_right_eq_some,
    Option.some.injEq, Prod.exists, List.isEmpty_iff] at parsed
  obtain ⟨major, _, major_read, _, dot, minor, _, minor_read, _, dot', patch, _, patch_read,
    prerelease, _, prerelease_read, build, _, build_read, rfl, rfl⟩ := parsed
  have spelled := toDigits_of_readNumber? major_read
  rw [readDot?_eq_some_iff.1 dot, toDigits_of_readNumber? minor_read,
    readDot?_eq_some_iff.1 dot', toDigits_of_readNumber? patch_read,
    readMarked?_spells prerelease_read, readMarked?_spells build_read, List.append_nil] at spelled
  have period : (toString ".").toList = ['.'] := rfl
  rw [← String.toList_inj, spelled, toText]
  simp [prereleaseText, buildText, markedText, period]

/-- **Different texts spell different versions.** -/
theorem eq_of_parse? {first second : String} {version : Version}
    (here : parse? first = some version) (there : parse? second = some version) :
    first = second := by
  rw [← toText_of_parse? here, toText_of_parse? there]

end Uplift.Version
