import Mathlib.Data.List.TakeWhile
import Uplift.Json.Printer
import Uplift.Proofs.Json.Doubles
import Uplift.Proofs.Json.Reading

/-!
# Reading numbers that were written

An integer of at most 64 bits is read as itself.  A finite double is read as some double: its
shortest form has at most seventeen digits, all of which fit into a significand, and it is worth no
more than the largest double as it is written.  Which double it is read as does not matter here.
-/

set_option autoImplicit false

namespace Uplift.Json

open Uplift.Text (Symbol)

/-! ## Digits -/

/-- The value of a digit. -/
def digitOf (c : Char) : Nat :=
  c.toNat - 48

theorem digit?_of_isDigit {c : Char} (isDigit : c.isDigit = true) :
    digit? (.char c) = some (digitOf c) := by
  rw [digit?, if_pos isDigit, digitOf]

theorem eq_zero_of_digitOf {c : Char} (isDigit : c.isDigit = true) (zero : digitOf c = 0) :
    '0' = c := by
  have least : 48 ≤ c.toNat := by
    simp only [Char.isDigit, Bool.and_eq_true, decide_eq_true_eq] at isDigit
    exact UInt32.le_iff_toNat_le.1 isDigit.1
  rw [digitOf] at zero
  have code : c.toNat = 48 := by omega
  rw [← Char.ofNat_toNat c, code]

theorem ne_of_isDigit {c other : Char} (isDigit : c.isDigit = true)
    (different : other.isDigit = false) : c ≠ other := by
  rintro rfl
  rw [isDigit] at different
  cases different

theorem isSpace_of_isDigit {c : Char} (isDigit : c.isDigit = true) :
    isSpace (.char c) = false := by
  have other : ∀ {other : Char}, other.isDigit = false → c ≠ other := ne_of_isDigit isDigit
  simp [isSpace, other (show ' '.isDigit = false from rfl),
    other (show '\n'.isDigit = false from rfl), other (show '\t'.isDigit = false from rfl),
    other (show '\r'.isDigit = false from rfl)]

/-- What does not go on with a digit. -/
def Stops (rest : List Symbol) : Prop :=
  ∀ unit ∈ rest.head?, digit? unit = none

theorem Ends.stops {rest : List Symbol} (ends : Ends rest) : Stops rest := by
  intro unit first
  rcases ends unit first with rfl | rfl <;> rfl

theorem stops_cons {c : Char} (other : c.isDigit = false) (rest : List Symbol) :
    Stops (.char c :: rest) := by
  intro unit first
  cases first
  rw [digit?, if_neg (by simp [other])]

/-- Digits are taken up to the first other unit. -/
theorem takeDigits_units {digits : List Char} (all : ∀ c ∈ digits, c.isDigit = true)
    {rest : List Symbol} (stops : Stops rest) :
    takeDigits (units digits ++ rest) = (digits.map digitOf, rest) := by
  induction digits with
  | nil =>
      cases rest with
      | nil => rfl
      | cons unit rest =>
          have none := stops unit rfl
          rw [units_nil, List.nil_append, takeDigits, none]
          rfl
  | cons c digits ih =>
      rw [units_cons, List.cons_append, takeDigits,
        digit?_of_isDigit (all c List.mem_cons_self),
        ih fun other member => all other (List.mem_cons_of_mem _ member)]
      rfl

theorem le_ofDigitChars (digits : List Char) (start : Nat) :
    start ≤ Nat.ofDigitChars 10 digits start := by
  rw [Nat.ofDigitChars_eq_ofDigitChars_zero]
  exact Nat.le_add_right_of_le (Nat.le_mul_of_pos_left _ (by positivity))

/-- What a further digit makes of a number, as either side writes it. -/
theorem mul_ten_add_digitOf (start : Nat) (c : Char) :
    start * 10 + digitOf c = 10 * start + (c.toNat - '0'.toNat) := by
  rw [mul_comm]
  rfl

/-- Digits that fit into a significand are all absorbed. -/
theorem absorb_digits {digits : List Char} {start : Nat}
    (fits : Nat.ofDigitChars 10 digits start ≤ maxSignificand) :
    absorb start (digits.map digitOf) = (Nat.ofDigitChars 10 digits start, []) := by
  induction digits generalizing start with
  | nil => simp [absorb]
  | cons c digits ih =>
      rw [Nat.ofDigitChars_cons] at fits ⊢
      rw [List.map_cons, absorb, mul_ten_add_digitOf,
        if_pos ((le_ofDigitChars digits _).trans fits), ih fits]

/-- The digits of an exponent are read where they fit into 31 bits. -/
theorem readExponentDigits_units {digits : List Char} (all : ∀ c ∈ digits, c.isDigit = true)
    {start : Nat} (fits : Nat.ofDigitChars 10 digits start < 0x80000000) {rest : List Symbol}
    (stops : Stops rest) :
    readExponentDigits start (units digits ++ rest) =
      .ok (Nat.ofDigitChars 10 digits start, rest) := by
  induction digits generalizing start with
  | nil =>
      cases rest with
      | nil => simp [readExponentDigits]
      | cons unit rest =>
          have none := stops unit rfl
          rw [units_nil, List.nil_append, readExponentDigits, none, Nat.ofDigitChars_nil]
  | cons c digits ih =>
      rw [Nat.ofDigitChars_cons] at fits ⊢
      rw [units_cons, List.cons_append, readExponentDigits,
        digit?_of_isDigit (all c List.mem_cons_self)]
      dsimp only
      rw [mul_ten_add_digitOf, if_pos (lt_of_le_of_lt (le_ofDigitChars digits _) fits),
        ih (fun other member => all other (List.mem_cons_of_mem _ member)) fits]

/-- Digits before which no zero is superfluous. -/
structure IsWhole (digits : List Char) : Prop where
  all : ∀ c ∈ digits, c.isDigit = true
  nonempty : digits ≠ []
  head : digits.length = 1 ∨ digits.head? ≠ some '0'

theorem isDigit_toDigits {n : Nat} {c : Char} (member : c ∈ Nat.toDigits 10 n) :
    c.isDigit = true :=
  Nat.isDigit_of_mem_toDigits (by decide) (by decide) member

/-- A positive number does not start with a zero. -/
theorem head_toDigits {n : Nat} (positive : 0 < n) : (Nat.toDigits 10 n).head? ≠ some '0' := by
  induction n using Nat.strongRecOn with
  | ind n ih =>
      by_cases small : n < 10
      · have chars : ∀ d < 10, 0 < d → Nat.digitChar d ≠ '0' := by decide
        rw [Nat.toDigits_of_lt_base small]
        simpa using chars n small positive
      · rw [Nat.toDigits_of_base_le (by decide) (by omega),
          List.head?_append_of_ne_nil _ Nat.toDigits_ne_nil]
        exact ih (n / 10) (by omega) (by omega)

theorem isWhole_toDigits (n : Nat) : IsWhole (Nat.toDigits 10 n) := by
  refine ⟨fun c member => isDigit_toDigits member, Nat.toDigits_ne_nil, ?_⟩
  rcases Nat.eq_zero_or_pos n with rfl | positive
  · exact .inl rfl
  · exact .inr (head_toDigits positive)

theorem ofDigitChars_lt {digits : List Char} (all : ∀ c ∈ digits, c.isDigit = true) :
    Nat.ofDigitChars 10 digits 0 < 10 ^ digits.length := by
  induction digits with
  | nil => simp
  | cons c digits ih =>
      have rest := ih fun other member => all other (List.mem_cons_of_mem _ member)
      have digit : c.toNat - '0'.toNat ≤ 9 := by
        have most : c.toNat ≤ 57 := by
          have isDigit := all c List.mem_cons_self
          simp only [Char.isDigit, Bool.and_eq_true, decide_eq_true_eq] at isDigit
          exact UInt32.le_iff_toNat_le.1 isDigit.2
        change c.toNat - 48 ≤ 9
        omega
      rw [Nat.ofDigitChars_cons, Nat.ofDigitChars_eq_ofDigitChars_zero, List.length_cons, pow_succ]
      rw [Nat.mul_zero, Nat.zero_add]
      have := Nat.mul_le_mul_left (10 ^ digits.length) digit
      omega

/-! ## The parts of a number -/

/-- A number that starts with digits goes on with a fraction or an exponent, or is an integer. -/
theorem readNumber_whole (negative : Bool) {whole : List Char} (isWhole : IsWhole whole)
    (fits : Nat.ofDigitChars 10 whole 0 ≤ maxSignificand) {rest : List Symbol}
    (stops : Stops rest) :
    (∀ after, rest = .char '.' :: after → readNumber negative (units whole ++ rest) =
      readFraction negative (Nat.ofDigitChars 10 whole 0) 0 after) ∧
    (∀ after, rest = .char 'e' :: after → readNumber negative (units whole ++ rest) =
      readExponent negative (Nat.ofDigitChars 10 whole 0) 0 after) ∧
    (Ends rest → readNumber negative (units whole ++ rest) =
      .ok (ofSignificand negative (Nat.ofDigitChars 10 whole 0), rest)) := by
  obtain ⟨all, nonempty, head⟩ := isWhole
  rw [readNumber, takeDigits_units all stops]
  dsimp only
  split
  next none => exact absurd (List.map_eq_nil_iff.1 none) nonempty
  next zero =>
    obtain ⟨c, more, rfl⟩ := List.exists_cons_of_ne_nil nonempty
    obtain ⟨first, others⟩ := List.cons.inj zero
    rcases head with single | head
    · rw [List.length_cons, Nat.add_eq_right, List.length_eq_zero_iff] at single
      rw [single] at others
      cases others
    · exact absurd (congrArg some (eq_zero_of_digitOf (all c List.mem_cons_self) first).symm) head
  next =>
    rw [absorb_digits fits]
    dsimp only
    refine ⟨?_, ?_, ?_⟩
    · rintro after rfl
      rfl
    · rintro after rfl
      rfl
    · intro ends
      cases rest with
      | nil => rfl
      | cons unit rest => rcases ends unit rfl with rfl | rfl <;> rfl

theorem readFraction_units (negative : Bool) (significand : Nat) (exponent : Int)
    {fraction : List Char} (all : ∀ c ∈ fraction, c.isDigit = true) (nonempty : fraction ≠ [])
    (fits : Nat.ofDigitChars 10 fraction significand ≤ maxSignificand) {rest : List Symbol}
    (stops : Stops rest) :
    readFraction negative significand exponent (units fraction ++ rest) =
      readScaled negative (Nat.ofDigitChars 10 fraction significand) (exponent - fraction.length)
        rest := by
  rw [readFraction, takeDigits_units all stops]
  dsimp only
  split
  next none => exact absurd (List.map_eq_nil_iff.1 none) nonempty
  next =>
    rw [absorb_digits fits]
    simp

theorem readExponent_units (negative : Bool) (significand : Nat) (start : Int)
    {digits : List Char} (all : ∀ c ∈ digits, c.isDigit = true) (nonempty : digits ≠ [])
    (fits : Nat.ofDigitChars 10 digits 0 < 0x80000000) {rest : List Symbol} (stops : Stops rest) :
    readExponent negative significand start (units ('+' :: digits) ++ rest) =
        toDouble negative significand (saturate (start + Nat.ofDigitChars 10 digits 0)) rest ∧
      readExponent negative significand start (units ('-' :: digits) ++ rest) =
        toDouble negative significand (saturate (start - Nat.ofDigitChars 10 digits 0)) rest := by
  obtain ⟨c, more, rfl⟩ := List.exists_cons_of_ne_nil nonempty
  have digit := digit?_of_isDigit (all c List.mem_cons_self)
  have read := readExponentDigits_units all fits stops
  rw [units_cons, List.cons_append] at read
  constructor
  · rw [units_cons, units_cons, List.cons_append, List.cons_append, readExponent]
    simp only [digit, read, Bool.false_eq_true, if_false]
  · rw [units_cons, units_cons, List.cons_append, List.cons_append, readExponent]
    simp only [digit, read, if_true]

/-! ## Whole numbers and decimals -/

/-- Characters that are read as a number, after its sign. -/
structure ReadsNumber (negative : Bool) (chars : List Char) (number : Number) : Prop where
  starts : ∃ c more, chars = c :: more ∧ c.isDigit = true
  reads : ∀ rest, Ends rest → readNumber negative (units chars ++ rest) = .ok (number, rest)

/-- An integer is read from its digits. -/
theorem readsNumber_toDigits (negative : Bool) {n : Nat} (fits : n ≤ maxSignificand) :
    ReadsNumber negative (Nat.toDigits 10 n) (ofSignificand negative n) := by
  have isWhole := isWhole_toDigits n
  obtain ⟨c, more, equal⟩ := List.exists_cons_of_ne_nil isWhole.nonempty
  refine ⟨⟨c, more, equal, isWhole.all c (by simp [equal])⟩, fun rest ends => ?_⟩
  have read := (readNumber_whole negative isWhole (by rwa [Nat.ofDigitChars_ten_toDigits])
    ends.stops).2.2 ends
  rwa [Nat.ofDigitChars_ten_toDigits] at read

theorem readScaled_of_ends (negative : Bool) (significand : Nat) (exponent : Int)
    {rest : List Symbol} (ends : Ends rest) :
    readScaled negative significand exponent rest =
      toDouble negative significand exponent rest := by
  cases rest with
  | nil => rfl
  | cons unit rest => rcases ends unit rfl with rfl | rfl <;> rfl

/-- A decimal with a point is read as a double. -/
theorem readsNumber_plain (negative : Bool) {whole fraction : List Char} (isWhole : IsWhole whole)
    (all : ∀ c ∈ fraction, c.isDigit = true) (nonempty : fraction ≠ [])
    (fits : Nat.ofDigitChars 10 (whole ++ fraction) 0 ≤ maxSignificand) :
    ∃ bits, ReadsNumber negative (whole ++ '.' :: fraction) (.double bits) := by
  have positive := List.length_pos_of_ne_nil nonempty
  rw [Nat.ofDigitChars_append] at fits
  obtain ⟨bits, double⟩ := toDouble_ok negative
    (.inl (show (0 : Int) - fraction.length < 0 by omega))
  obtain ⟨c, more, equal⟩ := List.exists_cons_of_ne_nil isWhole.nonempty
  refine ⟨bits, ⟨c, more ++ '.' :: fraction, by rw [equal]; rfl, isWhole.all c (by simp [equal])⟩,
    fun rest ends => ?_⟩
  rw [units_append, units_cons, List.append_assoc, List.cons_append]
  rw [(readNumber_whole negative isWhole ((le_ofDigitChars fraction _).trans fits)
    (stops_cons rfl _)).1 _ rfl, readFraction_units negative _ 0 all nonempty fits ends.stops,
    readScaled_of_ends _ _ _ ends]
  exact double rest

/-- Zero is written with a point. -/
theorem readsNumber_zero (negative : Bool) :
    ∃ bits, ReadsNumber negative ['0', '.', '0'] (.double bits) := by
  have all : ∀ c ∈ ['0'], c.isDigit = true := by simp
  exact readsNumber_plain negative (isWhole_toDigits 0) all (List.cons_ne_nil _ _) (by decide)

/-- An exponent with its sign. -/
def printExponent (exponent : Int) : List Char :=
  (if exponent < 0 then '-' else '+') :: Nat.toDigits 10 exponent.natAbs

theorem readExponent_printExponent (negative : Bool) (significand : Nat) {start exponent : Int}
    (low : -0x7FFFFFFF ≤ exponent) (high : exponent ≤ 0x7FFFFFFF)
    (low' : -0x80000000 ≤ start + exponent) (high' : start + exponent ≤ 0x7FFFFFFF)
    {rest : List Symbol} (stops : Stops rest) :
    readExponent negative significand start (units (printExponent exponent) ++ rest) =
      toDouble negative significand (start + exponent) rest := by
  obtain ⟨up, down⟩ := readExponent_units negative significand start
    (fun c member => isDigit_toDigits member) Nat.toDigits_ne_nil
    (show Nat.ofDigitChars 10 (Nat.toDigits 10 exponent.natAbs) 0 < 0x80000000 by
      rw [Nat.ofDigitChars_ten_toDigits]; omega) stops
  rw [Nat.ofDigitChars_ten_toDigits] at up down
  rw [printExponent]
  have whole : saturate (start + exponent) = start + exponent := by
    rw [saturate]
    omega
  split
  · rw [down, show start - (exponent.natAbs : Int) = start + exponent by omega, whole]
  · rw [up, show start + (exponent.natAbs : Int) = start + exponent by omega, whole]

/-- The digits after the first with a point before them, if there are any. -/
def printFraction : List Char → List Char
  | [] => []
  | more => '.' :: more

/-- A decimal with an exponent is read as a double, if it does not overflow. -/
theorem readsNumber_scientific (negative : Bool) {c : Char} {more : List Char} {exponent : Int}
    (all : ∀ other ∈ c :: more, other.isDigit = true)
    (fits : Nat.ofDigitChars 10 (c :: more) 0 ≤ maxSignificand)
    (low : -1100 ≤ exponent) (high : exponent ≤ 1100) (short : more.length ≤ 17)
    {bits : UInt64}
    (double : ∀ rest, toDouble negative (Nat.ofDigitChars 10 (c :: more) 0)
      (exponent - more.length) rest = .ok (.double bits, rest)) :
    ReadsNumber negative
      ([c] ++ printFraction more ++ 'e' :: printExponent exponent)
      (.double bits) := by
  refine ⟨⟨c, _, rfl, all c List.mem_cons_self⟩, fun rest ends => ?_⟩
  have isWhole : IsWhole [c] :=
    ⟨fun other member => all other (by simpa using .inl (by simpa using member)),
      List.cons_ne_nil _ _, .inl rfl⟩
  have append : Nat.ofDigitChars 10 (c :: more) 0 =
      Nat.ofDigitChars 10 more (Nat.ofDigitChars 10 [c] 0) :=
    Nat.ofDigitChars_append (l := [c]) (m := more) 0
  have first : Nat.ofDigitChars 10 [c] 0 ≤ maxSignificand :=
    (le_ofDigitChars more _).trans (append ▸ fits)
  cases more with
  | nil =>
      have read := (readNumber_whole negative isWhole first
        (stops_cons (show 'e'.isDigit = false by decide)
          (units (printExponent exponent) ++ rest))).2.1 _ rfl
      have input : units ([c] ++ printFraction [] ++ 'e' :: printExponent exponent) ++ rest =
          units [c] ++ .char 'e' :: (units (printExponent exponent) ++ rest) := by
        simp [printFraction]
      rw [input, read, readExponent_printExponent negative _ (by omega) (by omega) (by omega)
        (by omega) ends.stops, ← double rest, List.length_nil, Nat.cast_zero, sub_zero, zero_add]
  | cons d more =>
      have stops := stops_cons (show 'e'.isDigit = false by decide)
        (units (printExponent exponent) ++ rest)
      have read := (readNumber_whole negative isWhole first
        (stops_cons (show '.'.isDigit = false by decide)
          (units (d :: more) ++ .char 'e' :: (units (printExponent exponent) ++ rest)))).1 _ rfl
      have input : units ([c] ++ printFraction (d :: more) ++ 'e' :: printExponent exponent) ++ rest =
          units [c] ++ .char '.' ::
            (units (d :: more) ++ .char 'e' :: (units (printExponent exponent) ++ rest)) := by
        simp [printFraction]
      have digits : ∀ other ∈ d :: more, other.isDigit = true := fun other member =>
        all other (List.mem_cons_of_mem _ member)
      rw [append] at fits double
      rw [input, read, readFraction_units negative _ 0 digits (List.cons_ne_nil _ _) fits stops,
        readScaled, readExponent_printExponent negative _ (by omega) (by omega) (by omega)
          (by omega) ends.stops, ← double rest]
      congr 1
      omega

/-! ## Shortest decimals -/

/-- The digits of a number without the zeros at its end. -/
def significantDigits (n : Nat) : List Char :=
  ((Nat.toDigits 10 n).reverse.dropWhile (· = '0')).reverse

theorem toDigits_eq_significantDigits (n : Nat) : ∃ zeros,
    Nat.toDigits 10 n = significantDigits n ++ List.replicate zeros '0' := by
  have split := List.takeWhile_append_dropWhile (p := (· = '0')) (l := (Nat.toDigits 10 n).reverse)
  have zeros := List.eq_replicate_of_mem (a := '0')
    (l := (Nat.toDigits 10 n).reverse.takeWhile (· = '0'))
    fun c member => by simpa using List.mem_takeWhile_imp member
  refine ⟨((Nat.toDigits 10 n).reverse.takeWhile (· = '0')).length, ?_⟩
  have reversed := congrArg List.reverse split
  rw [List.reverse_append, List.reverse_reverse] at reversed
  rw [zeros, List.reverse_replicate] at reversed
  exact reversed.symm

/-- **The significant digits of a positive number** start with no zero, and with the zeros that were
left out they are its digits. -/
theorem significantDigits_spec {n : Nat} (positive : 0 < n) :
    IsWhole (significantDigits n) ∧ (significantDigits n).head? ≠ some '0' ∧ ∃ zeros,
      Decimal.digitCount n = (significantDigits n).length + zeros ∧
      n = 10 ^ zeros * Nat.ofDigitChars 10 (significantDigits n) 0 := by
  obtain ⟨zeros, equal⟩ := toDigits_eq_significantDigits n
  have head := head_toDigits positive
  have nonempty : significantDigits n ≠ [] := by
    intro empty
    rw [equal, empty, List.nil_append] at head
    cases zeros with
    | zero =>
        rw [empty] at equal
        exact Nat.toDigits_ne_nil equal
    | succ zeros => exact head rfl
  rw [equal, List.head?_append_of_ne_nil _ nonempty] at head
  refine ⟨⟨fun c member => isDigit_toDigits (n := n) ?_, nonempty, .inr head⟩, head, zeros, ?_, ?_⟩
  · rw [equal]
    exact List.mem_append_left _ member
  · rw [Decimal.digitCount, equal, List.length_append, List.length_replicate]
  · have worth := Nat.ofDigitChars_ten_toDigits (n := n)
    rw [equal, Nat.ofDigitChars_append, Nat.ofDigitChars_replicate_zero] at worth
    exact worth.symm

theorem printScientific_eq {decimal : Decimal.Scientific} (positive : 0 < decimal.digits)
    {digits : List Char} (digits_eq : significantDigits decimal.digits = digits) :
    printScientific decimal =
      if decimal.exponent < -5 ∨ 15 < decimal.exponent then
        digits.take 1 ++ printFraction (digits.drop 1) ++ 'e' :: printExponent decimal.exponent
      else if decimal.exponent < 0 then
        '0' :: '.' :: List.replicate (decimal.exponent.natAbs - 1) '0' ++ digits
      else
        (digits ++ List.replicate (decimal.exponent.toNat + 1 - digits.length) '0').take
            (decimal.exponent.toNat + 1) ++
          '.' :: (if (digits.drop (decimal.exponent.toNat + 1)).isEmpty then ['0']
            else digits.drop (decimal.exponent.toNat + 1)) := by
  have some : digits.isEmpty = false := by
    have nonempty := (significantDigits_spec positive).1.nonempty
    rw [digits_eq] at nonempty
    simpa using nonempty
  rw [printScientific]
  simp only [← significantDigits.eq_def, digits_eq, some, Bool.false_eq_true, if_false]
  rfl

/-- A decimal whose point stands among its digits or after the zeros that follow them. -/
theorem readsNumber_padded (negative : Bool) {digits : List Char} (isWhole : IsWhole digits)
    (head : digits.head? ≠ some '0') {places : Nat} (short : digits.length ≤ 17)
    (small : places ≤ 15) :
    ∃ bits, ReadsNumber negative
      ((digits ++ List.replicate (places + 1 - digits.length) '0').take (places + 1) ++
        '.' :: (if (digits.drop (places + 1)).isEmpty then ['0'] else digits.drop (places + 1)))
      (.double bits) := by
  obtain ⟨padded, padded_eq⟩ : ∃ padded,
    padded = digits ++ List.replicate (places + 1 - digits.length) '0' := ⟨_, rfl⟩
  have long : (padded.take (places + 1)).length = places + 1 := by
    rw [padded_eq, List.length_take, List.length_append, List.length_replicate]
    omega
  have digit : ∀ c ∈ padded, c.isDigit = true := by
    intro c member
    rcases List.mem_append.1 (padded_eq ▸ member) with digit | zero
    · exact isWhole.all c digit
    · rw [(List.mem_replicate.1 zero).2]
      rfl
  have whole : IsWhole (padded.take (places + 1)) := by
    refine ⟨fun c member => digit c (List.mem_of_mem_take member), ?_, .inr ?_⟩
    · exact List.ne_nil_of_length_pos (by omega)
    · rw [List.head?_take, if_neg (by omega), padded_eq,
        List.head?_append_of_ne_nil _ isWhole.nonempty]
      exact head
  obtain ⟨fraction, fraction_eq⟩ : ∃ fraction, fraction =
    if (digits.drop (places + 1)).isEmpty then ['0'] else digits.drop (places + 1) := ⟨_, rfl⟩
  have fraction_spec : (∀ c ∈ fraction, c.isDigit = true) ∧ fraction ≠ [] ∧
      places + 1 + fraction.length ≤ 17 := by
    rw [fraction_eq]
    split
    next => exact ⟨by simp, List.cons_ne_nil _ _, by rw [List.length_singleton]; omega⟩
    next more =>
      rw [List.isEmpty_iff] at more
      refine ⟨fun c member => isWhole.all c (List.mem_of_mem_drop member), more, ?_⟩
      have := List.length_pos_of_ne_nil more
      rw [List.length_drop] at this ⊢
      omega
  obtain ⟨all, nonempty, total⟩ := fraction_spec
  rw [← padded_eq, ← fraction_eq]
  refine readsNumber_plain negative whole all nonempty ?_
  have digits_all : ∀ c ∈ padded.take (places + 1) ++ fraction, c.isDigit = true := by
    intro c member
    rcases List.mem_append.1 member with first | second
    · exact whole.all c first
    · exact all c second
  refine (ofDigitChars_lt digits_all).le.trans (le_trans (Nat.pow_le_pow_right (by decide) ?_)
    (show 10 ^ 17 ≤ maxSignificand by decide))
  rw [List.length_append, long]
  exact total

/-- A decimal without a digit before its point. -/
theorem readsNumber_leadingZeros (negative : Bool) {digits : List Char} (isWhole : IsWhole digits)
    (fits : Nat.ofDigitChars 10 digits 0 ≤ maxSignificand) (count : Nat) :
    ∃ bits, ReadsNumber negative ('0' :: '.' :: List.replicate count '0' ++ digits)
      (.double bits) := by
  have all : ∀ c ∈ List.replicate count '0' ++ digits, c.isDigit = true := by
    intro c member
    rcases List.mem_append.1 member with zero | digit
    · rw [(List.mem_replicate.1 zero).2]
      rfl
    · exact isWhole.all c digit
  have worth : Nat.ofDigitChars 10 (Nat.toDigits 10 0 ++ (List.replicate count '0' ++ digits)) 0 =
      Nat.ofDigitChars 10 digits 0 := by
    rw [Nat.ofDigitChars_append, Nat.ofDigitChars_append, Nat.ofDigitChars_ten_toDigits,
      Nat.ofDigitChars_replicate_zero, Nat.mul_zero]
  exact readsNumber_plain negative (isWhole_toDigits 0) all
    (List.append_ne_nil_of_right_ne_nil _ isWhole.nonempty) (worth ▸ fits)

/-- The digits of a shortest decimal are those of its significand, with zeros behind them. -/
theorem length_significantDigits {decimal : Decimal.Scientific} (fills : decimal.Fills)
    {digits : List Char} {zeros : Nat}
    (count : Decimal.digitCount decimal.digits = digits.length + zeros) :
    decimal.length = digits.length + zeros := by
  rw [← count]
  have most := (Nat.length_toDigits_le_iff (by decide) fills.length_pos).2 fills.upper
  have least := (Decimal.lt_pow_digitCount decimal.digits).trans_le' fills.lower
  have := (Nat.pow_lt_pow_iff_right (by decide)).1 least
  change Decimal.digitCount decimal.digits ≤ decimal.length at most
  omega

/-- What a decimal is worth in units of the last of its significant digits. -/
theorem value_eq_significand {decimal : Decimal.Scientific} {significand zeros after : Nat}
    (worth : decimal.digits = 10 ^ zeros * significand)
    (length : decimal.length = after + 1 + zeros) :
    decimal.value = significand * 10 ^ (decimal.exponent - after) := by
  rw [Decimal.Scientific.value, worth, length]
  push_cast
  rw [mul_comm ((10 : ℚ) ^ zeros), mul_assoc, ← zpow_natCast, ← zpow_add₀ (by norm_num)]
  congr 2
  ring

/-- **A shortest decimal is read as a double**: with an exponent where it is worth no more than the
largest double as it is written, and otherwise always. -/
theorem readsNumber_printScientific (negative : Bool) {decimal : Decimal.Scientific}
    (fills : decimal.Fills) (short : decimal.length ≤ 17) (low : -1100 ≤ decimal.exponent)
    (high : decimal.exponent ≤ 1100) (bound : decimal.value ≤ (limit : ℚ)) :
    ∃ bits, ReadsNumber negative (printScientific decimal) (.double bits) := by
  have positive : 0 < decimal.digits :=
    lt_of_lt_of_le (by positivity) fills.lower
  obtain ⟨isWhole, head, zeros, count, worth⟩ := significantDigits_spec positive
  obtain ⟨digits, digits_eq⟩ : ∃ digits, significantDigits decimal.digits = digits := ⟨_, rfl⟩
  rw [printScientific_eq positive digits_eq]
  rw [digits_eq] at isWhole head count worth
  have length := length_significantDigits fills count
  obtain ⟨significand, significand_eq⟩ : ∃ significand, Nat.ofDigitChars 10 digits 0 = significand :=
    ⟨_, rfl⟩
  rw [significand_eq] at worth
  have small : significand < 10 ^ 17 := by
    refine lt_of_lt_of_le (significand_eq ▸ ofDigitChars_lt isWhole.all) ?_
    exact Nat.pow_le_pow_right (by decide) (by omega)
  have fits : ∀ {n : Nat}, n < 10 ^ 17 → n ≤ maxSignificand := fun less =>
    le_trans less.le (by decide)
  split
  next =>
    obtain ⟨c, more, rfl⟩ := List.exists_cons_of_ne_nil isWhole.nonempty
    have significand_pos : 0 < significand := by
      refine Nat.pos_of_ne_zero fun zero => ?_
      rw [zero, Nat.mul_zero] at worth
      omega
    have value := value_eq_significand worth length
    have scales : decimal.exponent - more.length < 0 ∨ ∃ places : Nat,
        decimal.exponent - more.length = places ∧ 0 < significand ∧ significand < 10 ^ 17 ∧
          significand * 10 ^ places ≤ limit := by
      rcases lt_or_ge (decimal.exponent - more.length) 0 with down | up
      · exact .inl down
      · obtain ⟨places, equal⟩ := Int.eq_ofNat_of_zero_le up
        refine .inr ⟨places, equal, significand_pos, small, ?_⟩
        rw [value, equal, zpow_natCast] at bound
        exact_mod_cast bound
    obtain ⟨bits, double⟩ := toDouble_ok negative scales
    rw [← significand_eq] at double
    rw [List.length_cons] at length
    exact ⟨bits, readsNumber_scientific negative isWhole.all (significand_eq ▸ fits small) low high
      (by omega) double⟩
  next plain =>
    split
    next => exact readsNumber_leadingZeros negative isWhole (significand_eq ▸ fits small) _
    next => exact readsNumber_padded negative isWhole head (by omega) (by omega)

/-! ## Numbers as values -/

/-- The numbers that are read: integers of at most 64 bits and finite doubles. -/
def Number.IsSound : Number → Prop
  | .integer n => -0x8000000000000000 ≤ n ∧ n ≤ maxSignificand
  | .double bits => Decimal.IsFinite bits

/-- What is read from the digits of an integer is sound. -/
theorem isSound_ofSignificand (negative : Bool) {significand : Nat}
    (fits : significand ≤ maxSignificand) : (ofSignificand negative significand).IsSound := by
  rw [ofSignificand]
  split
  · split
    · exact Decimal.finite_neg (Decimal.finite_toFloat _)
    next small =>
      change -0x8000000000000000 ≤ -(significand : Int) ∧ -(significand : Int) ≤ maxSignificand
      omega
  · change -0x8000000000000000 ≤ (significand : Int) ∧ (significand : Int) ≤ maxSignificand
    omega

/-- The shortest decimal of a finite double is worth no more than the largest as it is written. -/
theorem value_shortest_le {bits : UInt64} (finite : Decimal.IsFinite bits)
    (nonzero : bits <<< 1 ≠ 0) : (Decimal.shortest bits).value ≤ (limit : ℚ) := by
  rcases Decimal.shortest_le finite nonzero with top | below
  · refine le_of_eq ?_
    rw [top, limit, Decimal.Scientific.value, Decimal.largest, Nat.cast_mul, Nat.cast_pow]
    rfl
  · refine below.trans ?_
    have table : 18014398509481981 * 2 ^ 970 ≤ limit := by decide +kernel
    have cast : Decimal.secondEnd = ((18014398509481981 * 2 ^ 970 : Nat) : ℚ) := by
      rw [Decimal.secondEnd, Nat.cast_mul, Nat.cast_pow]
      norm_num
    rw [cast]
    exact_mod_cast table

/-- The sign of a number. -/
def signOf (negative : Bool) : List Char :=
  if negative then ['-'] else []

/-- The characters of a sound number, and the number they are read as. -/
theorem readsNumber_printNumber {number : Number} (sound : number.IsSound) :
    ∃ negative chars again, printNumber number = signOf negative ++ chars ∧
      ReadsNumber negative chars again := by
  cases number with
  | integer n =>
      obtain ⟨least, most⟩ := sound
      cases n with
      | ofNat n => exact ⟨false, _, _, rfl, readsNumber_toDigits false (Int.ofNat_le.1 most)⟩
      | negSucc n =>
          exact ⟨true, _, _, rfl, readsNumber_toDigits true (by rw [maxSignificand]; omega)⟩
  | double bits =>
      obtain ⟨negative, sign⟩ : ∃ negative,
          (if bits >>> 63 = 1 then ['-'] else []) = signOf negative := by
        split
        · exact ⟨true, rfl⟩
        · exact ⟨false, rfl⟩
      have read : ∃ chars bits', printDouble bits = signOf negative ++ chars ∧
          ReadsNumber negative chars (.double bits') := by
        rw [printDouble]
        simp only [sign]
        split
        next =>
          obtain ⟨bits', reads⟩ := readsNumber_zero negative
          exact ⟨_, bits', rfl, reads⟩
        next nonzero =>
          rcases Decimal.shortest_spec sound nonzero with zero | ⟨fills, short, _, low, high⟩
          · rw [zero]
            obtain ⟨bits', reads⟩ := readsNumber_zero negative
            exact ⟨_, bits', rfl, reads⟩
          · obtain ⟨bits', reads⟩ := readsNumber_printScientific negative fills short low high
              (value_shortest_le sound nonzero)
            exact ⟨_, bits', rfl, reads⟩
      obtain ⟨chars, bits', printed, reads⟩ := read
      exact ⟨negative, chars, _, printed, reads⟩

theorem readValue_number (depth : Nat) {negative : Bool} {chars : List Char} {number : Number}
    (reads : ReadsNumber negative chars number) {rest : List Symbol} (ends : Ends rest) :
    readValue (depth + 1) (units (signOf negative ++ chars) ++ rest) =
      .ok (.number number, rest) := by
  have read := reads.reads rest ends
  cases negative with
  | true =>
      change readValue (depth + 1) (.char '-' :: (units chars ++ rest)) = _
      rw [readValue, skipSpace_of_char (by decide)]
      simp only [read, Results.ok_bind]
      rfl
  | false =>
      obtain ⟨c, more, rfl, digit⟩ := reads.starts
      change readValue (depth + 1) (.char c :: (units more ++ rest)) = _
      rw [readValue, skipSpace_of_char (isSpace_of_isDigit digit)]
      split
      next none => cases none
      next equal => cases equal; exact absurd digit (by decide)
      next equal => cases equal; exact absurd digit (by decide)
      next equal => cases equal; exact absurd digit (by decide)
      next equal => cases equal; exact absurd digit (by decide)
      next equal => cases equal; exact absurd digit (by decide)
      next equal => cases equal; exact absurd digit (by decide)
      next equal => cases equal; exact absurd digit (by decide)
      next equal =>
        cases equal
        rw [units_cons, List.cons_append] at read
        rw [digit?_of_isDigit digit, Option.isSome_some, if_pos rfl, read]
        rfl

/-- The number that the text of a number is read as. -/
def Number.reread (number : Number) : Number :=
  match parseSymbols (units (printNumber number)) with
  | .ok (.number again) => again
  | _ => number

/-- A number rereads as what its characters are read as. -/
theorem reread_eq_of_reads {number again : Number} {negative : Bool} {chars : List Char}
    (printed : printNumber number = signOf negative ++ chars)
    (reads : ReadsNumber negative chars again) : number.reread = again := by
  have nothing : Ends [] := by simp [Ends]
  have whole := readValue_number 127 reads nothing
  rw [List.append_nil] at whole
  rw [Number.reread, printed, parseSymbols, readDocument, depthLimit, whole]
  rfl

/-- An integer rereads as itself. -/
theorem reread_integer {n : Int} (sound : (Number.integer n).IsSound) :
    (Number.integer n).reread = .integer n := by
  obtain ⟨least, most⟩ := sound
  cases n with
  | ofNat n =>
      have printed : printNumber (.integer n) = signOf false ++ Nat.toDigits 10 n := rfl
      exact reread_eq_of_reads printed (readsNumber_toDigits false (Int.ofNat_le.1 most))
  | negSucc n =>
      have printed : printNumber (.integer (.negSucc n)) =
          signOf true ++ Nat.toDigits 10 (n + 1) := rfl
      have fits : ¬ (n + 1 = 0 ∨ 0x8000000000000000 < n + 1) := by omega
      rw [reread_eq_of_reads printed (readsNumber_toDigits true (by rw [maxSignificand]; omega)),
        ofSignificand, if_pos rfl, if_neg fits]
      rfl

/-- **A sound number is read** as one and the same number wherever it stands. -/
theorem readsAs_number {number : Number} (sound : number.IsSound) (depth level : Nat) :
    ReadsAs (depth + 1) level (.number number) (.number number.reread) := by
  obtain ⟨negative, chars, again, printed, reads⟩ := readsNumber_printNumber sound
  refine ⟨?_, fun rest ends => ?_⟩
  · obtain ⟨c, more, rfl, digit⟩ := reads.starts
    change ∃ c chars, printNumber number = c :: chars ∧ _
    rw [printed]
    cases negative with
    | true => exact ⟨'-', _, rfl, by decide, by decide⟩
    | false =>
        exact ⟨c, more, rfl, isSpace_of_isDigit digit, ne_of_isDigit digit (by decide)⟩
  · change readValue (depth + 1) (units (printNumber number) ++ rest) = _
    rw [printed, readValue_number depth reads ends, reread_eq_of_reads printed reads]

end Uplift.Json
