import Mathlib.Algebra.Order.Field.Power
import Mathlib.Algebra.Order.Field.Rat
import Mathlib.Tactic.FieldSimp
import Mathlib.Tactic.Linarith
import Mathlib.Tactic.NormNum
import Mathlib.Tactic.Positivity
import Mathlib.Tactic.Ring
import Uplift.Decimal.Shortest

/-!
# How large the shortest decimal is

The shortest decimal of a double has as many digits as it says, at most seventeen
(`Scientific.Fills`), and it lies in the interval of the double (`shortest_spec`).  No decimal that
is found can therefore lie above the interval of the largest double, and of that one the decimal is
known (`shortest_largest`): every other is at most the upper end of the second largest
(`shortest_le`).
-/

set_option autoImplicit false

namespace Uplift.Decimal

/-! ## Powers -/

/-- A power with a whole exponent as a quotient of natural powers, one of which is one. -/
theorem zpow_eq_div (base : ℚ) (exponent : Int) :
    base ^ exponent = base ^ exponent.toNat / base ^ (-exponent).toNat := by
  rcases le_total 0 exponent with up | down
  · obtain ⟨n, rfl⟩ := Int.eq_ofNat_of_zero_le up
    simp
  · obtain ⟨n, equal⟩ := Int.eq_ofNat_of_zero_le (show 0 ≤ -exponent by omega)
    obtain rfl : exponent = -(n : Int) := by omega
    simp

theorem digitCount_pos (n : Nat) : 0 < digitCount n :=
  Nat.length_toDigits_pos

theorem lt_pow_digitCount (n : Nat) : n < 10 ^ digitCount n :=
  (Nat.length_toDigits_le_iff (by decide) (digitCount_pos n)).1 le_rfl

theorem pow_digitCount_le {n : Nat} (positive : 0 < n) : 10 ^ (digitCount n - 1) ≤ n := by
  have count := digitCount_pos n
  by_contra small
  rw [not_le] at small
  rcases Nat.eq_zero_or_pos (digitCount n - 1) with one | more
  · rw [one, pow_zero] at small
    omega
  · have shorter := (Nat.length_toDigits_le_iff (by decide) more).2 small
    change digitCount n ≤ digitCount n - 1 at shorter
    omega

/-- **The magnitude of a quotient** is the exponent of the decade it lies in. -/
theorem magnitude_spec {num den : Nat} (num_pos : 0 < num) (den_pos : 0 < den) :
    (10 : ℚ) ^ magnitude num den ≤ num / den ∧
      (num / den : ℚ) < 10 ^ (magnitude num den + 1) := by
  have num_pos' : (0 : ℚ) < num := by exact_mod_cast num_pos
  have den_pos' : (0 : ℚ) < den := by exact_mod_cast den_pos
  rw [magnitude]
  split
  next large =>
    have quotient_pos : 0 < num / den := Nat.div_pos large den_pos
    have count := digitCount_pos (num / den)
    have lower := (Nat.le_div_iff_mul_le den_pos).1 (pow_digitCount_le quotient_pos)
    have upper := (Nat.div_lt_iff_lt_mul den_pos).1 (lt_pow_digitCount (num / den))
    have exponent :
        (digitCount (num / den) : Int) - 1 = ((digitCount (num / den) - 1 : Nat) : Int) := by
      omega
    rw [sub_add_cancel, exponent, zpow_natCast, zpow_natCast, le_div_iff₀ den_pos',
      div_lt_iff₀ den_pos']
    exact ⟨by exact_mod_cast lower, by exact_mod_cast upper⟩
  next small =>
    have quotient_pos : 0 < den / num := Nat.div_pos (by omega) num_pos
    have count := digitCount_pos (den / num)
    have lower := (Nat.le_div_iff_mul_le num_pos).1 (pow_digitCount_le quotient_pos)
    have upper := (Nat.div_lt_iff_lt_mul num_pos).1 (lt_pow_digitCount (den / num))
    obtain ⟨places, equal⟩ : ∃ places, digitCount (den / num) = places + 1 :=
      ⟨digitCount (den / num) - 1, by omega⟩
    simp only [equal, Nat.add_sub_cancel, Nat.pow_eq] at lower upper ⊢
    have upper' : (den : ℚ) < 10 ^ (places + 1) * num := by exact_mod_cast upper
    have lower' : (10 : ℚ) ^ places * num ≤ den := by exact_mod_cast lower
    split
    next exact_ =>
      have exact' : (den : ℚ) ≤ num * 10 ^ places := by exact_mod_cast exact_
      rw [zpow_add₀ (by norm_num), zpow_neg, zpow_natCast, zpow_one, inv_mul_eq_div,
        inv_le_iff_one_le_mul₀ (by positivity), div_lt_div_iff₀ den_pos' (by positivity),
        div_mul_eq_mul_div, le_div_iff₀ den_pos']
      exact ⟨by linarith, by nlinarith⟩
    next between =>
      have between' : (num : ℚ) * 10 ^ places < den := by
        exact_mod_cast not_le.1 between
      have exponent : -((places + 1 : Nat) : Int) + 1 = -(places : Int) := by
        push_cast
        ring
      rw [exponent, zpow_neg, zpow_neg, zpow_natCast, zpow_natCast,
        inv_le_iff_one_le_mul₀ (by positivity), div_mul_eq_mul_div, le_div_iff₀ den_pos',
        lt_inv_comm₀ (by positivity) (by positivity), inv_div, lt_div_iff₀ num_pos']
      exact ⟨by linarith, by linarith⟩

/-! ## Decimals on a grid -/

namespace Scientific

/-- The number that a decimal stands for. -/
def value (decimal : Scientific) : ℚ :=
  decimal.digits * 10 ^ (decimal.exponent - decimal.length + 1)

/-- The digits of a decimal are as many as it says, and the first is not zero. -/
structure Fills (decimal : Scientific) : Prop where
  length_pos : 0 < decimal.length
  lower : 10 ^ (decimal.length - 1) ≤ decimal.digits
  upper : decimal.digits < 10 ^ decimal.length

end Scientific

namespace Interval

variable {interval : Interval}

/-- A decimal in the interval is at most its upper end. -/
theorem le_high_of_contains (den_pos : 0 < interval.den) {digits : Nat} {place : Int}
    (inside : interval.contains digits place = true) :
    (digits : ℚ) * 10 ^ place ≤ interval.high / interval.den := by
  have bound : digits * 10 ^ place.toNat * interval.den ≤ interval.high * 10 ^ (-place).toNat := by
    rw [contains] at inside
    simp only [Nat.pow_eq] at inside
    split at inside
    · simp only [Bool.and_eq_true, decide_eq_true_eq] at inside
      exact inside.2
    · simp only [Bool.and_eq_true, decide_eq_true_eq] at inside
      exact inside.2.le
  have den_pos' : (0 : ℚ) < interval.den := by exact_mod_cast den_pos
  have bound' : (digits : ℚ) * 10 ^ place.toNat * interval.den ≤
      interval.high * 10 ^ (-place).toNat := by exact_mod_cast bound
  rw [zpow_eq_div, ← mul_div_assoc, div_le_div_iff₀ (by positivity) den_pos']
  exact bound'

/-- The decimal of a number of digits on the grid of a length, the first place above it included. -/
def answer (interval : Interval) (length digits : Nat) : Scientific :=
  let top := magnitude interval.value interval.den
  if digits = Nat.pow 10 length then ⟨Nat.pow 10 (length - 1), length, top + 1⟩
  else ⟨digits, length, top⟩

theorem answer_spec {length digits : Nat} (length_pos : 0 < length)
    (lower : 10 ^ (length - 1) ≤ digits) (upper : digits ≤ 10 ^ length) :
    (interval.answer length digits).Fills ∧
      (interval.answer length digits).length = length ∧
      (interval.answer length digits).value =
        digits * 10 ^ (magnitude interval.value interval.den - (length : Int) + 1) ∧
      magnitude interval.value interval.den ≤ (interval.answer length digits).exponent ∧
      (interval.answer length digits).exponent ≤ magnitude interval.value interval.den + 1 := by
  rw [answer]
  simp only [Nat.pow_eq]
  split
  next carry =>
    have shorter : 10 ^ (length - 1) < 10 ^ length :=
      Nat.pow_lt_pow_right (by decide) (by omega)
    refine ⟨⟨length_pos, le_rfl, shorter⟩, rfl, ?_, by simp, le_rfl⟩
    have ten : (10 : ℚ) ≠ 0 := by norm_num
    rw [Scientific.value, carry]
    push_cast
    rw [← zpow_natCast, ← zpow_natCast, ← zpow_add₀ ten, ← zpow_add₀ ten]
    congr 1
    push_cast [Nat.cast_sub (show 1 ≤ length from length_pos)]
    ring
  next within =>
    exact ⟨⟨length_pos, lower, lt_of_le_of_ne upper within⟩, rfl, rfl, le_rfl, by simp⟩

/-- The number of units of the last place that a value fills, on the grid of a length, has as many
digits as the length says. -/
theorem units_spec (value_pos : 0 < interval.value) (den_pos : 0 < interval.den) {length : Nat}
    (length_pos : 0 < length) {place : Int}
    (place_eq : place = magnitude interval.value interval.den - (length : Int) + 1) :
    10 ^ (length - 1) ≤
        interval.value * 10 ^ (-place).toNat / (interval.den * 10 ^ place.toNat) ∧
      interval.value * 10 ^ (-place).toNat / (interval.den * 10 ^ place.toNat) < 10 ^ length := by
  obtain ⟨lower, upper⟩ := magnitude_spec value_pos den_pos
  have den_pos' : (0 : ℚ) < interval.den := by exact_mod_cast den_pos
  have den_pos'' : 0 < interval.den * 10 ^ place.toNat := Nat.mul_pos den_pos (by positivity)
  have ten : (10 : ℚ) ≠ 0 := by norm_num
  have unit : ((interval.value * 10 ^ (-place).toNat : Nat) : ℚ) /
      ((interval.den * 10 ^ place.toNat : Nat) : ℚ) =
        interval.value / interval.den / 10 ^ place := by
    push_cast
    rw [zpow_eq_div]
    field_simp
  constructor
  · rw [Nat.le_div_iff_mul_le den_pos'']
    have : ((10 ^ (length - 1) : Nat) : ℚ) ≤ interval.value / interval.den / 10 ^ place := by
      rw [le_div_iff₀ (by positivity)]
      refine le_of_eq_of_le ?_ lower
      push_cast
      rw [← zpow_natCast, ← zpow_add₀ ten, place_eq]
      congr 1
      push_cast [Nat.cast_sub (show 1 ≤ length from length_pos)]
      ring
    rw [← unit, le_div_iff₀ (by exact_mod_cast den_pos'')] at this
    exact_mod_cast this
  · rw [Nat.div_lt_iff_lt_mul den_pos'']
    have : interval.value / interval.den / 10 ^ place < ((10 ^ length : Nat) : ℚ) := by
      rw [div_lt_iff₀ (by positivity)]
      refine lt_of_lt_of_eq upper ?_
      push_cast
      rw [← zpow_natCast, ← zpow_add₀ ten, place_eq]
      congr 1
      ring
    rw [← unit, div_lt_iff₀ (by exact_mod_cast den_pos'')] at this
    exact_mod_cast this

/-- A grid gives the decimal below the value or the one above it, and only from the interval. -/
theorem onGrid_cases {length : Nat} {found : Scientific} {place : Int}
    (place_eq : place = magnitude interval.value interval.den - (length : Int) + 1) {below : Nat}
    (below_eq : below =
      interval.value * 10 ^ (-place).toNat / (interval.den * 10 ^ place.toNat))
    (result : interval.onGrid length = some found) :
    ∃ digits, (digits = below ∨ digits = below + 1) ∧ interval.contains digits place = true ∧
      found = interval.answer length digits := by
  rw [onGrid] at result
  simp only [← place_eq, Nat.pow_eq, ← below_eq] at result
  split at result
  next both =>
    split at result
    · exact ⟨below, .inl rfl, both.1.2, (Option.some.inj result).symm⟩
    · exact ⟨below + 1, .inr rfl, both.2, (Option.some.inj result).symm⟩
  next =>
    split at result
    next low => exact ⟨below, .inl rfl, low.2, (Option.some.inj result).symm⟩
    next =>
      split at result
      next high => exact ⟨below + 1, .inr rfl, high, (Option.some.inj result).symm⟩
      next => cases result

/-- **What a grid gives** has as many digits as asked for, is of the magnitude of the value or the
next, and is at most the upper end of the interval. -/
theorem onGrid_spec (value_pos : 0 < interval.value) (den_pos : 0 < interval.den) {length : Nat}
    (length_pos : 0 < length) {found : Scientific} (result : interval.onGrid length = some found) :
    found.Fills ∧ found.length = length ∧ found.value ≤ interval.high / interval.den ∧
      magnitude interval.value interval.den ≤ found.exponent ∧
      found.exponent ≤ magnitude interval.value interval.den + 1 := by
  obtain ⟨lower, upper⟩ := units_spec value_pos den_pos length_pos rfl
  obtain ⟨digits, near, inside, rfl⟩ := onGrid_cases rfl rfl result
  have least : 10 ^ (length - 1) ≤ digits := by
    rcases near with rfl | rfl
    · exact lower
    · exact lower.trans (Nat.le_succ _)
  have most : digits ≤ 10 ^ length := by
    rcases near with rfl | rfl
    · exact upper.le
    · exact upper
  obtain ⟨fills, long, value, first, second⟩ := interval.answer_spec length_pos least most
  refine ⟨fills, long, ?_, first, second⟩
  rw [value]
  exact le_high_of_contains den_pos inside

/-- The first grid with a decimal is one of those that were tried. -/
theorem search_spec (value_pos : 0 < interval.value) (den_pos : 0 < interval.den) {limit : Nat}
    {found : Scientific} (result : interval.search limit = some found) :
    found.Fills ∧ found.length ≤ limit ∧ found.value ≤ interval.high / interval.den ∧
      magnitude interval.value interval.den ≤ found.exponent ∧
      found.exponent ≤ magnitude interval.value interval.den + 1 := by
  obtain ⟨n, among, result⟩ := List.exists_of_findSome?_eq_some result
  obtain ⟨fills, long, rest⟩ := onGrid_spec value_pos den_pos n.succ_pos result
  exact ⟨fills, long ▸ List.mem_range.1 among, rest⟩

/-- The value of the interval of a double, and its upper end. -/
theorem ofParts_spec (mantissa : Nat) (exponent : Int) (narrow : Bool) :
    0 < (ofParts mantissa exponent narrow).den ∧
      (((ofParts mantissa exponent narrow).value : ℚ) / (ofParts mantissa exponent narrow).den =
        mantissa * 2 ^ exponent) ∧
      (((ofParts mantissa exponent narrow).high : ℚ) / (ofParts mantissa exponent narrow).den =
        (mantissa + 1 / 2) * 2 ^ exponent) := by
  have quarter : (2 : ℚ) ^ exponent =
      4 * (2 ^ (exponent - 2).toNat / 2 ^ (2 - exponent).toNat) := by
    have split := zpow_eq_div 2 (exponent - 2)
    rw [neg_sub] at split
    rw [← split, show exponent = 2 + (exponent - 2) by ring, zpow_add₀ (by norm_num)]
    norm_num
  refine ⟨Nat.pos_of_ne_zero (by simp [ofParts]), ?_, ?_⟩
  · rw [quarter]
    simp only [ofParts, Nat.pow_eq]
    push_cast
    ring
  · rw [quarter]
    simp only [ofParts, Nat.pow_eq]
    push_cast
    ring

end Interval

/-! ## Doubles -/

/-- The fraction of a double. -/
def fraction (bits : UInt64) : Nat :=
  (bits &&& 0xFFFFFFFFFFFFF).toNat

/-- The exponent of a double as it is stored. -/
def biased (bits : UInt64) : Nat :=
  ((bits >>> 52) &&& 0x7FF).toNat

/-- The bits of a finite double. -/
def IsFinite (bits : UInt64) : Prop :=
  biased bits ≠ 0x7FF

/-- The mantissa and the exponent of a finite double. -/
def parts (bits : UInt64) : Nat × Int :=
  if biased bits = 0 then (fraction bits, -1074)
  else (fraction bits + 0x10000000000000, (biased bits : Int) - 1075)

theorem fraction_eq (bits : UInt64) : fraction bits = bits.toNat % 2 ^ 52 := by
  rw [fraction, UInt64.toNat_and]
  exact Nat.and_two_pow_sub_one_eq_mod bits.toNat 52

theorem biased_eq (bits : UInt64) : biased bits = bits.toNat / 2 ^ 52 % 2 ^ 11 := by
  rw [biased, UInt64.toNat_and, UInt64.toNat_shiftRight, Nat.shiftRight_eq_div_pow]
  exact Nat.and_two_pow_sub_one_eq_mod _ 11

/-- Bits that are not those of a zero. -/
theorem nonzero_iff (bits : UInt64) :
    bits <<< 1 ≠ 0 ↔ fraction bits ≠ 0 ∨ biased bits ≠ 0 := by
  have small := bits.toNat_lt
  have shifted : (bits <<< 1).toNat = bits.toNat * 2 % 2 ^ 64 := by
    rw [UInt64.toNat_shiftLeft, Nat.shiftLeft_eq]
    rfl
  rw [fraction_eq, biased_eq, ne_eq, ← UInt64.toNat_inj, shifted, UInt64.toNat_zero]
  omega

theorem shortest_eq (bits : UInt64) : ∃ narrow,
    shortest bits =
      ((Interval.ofParts (parts bits).1 (parts bits).2 narrow).search 17).getD ⟨0, 1, 0⟩ := by
  rw [shortest, parts]
  simp only [← fraction.eq_def, ← biased.eq_def]
  split
  · exact ⟨false, rfl⟩
  · exact ⟨_, rfl⟩

theorem parts_spec {bits : UInt64} (finite : IsFinite bits) (nonzero : bits <<< 1 ≠ 0) :
    0 < (parts bits).1 ∧ (parts bits).1 < 2 ^ 53 ∧ -1074 ≤ (parts bits).2 ∧
      (parts bits).2 ≤ 971 := by
  rw [nonzero_iff] at nonzero
  rw [IsFinite] at finite
  have small : fraction bits < 2 ^ 52 := by
    rw [fraction_eq]
    omega
  have low : biased bits < 2 ^ 11 := by
    rw [biased_eq]
    omega
  rw [parts]
  split <;> simp only <;> omega

/-- **The shortest decimal of a double** has at most seventeen digits, as many as it says, and is at
most the upper end of the interval of the double. -/
theorem shortest_spec {bits : UInt64} (finite : IsFinite bits) (nonzero : bits <<< 1 ≠ 0) :
    shortest bits = ⟨0, 1, 0⟩ ∨
      (shortest bits).Fills ∧ (shortest bits).length ≤ 17 ∧
        (shortest bits).value ≤ ((parts bits).1 + 1 / 2) * 2 ^ (parts bits).2 ∧
        -1100 ≤ (shortest bits).exponent ∧ (shortest bits).exponent ≤ 1100 := by
  obtain ⟨narrow, equal⟩ := shortest_eq bits
  obtain ⟨mantissa_pos, mantissa_lt, exponent_ge, exponent_le⟩ := parts_spec finite nonzero
  obtain ⟨den_pos, value, high⟩ := Interval.ofParts_spec (parts bits).1 (parts bits).2 narrow
  rw [equal]
  generalize Interval.ofParts (parts bits).1 (parts bits).2 narrow = interval at *
  generalize (parts bits).1 = mantissa at *
  generalize (parts bits).2 = exponent at *
  cases search : interval.search 17 with
  | none => exact .inl rfl
  | some found =>
      have mantissa_pos' : (1 : ℚ) ≤ mantissa := by exact_mod_cast mantissa_pos
      have mantissa_lt' : (mantissa : ℚ) < 2 ^ 53 := by exact_mod_cast mantissa_lt
      have den_pos' : (0 : ℚ) < interval.den := by exact_mod_cast den_pos
      have value_pos : 0 < interval.value := by
        have : (0 : ℚ) < interval.value / interval.den := by
          rw [value]
          positivity
        rw [lt_div_iff₀ den_pos', zero_mul] at this
        exact_mod_cast this
      obtain ⟨fills, long, below, low, up⟩ := Interval.search_spec value_pos den_pos search
      obtain ⟨lower, upper⟩ := magnitude_spec value_pos den_pos
      rw [value] at lower upper
      have top : (2 : ℚ) ^ exponent ≤ 2 ^ (971 : Int) := zpow_le_zpow_right₀ (by norm_num) exponent_le
      have bottom : (2 : ℚ) ^ (-1074 : Int) ≤ 2 ^ exponent :=
        zpow_le_zpow_right₀ (by norm_num) exponent_ge
      have decade_lt : (10 : ℚ) ^ magnitude interval.value interval.den < 10 ^ (1024 : Int) := by
        refine lt_of_le_of_lt lower ?_
        calc (mantissa : ℚ) * 2 ^ exponent ≤ 2 ^ 53 * 2 ^ (971 : Int) := by gcongr
          _ = 2 ^ (1024 : Int) := by
              rw [← zpow_natCast, ← zpow_add₀ two_ne_zero]
              rfl
          _ < 10 ^ (1024 : Int) := zpow_lt_zpow_left₀ (by norm_num) (by norm_num) (by norm_num)
      have decade_gt : (10 : ℚ) ^ (-1074 : Int) <
          10 ^ (magnitude interval.value interval.den + 1) := by
        refine lt_of_le_of_lt ?_ upper
        calc (10 : ℚ) ^ (-1074 : Int) ≤ 1 * 2 ^ (-1074 : Int) := by
              rw [one_mul, zpow_neg, zpow_neg]
              refine inv_anti₀ (by positivity) (zpow_le_zpow_left₀ ?_ ?_ ?_) <;> norm_num
          _ ≤ mantissa * 2 ^ exponent := by gcongr
      rw [zpow_lt_zpow_iff_right₀ (by norm_num)] at decade_lt decade_gt
      refine .inr ⟨fills, long, high ▸ below, ?_, ?_⟩
      · change -1100 ≤ found.exponent
        omega
      · change found.exponent ≤ 1100
        omega

/-- The decimal of the largest double. -/
def largest : Scientific :=
  ⟨17976931348623157, 17, 308⟩

/-- The upper end of the interval of the second largest double. -/
def secondEnd : ℚ :=
  (2 ^ 54 - 3) * 2 ^ 970

theorem shortest_largest {bits : UInt64} (full : (parts bits).1 = 2 ^ 53 - 1)
    (top : (parts bits).2 = 971) : shortest bits = largest := by
  have searched : ∀ narrow, (Interval.ofParts (2 ^ 53 - 1) 971 narrow).search 17 = some largest := by
    decide +kernel
  obtain ⟨narrow, equal⟩ := shortest_eq bits
  rw [equal, full, top, searched]
  rfl

/-- **No decimal of another double** lies above the interval of the second largest. -/
theorem shortest_le {bits : UInt64} (finite : IsFinite bits) (nonzero : bits <<< 1 ≠ 0) :
    shortest bits = largest ∨ (shortest bits).value ≤ secondEnd := by
  rcases shortest_spec finite nonzero with zero | ⟨_, _, below, _, _⟩
  · right
    rw [zero, Scientific.value, secondEnd]
    norm_num
  obtain ⟨mantissa_pos, mantissa_lt, _, exponent_le⟩ := parts_spec finite nonzero
  have mantissa_lt' : ((parts bits).1 : ℚ) + 1 ≤ 2 ^ 53 := by exact_mod_cast mantissa_lt
  by_cases top : (parts bits).2 = 971
  · by_cases full : (parts bits).1 = 2 ^ 53 - 1
    · exact .inl (shortest_largest full top)
    · right
      have mantissa_le : ((parts bits).1 : ℚ) + 2 ≤ 2 ^ 53 := by
        exact_mod_cast (show (parts bits).1 + 2 ≤ 2 ^ 53 by omega)
      rw [top] at below
      refine below.trans ?_
      calc (((parts bits).1 : ℚ) + 1 / 2) * 2 ^ (971 : Int)
          ≤ (2 ^ 53 - 3 / 2) * 2 ^ (971 : Int) := by
            gcongr
            linarith
        _ = (2 ^ 53 - 3 / 2) * (2 * 2 ^ 970) := by
            rw [show (971 : Int) = ((970 + 1 : Nat) : Int) from rfl, zpow_natCast,
              pow_succ' (2 : ℚ) 970]
        _ = secondEnd := by
            rw [secondEnd, ← mul_assoc]
            norm_num
  · right
    have exponent_le' : (2 : ℚ) ^ (parts bits).2 ≤ 2 ^ (970 : Int) :=
      zpow_le_zpow_right₀ (by norm_num) (by omega)
    refine below.trans ?_
    calc (((parts bits).1 : ℚ) + 1 / 2) * 2 ^ (parts bits).2
        ≤ 2 ^ 53 * 2 ^ (970 : Int) := by
          gcongr
          linarith
      _ ≤ (2 ^ 54 - 3) * 2 ^ (970 : Int) := by
          gcongr
          norm_num
      _ = secondEnd := rfl

end Uplift.Decimal
