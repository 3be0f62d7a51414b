import Uplift.Json.Reader
import Uplift.Proofs.Decimal.Arithmetic

/-!
# Scaling significands

A number that is no integer is read as a significand that is scaled by a power of ten.  The result
is always finite (`isFinite_of_toDouble`).  Scaling fails where it overflows, and that does not
happen with a negative exponent, nor with up to seventeen digits that are worth no more than the
largest double as it is written (`toDouble_ok`).  For the last four numbers below that one the
bound on the errors is too coarse, and they are tried one by one.
-/

set_option autoImplicit false

namespace Uplift.Json

open Decimal (Finite IsClose isClose_toFloat isClose_power overflow)

/-! ## Scaling -/

/-- **Scaling a finite double** gives a finite double, if anything. -/
theorem finite_scale {fuel : Nat} {double result : Float} {exponent : Int} (finite : Finite double)
    (scaled : scale fuel double exponent = some result) : Finite result := by
  induction fuel generalizing double exponent with
  | zero =>
      cases scaled
      exact finite
  | succ fuel ih =>
      have divided : ∀ {places}, 0 < places → places ≤ 308 →
          Finite (double / Float.ofScientific 1 false places) := by
        intro places positive small
        obtain ⟨mantissa, power, close⟩ := isClose_power small
        obtain ⟨_, unpacked⟩ := close.unpacked
        refine Decimal.finite_div finite unpacked ?_
        have bits : mantissa.log2 = 52 :=
          (Nat.log2_eq_iff (by have := close.lower; omega)).2 ⟨close.lower, close.upper⟩
        have ten : 3 ≤ (10 ^ places).log2 := by
          rw [Nat.le_log2 (by positivity)]
          calc 2 ^ 3 ≤ 10 ^ 1 := by norm_num
            _ ≤ 10 ^ places := Nat.pow_le_pow_right (by decide) positive
        have low := close.low
        omega
      rw [scale] at scaled
      dsimp only at scaled
      split at scaled
      next small =>
        split at scaled
        next =>
          split at scaled
          next => cases scaled
          next bounded =>
            cases scaled
            obtain ⟨_, _, close⟩ := isClose_power small
            exact Decimal.finite_mul finite close.finite (by simpa using bounded)
        next down =>
          cases scaled
          exact divided (by omega) small
      next =>
        split at scaled
        next =>
          cases scaled
          exact finite
        next =>
          split at scaled
          next => cases scaled
          next => exact ih (divided (by decide) le_rfl) scaled

/-- Scaling down does not overflow. -/
theorem scale_of_neg (fuel : Nat) (double : Float) {exponent : Int} (down : exponent < 0) :
    ∃ result, scale fuel double exponent = some result := by
  induction fuel generalizing double exponent with
  | zero => exact ⟨double, rfl⟩
  | succ fuel ih =>
      rw [scale]
      dsimp only
      rw [if_neg (not_le.2 down), if_neg (not_le.2 down)]
      split
      · exact ⟨_, rfl⟩
      · split
        · exact ⟨_, rfl⟩
        · exact ih _ (by omega)

/-- What a number with seventeen digits may be worth without being read as an infinity: the largest
double as it is written. -/
def limit : Nat := 17976931348623157 * 10 ^ 292

/-- Between the last numbers of seventeen digits there are none with more zeros. -/
theorem near_limit {significand places : Nat} (small : significand < 10 ^ 17)
    (near : 17976931348623153 * 10 ^ 292 < significand * 10 ^ places)
    (bound : significand * 10 ^ places ≤ limit) :
    places = 292 ∧ 17976931348623153 < significand ∧ significand ≤ 17976931348623157 := by
  have unit : 0 < 10 ^ 292 := by positivity
  have enough : 292 ≤ places := by
    by_contra few
    have table : 10 ^ 17 * 10 ^ 291 ≤ 17976931348623153 * 10 ^ 292 := by decide +kernel
    have power : 10 ^ places ≤ 10 ^ 291 := pow_le_pow_right₀ (by decide) (by omega)
    exact lt_irrefl _ (lt_of_lt_of_le near ((Nat.mul_le_mul small.le power).trans table))
  obtain ⟨more, rfl⟩ := Nat.exists_eq_add_of_le enough
  rw [limit] at bound
  rw [pow_add, mul_comm (10 ^ 292), ← mul_assoc] at near bound
  have least := Nat.lt_of_mul_lt_mul_right near
  have most := Nat.le_of_mul_le_mul_right bound unit
  cases more with
  | zero =>
      rw [pow_zero, mul_one] at least most
      exact ⟨rfl, least, most⟩
  | succ more =>
      rw [pow_succ, ← mul_assoc] at least most
      omega

/-- **Scaling up does not overflow** where the number is at most the largest double as it is
written. -/
theorem scale_of_le_limit {significand places : Nat} (positive : 0 < significand)
    (small : significand < 10 ^ 17) (bound : significand * 10 ^ places ≤ limit) :
    ∃ result, scale (places / 308 + 2) significand.toUInt64.toFloat places = some result := by
  have same : significand.toUInt64.toNat = significand := by
    rw [UInt64.toNat_ofNat', Nat.mod_eq_of_lt]
    omega
  have limit_lt : limit < 10 ^ 309 := by decide +kernel
  have places_le : places ≤ 308 := by
    have power : 10 ^ places < 10 ^ 309 :=
      lt_of_le_of_lt (le_trans (Nat.le_mul_of_pos_left _ positive) bound) limit_lt
    have := (Nat.pow_lt_pow_iff_right (by decide)).1 power
    omega
  by_cases near : significand * 10 ^ places ≤ 17976931348623153 * 10 ^ 292
  · obtain ⟨_, _, close⟩ := isClose_toFloat (same.symm ▸ positive : 0 < significand.toUInt64.toNat)
    obtain ⟨_, _, close'⟩ := isClose_power places_le
    have below : ((significand.toUInt64.toNat : Nat) : ℚ) * ((10 ^ places : Nat) : ℚ) *
        (1 + 1 / 2 ^ 53) ^ 3 < overflow := by
      have table : 17976931348623153 * 10 ^ 292 * (2 ^ 53 + 1) ^ 3 < 2 ^ 1024 * 2 ^ 159 := by
        decide +kernel
      have table' : ((17976931348623153 * 10 ^ 292 : Nat) : ℚ) * (2 ^ 53 + 1) ^ 3 <
          overflow * 2 ^ 159 := by
        rw [Decimal.overflow_eq]
        exact_mod_cast table
      have cube : ∀ {first second : ℚ}, first * (2 ^ 53 + 1) ^ 3 < second * 2 ^ 159 →
          first * (1 + 1 / 2 ^ 53) ^ 3 < second := by
        intro first second less
        have : (1 + 1 / 2 ^ 53 : ℚ) ^ 3 = (2 ^ 53 + 1) ^ 3 / 2 ^ 159 := by norm_num
        rw [this, ← mul_div_assoc, div_lt_iff₀ (by positivity)]
        exact less
      refine lt_of_le_of_lt ?_ (cube table')
      rw [same]
      gcongr
      exact_mod_cast near
    have bounded := Decimal.isInf_mul close close' below
    rw [scale]
    dsimp only
    rw [Int.natAbs_natCast, if_pos places_le, if_pos (Int.natCast_nonneg places), bounded]
    exact ⟨_, rfl⟩
  · have last : places = 292 ∧ 17976931348623153 < significand ∧
        significand ≤ 17976931348623157 :=
      near_limit small (not_le.1 near) bound
    obtain ⟨rfl, least, most⟩ := last
    have table : ∀ n < 4, (scale 2 (17976931348623154 + n).toUInt64.toFloat 292).isSome = true := by
      decide +kernel
    have found := table (significand - 17976931348623154) (by omega)
    rw [show 17976931348623154 + (significand - 17976931348623154) = significand by omega] at found
    exact Option.isSome_iff_exists.1 found

/-- **A number is read as a double** where its exponent is negative, or where it has at most
seventeen digits and is at most the largest double as it is written. -/
theorem toDouble_ok (negative : Bool) {significand : Nat} {exponent : Int}
    (fits : exponent < 0 ∨ ∃ places : Nat, exponent = places ∧ 0 < significand ∧
      significand < 10 ^ 17 ∧ significand * 10 ^ places ≤ limit) :
    ∃ bits, ∀ rest, toDouble negative significand exponent rest = .ok (.double bits, rest) := by
  have scaled : ∃ result, scale (exponent.natAbs / 308 + 2) significand.toUInt64.toFloat exponent =
      some result := by
    rcases fits with down | ⟨places, rfl, positive, small, bound⟩
    · exact scale_of_neg _ _ down
    · exact scale_of_le_limit positive small bound
  obtain ⟨result, scaled⟩ := scaled
  refine ⟨(if negative then -result else result).toBits, fun rest => ?_⟩
  rw [toDouble, scaled]

/-- A double that is read is finite. -/
theorem isFinite_of_toDouble {negative : Bool} {significand : Nat} {exponent : Int}
    {rest left : List Text.Symbol} {number : Number}
    (read : toDouble negative significand exponent rest = .ok (number, left)) :
    ∃ bits, number = .double bits ∧ Decimal.IsFinite bits := by
  rw [toDouble] at read
  split at read
  next result scaled =>
    cases read
    have finite := finite_scale (Decimal.finite_toFloat _) scaled
    refine ⟨_, rfl, ?_⟩
    split
    · exact Decimal.finite_neg finite
    · exact finite
  next => cases read

end Uplift.Json
