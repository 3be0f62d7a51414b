import Uplift.Proofs.Decimal.Shortest

/-!
# Arithmetic of doubles

Products and quotients of doubles are rounded to fifty-three bits.  What is proved here is what a
reader of decimals needs: rounding makes a number larger by at most one part in `2^53`
(`round_normal`), so a product of two numbers that are each off by no more is no infinity while it
stays below `2^1024` with three such errors (`isInf_mul`); and the results are finite again
(`finite_mul`, `finite_div`).  The lower side of rounding is of no concern, as a double that is too
small is still a double.
-/

set_option autoImplicit false

namespace Uplift.Decimal

open Float.Model (Format UnpackedFloat totalExponent)
open Float.Model.UnpackedFloat

/-! ## Rounding -/

theorem mantissa_shiftRight (extended : ExtendedMantissa) (places : Nat) :
    (extended >>> places).mantissa = extended.mantissa / 2 ^ places := by
  induction places with
  | zero => simp [HShiftRight.hShiftRight, Nat.repeat]
  | succ places ih =>
      change (extended >>> places).mantissa / 2 = _
      rw [ih, Nat.div_div_eq_div_mul, pow_succ]

/-- A bit that is rounded up stands for at least a half. -/
theorem roundBit_shiftRight (extended : ExtendedMantissa) (fresh : extended.roundBit = false)
    (places : Nat) :
    2 * ((extended >>> places).mantissa * 2 ^ places) +
      (if (extended >>> places).roundBit then 2 ^ places else 0) ≤ 2 * extended.mantissa := by
  induction places with
  | zero => simp [HShiftRight.hShiftRight, Nat.repeat, fresh]
  | succ places ih =>
      have halves := Nat.div_add_mod (extended >>> places).mantissa 2
      change 2 * ((extended >>> places).mantissa / 2 * 2 ^ (places + 1)) +
        (if (extended >>> places).mantissa % 2 != 0 then 2 ^ (places + 1) else 0) ≤ _
      generalize (extended >>> places).mantissa = mantissa at ih halves ⊢
      have whole : 2 * (mantissa * 2 ^ places) ≤ 2 * extended.mantissa := by omega
      refine le_trans (le_of_eq ?_) whole
      rcases Nat.mod_two_eq_zero_or_one mantissa with even | odd
      · rw [even] at halves ⊢
        rw [← halves]
        simp only [bne_self_eq_false, Bool.false_eq_true, if_false]
        rw [show (2 * (mantissa / 2) + 0) / 2 = mantissa / 2 by omega]
        ring
      · rw [odd] at halves ⊢
        rw [← halves]
        simp only [one_ne_zero, bne_iff_ne, ne_eq, not_false_eq_true, if_true]
        rw [show (2 * (mantissa / 2) + 1) / 2 = mantissa / 2 by omega]
        ring

theorem roundedMantissa_bounds (extended : ExtendedMantissa) :
    extended.mantissa ≤ extended.roundedMantissa ∧
      extended.roundedMantissa ≤ extended.mantissa + (if extended.roundBit then 1 else 0) := by
  obtain ⟨mantissa, _ | _, _ | _⟩ := extended <;>
    simp only [ExtendedMantissa.roundedMantissa, ExtendedMantissa.accuracy,
      Accuracy.roundToNearestEven, Bool.false_eq_true, if_true, if_false] <;> omega

/-- The exponent at which a number is rounded. -/
def roundingExponent (mantissa : Nat) (exponent : Int) : Int :=
  max ((mantissa.log2 : Int) + exponent - 52) (-1074)

theorem targetExponent_binary64 (total : Int) :
    Format.binary64.targetExponent total = max (total - 53) (-1074) :=
  rfl

theorem targetExponent_eq (mantissa : Nat) (exponent : Int) :
    Format.binary64.targetExponent (totalExponent mantissa exponent) =
      roundingExponent mantissa exponent := by
  rw [targetExponent_binary64, totalExponent, roundingExponent]
  omega

/-- The first shift of a rounding. -/
theorem shiftToTargetExponent_eq (mantissa : Nat) (exponent : Int) (accuracy : Accuracy) :
    shiftToTargetExponent Format.binary64 mantissa exponent accuracy =
      (ExtendedMantissa.ofMantissaAndAccuracy mantissa accuracy >>>
          (roundingExponent mantissa exponent - exponent).toNat,
        max exponent (roundingExponent mantissa exponent)) := by
  rw [shiftToTargetExponent, targetExponent_eq, shiftToExponent]
  refine Prod.ext rfl ?_
  change exponent + ((roundingExponent mantissa exponent - exponent).toNat : Int) = _
  omega

theorem mantissa_ofMantissaAndAccuracy (mantissa : Nat) (accuracy : Accuracy) :
    (ExtendedMantissa.ofMantissaAndAccuracy mantissa accuracy).mantissa = mantissa := by
  obtain _ | (_ | _ | _) := accuracy <;> rfl

/-- The first shift leaves at most fifty-three bits, and rounding up one more at most. -/
theorem roundedMantissa_le (mantissa : Nat) (exponent : Int) (accuracy : Accuracy) :
    (ExtendedMantissa.ofMantissaAndAccuracy mantissa accuracy >>>
      (roundingExponent mantissa exponent - exponent).toNat).roundedMantissa ≤ 2 ^ 53 := by
  have bounds := (roundedMantissa_bounds (ExtendedMantissa.ofMantissaAndAccuracy mantissa accuracy
    >>> (roundingExponent mantissa exponent - exponent).toNat)).2
  rw [mantissa_shiftRight, mantissa_ofMantissaAndAccuracy] at bounds
  have shifted : mantissa / 2 ^ (roundingExponent mantissa exponent - exponent).toNat < 2 ^ 53 := by
    rw [Nat.div_lt_iff_lt_mul (by positivity), ← pow_add]
    refine lt_of_lt_of_le Nat.lt_log2_self (Nat.pow_le_pow_right (by decide) ?_)
    rw [roundingExponent]
    omega
  split_ifs at bounds <;> omega

/-- At most fifty-three bits are not shifted again. -/
theorem shiftToTargetExponent_of_lt {rounded : Nat} (less : rounded < 2 ^ 53) {place : Int}
    (low : -1074 ≤ place) :
    shiftToTargetExponent Format.binary64 rounded place .exact =
      (⟨rounded, false, false⟩, place) := by
  have bits : rounded.log2 ≤ 52 := by
    rcases Nat.eq_zero_or_pos rounded with rfl | positive
    · simp
    · have := (Nat.log2_lt (by omega)).2 less
      omega
  have stays : roundingExponent rounded place ≤ place := by
    rw [roundingExponent]
    omega
  rw [shiftToTargetExponent_eq, max_eq_left stays,
    show (roundingExponent rounded place - place).toNat = 0 by omega]
  rfl

/-- The bit that rounding up has added is shifted out. -/
theorem shiftToTargetExponent_of_full {place : Int} (low : -1074 ≤ place) :
    shiftToTargetExponent Format.binary64 (2 ^ 53) place .exact =
      (⟨2 ^ 52, false, false⟩, place + 1) := by
  have next : roundingExponent (2 ^ 53) place = place + 1 := by
    rw [roundingExponent, Nat.log2_two_pow]
    push_cast
    omega
  rw [shiftToTargetExponent_eq, next, max_eq_right (by omega),
    show (place + 1 - place).toNat = 1 by omega]
  rfl

/-- A number that is rounded to zero, or to at most fifty-three bits at the exponent of its rounding
or the next. -/
theorem roundWithAccuracy_eq (sign : Sign) (mantissa : Nat) (exponent : Int) (accuracy : Accuracy)
    {rounded : Nat} {place : Int}
    (rounded_eq : (ExtendedMantissa.ofMantissaAndAccuracy mantissa accuracy >>>
      (roundingExponent mantissa exponent - exponent).toNat).roundedMantissa = rounded)
    (place_eq : max exponent (roundingExponent mantissa exponent) = place) :
    (rounded = 0 ∧ roundWithAccuracy Format.binary64 sign mantissa exponent accuracy = .zero sign) ∨
    (∃ positive, rounded < 2 ^ 53 ∧
      roundWithAccuracy Format.binary64 sign mantissa exponent accuracy =
        .finite sign rounded place positive) ∨
    (∃ positive, rounded = 2 ^ 53 ∧
      roundWithAccuracy Format.binary64 sign mantissa exponent accuracy =
        .finite sign (2 ^ 52) (place + 1) positive) := by
  have low : -1074 ≤ place := by
    rw [← place_eq, roundingExponent]
    omega
  have small : rounded ≤ 2 ^ 53 := rounded_eq ▸ roundedMantissa_le mantissa exponent accuracy
  rw [roundWithAccuracy, shiftToTargetExponent_eq]
  dsimp only
  rw [rounded_eq, place_eq]
  rcases lt_or_eq_of_le small with less | full
  · rw [shiftToTargetExponent_of_lt less low]
    by_cases zero : rounded = 0
    · exact .inl ⟨zero, dif_pos zero⟩
    · exact .inr (.inl ⟨Nat.pos_of_ne_zero zero, less, dif_neg zero⟩)
  · subst full
    rw [shiftToTargetExponent_of_full low]
    exact .inr (.inr ⟨by positivity, rfl, dif_neg (by positivity)⟩)

/-- Dropping places moves a number by at most half a unit of the last place that is kept. -/
theorem roundedMantissa_near (mantissa places : Nat) :
    2 * ((ExtendedMantissa.ofMantissaAndAccuracy mantissa .exact >>> places).roundedMantissa *
      2 ^ places) ≤ 2 * mantissa + 2 ^ places := by
  have half := roundBit_shiftRight (.ofMantissaAndAccuracy mantissa .exact) rfl places
  have high :=
    (roundedMantissa_bounds (ExtendedMantissa.ofMantissaAndAccuracy mantissa .exact >>> places)).2
  rw [mantissa_ofMantissaAndAccuracy] at half
  generalize (ExtendedMantissa.ofMantissaAndAccuracy mantissa .exact >>> places).mantissa = kept
    at half high
  generalize (ExtendedMantissa.ofMantissaAndAccuracy mantissa .exact >>>
    places).roundedMantissa = rounded at high ⊢
  have scaled := Nat.mul_le_mul_right (2 ^ places) high
  have power := Nat.two_pow_pos places
  split at scaled
  next up =>
    rw [if_pos up] at half
    rw [add_mul, one_mul] at scaled
    omega
  next down =>
    rw [if_neg down] at half
    rw [add_mul, zero_mul] at scaled
    omega

/-- **Rounding a number** that is not too small and has at least fifty-three bits gives one with
fifty-three bits, larger by at most one part in `2^53`. -/
theorem round_normal (sign : Sign) (mantissa : Nat) (exponent : Int) (long : 52 ≤ mantissa.log2)
    (large : -1022 ≤ (mantissa.log2 : Int) + exponent) :
    ∃ rounded place positive,
      roundWithAccuracy Format.binary64 sign mantissa exponent .exact =
        .finite sign rounded place positive ∧
      2 ^ 52 ≤ rounded ∧ rounded < 2 ^ 53 ∧ (mantissa.log2 : Int) + exponent - 52 ≤ place ∧
      (rounded : ℚ) * 2 ^ place ≤ mantissa * 2 ^ exponent * (1 + 1 / 2 ^ 53) := by
  have nonzero : mantissa ≠ 0 := by
    rintro rfl
    simp at long
  obtain ⟨places, places_eq⟩ : ∃ places, mantissa.log2 = places + 52 :=
    ⟨mantissa.log2 - 52, by omega⟩
  have target : roundingExponent mantissa exponent = exponent + places := by
    rw [roundingExponent]
    omega
  have shift : (roundingExponent mantissa exponent - exponent).toNat = places := by omega
  obtain ⟨rounded, rounded_eq⟩ : ∃ rounded,
    (ExtendedMantissa.ofMantissaAndAccuracy mantissa .exact >>> places).roundedMantissa = rounded :=
      ⟨_, rfl⟩
  have floor : 2 ^ places * 2 ^ 52 ≤ mantissa := by
    rw [← pow_add, ← places_eq]
    exact Nat.log2_self_le nonzero
  have low :=
    (roundedMantissa_bounds (ExtendedMantissa.ofMantissaAndAccuracy mantissa .exact >>> places)).1
  have error := roundedMantissa_near mantissa places
  rw [rounded_eq] at low error
  have least : 2 ^ 52 ≤ rounded := by
    refine le_trans ?_ low
    rw [mantissa_shiftRight, mantissa_ofMantissaAndAccuracy, Nat.le_div_iff_mul_le (by positivity),
      mul_comm]
    exact floor
  have value : (rounded : ℚ) * 2 ^ (exponent + (places : Int)) ≤
      mantissa * 2 ^ exponent * (1 + 1 / 2 ^ 53) := by
    have error' : 2 * ((rounded : ℚ) * 2 ^ places) ≤ 2 * mantissa + 2 ^ places := by
      exact_mod_cast error
    have floor' : (2 : ℚ) ^ places * 2 ^ 52 ≤ mantissa := by exact_mod_cast floor
    have power : (0 : ℚ) < 2 ^ exponent := by positivity
    have whole : (rounded : ℚ) * 2 ^ places ≤ mantissa * (1 + 1 / 2 ^ 53) := by linarith
    rw [zpow_add₀ two_ne_zero, zpow_natCast]
    calc (rounded : ℚ) * (2 ^ exponent * 2 ^ places)
        = rounded * 2 ^ places * 2 ^ exponent := by ring
      _ ≤ mantissa * (1 + 1 / 2 ^ 53) * 2 ^ exponent := mul_le_mul_of_nonneg_right whole power.le
      _ = mantissa * 2 ^ exponent * (1 + 1 / 2 ^ 53) := by ring
  have place : max exponent (roundingExponent mantissa exponent) = exponent + places := by omega
  rcases roundWithAccuracy_eq sign mantissa exponent .exact (shift.symm ▸ rounded_eq) place with
    ⟨zero, _⟩ | ⟨positive, less, equal⟩ | ⟨positive, full, equal⟩
  · omega
  · exact ⟨rounded, _, positive, equal, least, less, by omega, value⟩
  · refine ⟨2 ^ 52, _, positive, equal, le_rfl, by norm_num, by omega, ?_⟩
    refine le_of_eq_of_le ?_ value
    rw [zpow_add₀ two_ne_zero _ 1, full]
    push_cast
    ring

/-! ## Finite doubles -/

/-- A number that a double can hold, if it has the right number of bits. -/
def Fits : UnpackedFloat → Prop
  | .zero _ => True
  | .finite _ _ exponent _ => exponent ≤ 971
  | _ => False

/-- A number that is no infinity. -/
def IsNumber : UnpackedFloat → Prop
  | .zero _ => True
  | .finite .. => True
  | _ => False

/-- The stored exponent of a double. -/
abbrev exponentOf (model : Float.Model) : BitVec 11 :=
  @unpackExponent Format.binary64 model.toBits.toBitVec

theorem isFinite_iff (model : Float.Model) :
    IsFinite model.toBits ↔ exponentOf model ≠ -1#11 := by
  have biased : biased model.toBits = (exponentOf model).toNat := by
    rw [biased_eq, exponentOf, unpackExponent, BitVec.toNat_cast, BitVec.extractLsb_toNat,
      Nat.shiftRight_eq_div_pow]
    rfl
  rw [IsFinite, biased, ne_eq, ne_eq, ← BitVec.toNat_inj]
  rfl

theorem pack_finite (sign : Sign) (mantissa : Nat) (exponent : Int) (positive : 0 < mantissa) :
    UnpackedFloat.pack Format.binary64 (.finite sign mantissa exponent positive) =
      if 2048 ≤ (exponent + 1075).toNat + 1 then packedInfinity Format.binary64 sign
      else if mantissa.log2 + 1 = 53 then
        packComponents Format.binary64 sign (BitVec.ofNat 11 (exponent + 1075).toNat)
          (BitVec.ofNat 52 mantissa)
      else packComponents Format.binary64 sign 0#11 (BitVec.ofNat 52 mantissa) := by
  have biased : (exponent + 1023 + 52).toNat = (exponent + 1075).toNat := by omega
  rw [← biased]
  rfl

theorem isFinite_pack (number : UnpackedFloat) (fits : Fits number) :
    IsFinite (Float.Model.pack number).toBits := by
  rw [isFinite_iff]
  match number with
  | .zero sign =>
      change unpackExponent (packComponents Format.binary64 sign 0 0) ≠ _
      rw [unpackExponent_packComponents]
      decide
  | .finite sign mantissa exponent positive =>
      have small : ¬ 2048 ≤ (exponent + 1075).toNat + 1 := by
        change exponent ≤ 971 at fits
        omega
      change unpackExponent (UnpackedFloat.pack Format.binary64 _) ≠ _
      rw [pack_finite, if_neg small]
      split
      · rw [unpackExponent_packComponents, ne_eq, ← BitVec.toNat_inj, BitVec.toNat_ofNat]
        change ¬ (exponent + 1075).toNat % 2048 = 2047
        omega
      · rw [unpackExponent_packComponents]
        decide

/-- A number that does not fit becomes an infinity. -/
theorem isFinite_of_isNumber {number : UnpackedFloat} (isNumber : IsNumber number)
    (bounded : (Float.Model.pack number).isInf = false) :
    IsFinite (Float.Model.pack number).toBits := by
  match number with
  | .zero sign => exact isFinite_pack (.zero sign) trivial
  | .finite sign mantissa exponent positive =>
      by_cases fits : exponent ≤ 971
      · exact isFinite_pack (.finite sign mantissa exponent positive) fits
      · have packed : UnpackedFloat.pack Format.binary64 (.finite sign mantissa exponent positive) =
            packedInfinity Format.binary64 sign := by
          have large : 2048 ≤ (exponent + 1075).toNat + 1 := by omega
          rw [pack_finite, if_pos large]
        change (UnpackedFloat.unpack Format.binary64 (UnpackedFloat.pack Format.binary64
          (.finite sign mantissa exponent positive))).isInf = false at bounded
        rw [packed] at bounded
        cases sign <;> cases bounded

/-- The leading bit is put before the stored ones. -/
theorem toNat_implicit (stored : BitVec 52) : (1#1 ++ stored).toNat = 2 ^ 52 + stored.toNat := by
  rw [BitVec.toNat_append, ← Nat.shiftLeft_add_eq_or_of_lt stored.isLt]
  rfl

/-- Bits that are neither those of an infinity nor close to zero are unpacked with a leading bit. -/
theorem unpack_normal {bits : BitVec 64}
    (notTop : @unpackExponent Format.binary64 bits ≠ -1#11)
    (notBottom : @unpackExponent Format.binary64 bits ≠ 0#11) :
    ∃ positive, UnpackedFloat.unpack Format.binary64 bits =
      .finite (Sign.ofBitVec (@unpackSign Format.binary64 bits))
        (1#1 ++ @unpackMantissa Format.binary64 bits).toNat
        ((@unpackExponent Format.binary64 bits).toNat - (1023 + 52)) positive :=
  ⟨_, (if_neg notTop).trans (if_neg notBottom)⟩

/-- Bits that are close to zero are unpacked without a leading bit. -/
theorem unpack_subnormal {bits : BitVec 64}
    (bottom : @unpackExponent Format.binary64 bits = 0#11) :
    UnpackedFloat.unpack Format.binary64 bits =
        .zero (Sign.ofBitVec (@unpackSign Format.binary64 bits)) ∨
      ∃ positive, UnpackedFloat.unpack Format.binary64 bits =
        .finite (Sign.ofBitVec (@unpackSign Format.binary64 bits))
          (@unpackMantissa Format.binary64 bits).toNat
          ((@unpackExponent Format.binary64 bits).toNat - (1023 + 52) + 1) positive := by
  have notTop : @unpackExponent Format.binary64 bits ≠ -1#11 := by
    rw [bottom]
    decide
  by_cases none : @unpackMantissa Format.binary64 bits = 0#52
  · exact .inl ((if_neg notTop).trans ((if_pos bottom).trans (dif_pos none)))
  · exact .inr ⟨_, (if_neg notTop).trans ((if_pos bottom).trans (dif_neg none))⟩

/-- What a finite double is unpacked to. -/
theorem unpack_of_isFinite {model : Float.Model} (finite : IsFinite model.toBits) :
    (∃ sign, model.unpack = .zero sign) ∨
      ∃ sign mantissa exponent positive, model.unpack = .finite sign mantissa exponent positive ∧
        mantissa < 2 ^ 53 ∧ exponent ≤ 971 := by
  rw [isFinite_iff] at finite
  have small : (@unpackMantissa Format.binary64 model.toBits.toBitVec).toNat < 2 ^ 52 :=
    BitVec.isLt _
  have low : (@unpackExponent Format.binary64 model.toBits.toBitVec).toNat < 2048 :=
    BitVec.isLt _
  have top : (@unpackExponent Format.binary64 model.toBits.toBitVec).toNat ≠ 2047 :=
    fun equal => finite (BitVec.toNat_inj.1 equal)
  by_cases bottom : exponentOf model = 0#11
  · obtain unpacked | ⟨positive, unpacked⟩ := unpack_subnormal bottom
    · exact .inl ⟨_, unpacked⟩
    · have zero : (@unpackExponent Format.binary64 model.toBits.toBitVec).toNat = 0 :=
        congrArg BitVec.toNat bottom
      exact .inr ⟨_, _, _, positive, unpacked, by omega, by omega⟩
  · obtain ⟨positive, unpacked⟩ := unpack_normal finite bottom
    refine .inr ⟨_, _, _, positive, unpacked, ?_, by omega⟩
    exact (1#1 ++ @unpackMantissa Format.binary64 model.toBits.toBitVec).isLt

theorem sign_packComponents (sign : Sign) (exponent : BitVec 11) (mantissa : BitVec 52) :
    Sign.ofBitVec (unpackSign (packComponents Format.binary64 sign exponent mantissa)) = sign := by
  have stored : unpackSign (packComponents Format.binary64 sign exponent mantissa) =
      sign.toBitVec := by
    ext i inside
    obtain rfl : i = 0 := by omega
    change ((sign.toBitVec ++ exponent ++ mantissa).extractLsb 63 63).getLsbD 0 = _
    rw [BitVec.getLsbD_extractLsb, BitVec.getLsbD_append, BitVec.getLsbD_append]
    simp
  rw [stored]
  cases sign <;> rfl

/-- A number of fifty-three bits is unpacked as it was packed. -/
theorem unpack_pack_normal (sign : Sign) {mantissa : Nat} {exponent : Int}
    (positive : 0 < mantissa) (lower : 2 ^ 52 ≤ mantissa) (upper : mantissa < 2 ^ 53)
    (low : -1074 ≤ exponent) (high : exponent ≤ 971) :
    (Float.Model.pack (.finite sign mantissa exponent positive)).unpack =
      .finite sign mantissa exponent positive := by
  have bits : mantissa.log2 = 52 := (Nat.log2_eq_iff (by omega)).2 ⟨lower, upper⟩
  have small : ¬ 2048 ≤ (exponent + 1075).toNat + 1 := by omega
  have stored : (BitVec.ofNat 11 (exponent + 1075).toNat).toNat = (exponent + 1075).toNat := by
    rw [BitVec.toNat_ofNat]
    omega
  have notTop : unpackExponent (packComponents Format.binary64 sign
      (BitVec.ofNat 11 (exponent + 1075).toNat) (BitVec.ofNat 52 mantissa)) ≠ -1#11 := by
    rw [unpackExponent_packComponents, ne_eq, ← BitVec.toNat_inj, stored]
    change ¬ _ = 2047
    omega
  have notBottom : unpackExponent (packComponents Format.binary64 sign
      (BitVec.ofNat 11 (exponent + 1075).toNat) (BitVec.ofNat 52 mantissa)) ≠ 0#11 := by
    rw [unpackExponent_packComponents, ne_eq, ← BitVec.toNat_inj, stored]
    change ¬ _ = 0
    omega
  have whole : (1#1 ++ BitVec.ofNat 52 mantissa).toNat = mantissa := by
    rw [toNat_implicit, BitVec.toNat_ofNat]
    omega
  have place : ((exponent + 1075).toNat : Int) - (1023 + 52) = exponent := by omega
  obtain ⟨_, unpacked⟩ := unpack_normal notTop notBottom
  change UnpackedFloat.unpack Format.binary64 (UnpackedFloat.pack Format.binary64 _) = _
  rw [pack_finite, if_neg small, if_pos (by omega), unpacked, UnpackedFloat.finite.injEq,
    sign_packComponents, unpackMantissa_packComponents, unpackExponent_packComponents, stored]
  exact ⟨rfl, whole, place⟩

/-! ## Products and quotients -/

theorem isNumber_round (sign : Sign) (mantissa : Nat) (exponent : Int) (accuracy : Accuracy) :
    IsNumber (roundWithAccuracy Format.binary64 sign mantissa exponent accuracy) := by
  rcases roundWithAccuracy_eq sign mantissa exponent accuracy rfl rfl with
    ⟨_, equal⟩ | ⟨_, _, equal⟩ | ⟨_, _, equal⟩ <;>
    exact equal ▸ trivial

/-- A finite double. -/
def Finite (double : Float) : Prop :=
  IsFinite double.toBits

/-- A product of finite doubles is finite or infinite. -/
theorem finite_mul {first second : Float} (finite : Finite first) (finite' : Finite second)
    (bounded : (first * second).isInf = false) : Finite (first * second) := by
  refine isFinite_of_isNumber ?_ bounded
  obtain ⟨sign, zero⟩ | ⟨sign, mantissa, exponent, positive, some, _, _⟩ := unpack_of_isFinite finite
  · obtain ⟨sign', zero'⟩ | ⟨sign', _, _, _, some', _, _⟩ := unpack_of_isFinite finite'
    · rw [zero, zero']
      trivial
    · rw [zero, some']
      trivial
  · obtain ⟨sign', zero'⟩ | ⟨sign', _, _, _, some', _, _⟩ := unpack_of_isFinite finite'
    · rw [some, zero']
      trivial
    · rw [some, some']
      exact isNumber_round _ _ _ _

theorem finite_neg {double : Float} (finite : Finite double) : Finite (-double) := by
  refine isFinite_pack double.toModel.unpack.neg ?_
  obtain ⟨sign, zero⟩ | ⟨sign, mantissa, exponent, positive, some, _, fits⟩ :=
    unpack_of_isFinite finite
  · rw [zero]
    trivial
  · rw [some]
    exact fits

/-- A quotient has no more bits than the difference of the numbers of bits, and one. -/
theorem log2_div_lt {number mantissa shift : Nat} (positive : 0 < mantissa)
    (quotient_pos : 0 < number <<< shift / mantissa) :
    (number <<< shift / mantissa).log2 + mantissa.log2 < number.log2 + 1 + shift := by
  have product : 2 ^ ((number <<< shift / mantissa).log2 + mantissa.log2) <
      2 ^ (number.log2 + 1 + shift) := by
    rw [pow_add, pow_add _ _ shift]
    calc 2 ^ (number <<< shift / mantissa).log2 * 2 ^ mantissa.log2
        ≤ number <<< shift / mantissa * mantissa :=
          Nat.mul_le_mul (Nat.log2_self_le (by omega)) (Nat.log2_self_le (by omega))
      _ ≤ number <<< shift := Nat.div_mul_le_self _ _
      _ = number * 2 ^ shift := Nat.shiftLeft_eq _ _
      _ < 2 ^ (number.log2 + 1) * 2 ^ shift :=
          Nat.mul_lt_mul_of_pos_right Nat.lt_log2_self (by positivity)
  exact (Nat.pow_lt_pow_iff_right (by decide)).1 product

/-- A quotient by a number that is at least eight is finite. -/
theorem finite_div {first second : Float} (finite : Finite first) {sign : Sign} {mantissa : Nat}
    {exponent : Int} {positive : 0 < mantissa}
    (some : second.toModel.unpack = .finite sign mantissa exponent positive)
    (large : 3 ≤ (mantissa.log2 : Int) + exponent) : Finite (first / second) := by
  refine isFinite_pack (UnpackedFloat.div Format.binary64 first.toModel.unpack
    second.toModel.unpack) ?_
  rw [some]
  obtain ⟨sign', zero⟩ | ⟨sign', mantissa', exponent', positive', some', small, low⟩ :=
    unpack_of_isFinite finite
  · rw [zero]
    trivial
  rw [some']
  obtain ⟨place, place_eq⟩ : ∃ place, place = min (exponent' - exponent)
    (Format.binary64.targetExponent
      (totalExponent mantissa' exponent' - totalExponent mantissa exponent)) := ⟨_, rfl⟩
  obtain ⟨shift, shift_eq⟩ : ∃ shift, shift = (exponent' - exponent - place).toNat := ⟨_, rfl⟩
  have divided : divCore Format.binary64 mantissa' exponent' mantissa exponent =
      (mantissa' <<< shift / mantissa, place,
        accuracyOfFraction (mantissa' <<< shift % mantissa) mantissa) := by
    rw [divCore, ← place_eq, ← shift_eq]
  change Fits (roundWithAccuracy Format.binary64 (sign' / sign)
    (divCore Format.binary64 mantissa' exponent' mantissa exponent).1
    (divCore Format.binary64 mantissa' exponent' mantissa exponent).2.1
    (divCore Format.binary64 mantissa' exponent' mantissa exponent).2.2)
  rw [divided]
  have bits : mantissa'.log2 ≤ 52 := by
    have := (Nat.log2_lt (by omega)).2 small
    omega
  have place_le : place ≤ 968 := by
    have target : Format.binary64.targetExponent
        (totalExponent mantissa' exponent' - totalExponent mantissa exponent) ≤ 968 := by
      rw [targetExponent_binary64, totalExponent, totalExponent]
      omega
    omega
  have quotient_le : ((mantissa' <<< shift / mantissa).log2 : Int) + place ≤ 1021 := by
    rcases Nat.eq_zero_or_pos (mantissa' <<< shift / mantissa) with zero | quotient_pos
    · rw [zero, Nat.log2_zero]
      omega
    · have := log2_div_lt positive quotient_pos
      omega
  have rounding : max place (roundingExponent (mantissa' <<< shift / mantissa) place) ≤ 969 := by
    rw [roundingExponent]
    omega
  rcases roundWithAccuracy_eq (sign' / sign) (mantissa' <<< shift / mantissa) place
    (accuracyOfFraction (mantissa' <<< shift % mantissa) mantissa) rfl rfl with
    ⟨_, equal⟩ | ⟨_, _, equal⟩ | ⟨_, _, equal⟩
  · rw [equal]
    trivial
  · rw [equal]
    change max place _ ≤ 971
    omega
  · rw [equal]
    change max place _ + 1 ≤ 971
    omega

/-! ## Natural numbers as doubles -/

/-- A double of fifty-three bits that is larger than a natural number by at most one part in
`2^53`. -/
structure IsClose (double : Float) (number : Nat) (mantissa : Nat) (exponent : Int) : Prop where
  finite : Finite double
  unpacked : ∃ positive, double.toModel.unpack = .finite .positive mantissa exponent positive
  lower : 2 ^ 52 ≤ mantissa
  upper : mantissa < 2 ^ 53
  low : (number.log2 : Int) - 52 ≤ exponent
  value : (mantissa : ℚ) * 2 ^ exponent ≤ number * (1 + 1 / 2 ^ 53)

/-- The largest power of two that is too large for a double. -/
@[irreducible] def overflow : ℚ := 2 ^ (1024 : Int)

theorem overflow_eq : overflow = 2 ^ 1024 := by
  rw [overflow]
  exact zpow_natCast 2 1024

/-- A number below the overflow has an exponent that fits. -/
theorem fits_of_lt_overflow {mantissa : Nat} {exponent : Int} (lower : 2 ^ 52 ≤ mantissa)
    (below : (mantissa : ℚ) * 2 ^ exponent < overflow) : exponent ≤ 971 := by
  have lower' : (2 : ℚ) ^ (52 : Int) ≤ mantissa := by exact_mod_cast lower
  rw [overflow] at below
  have power : (2 : ℚ) ^ (52 + exponent) < 2 ^ (1024 : Int) := by
    rw [zpow_add₀ two_ne_zero]
    exact lt_of_le_of_lt (mul_le_mul_of_nonneg_right lower' (by positivity)) below
  rw [zpow_lt_zpow_iff_right₀ (by norm_num)] at power
  omega

/-- Rounding a natural number that is written with enough bits. -/
theorem isClose_of_round {number mantissa : Nat} (shift : Nat) (positive : 0 < number)
    (written : mantissa = number * 2 ^ shift) (long : 52 ≤ number.log2 + shift)
    (below : (number : ℚ) * (1 + 1 / 2 ^ 53) < overflow) :
    ∃ rounded place, IsClose (.ofModel (.pack
      (roundWithAccuracy Format.binary64 .positive mantissa (-(shift : Int)) .exact)))
        number rounded place := by
  subst written
  have bits : (number * 2 ^ shift).log2 = number.log2 + shift := by
    refine (Nat.log2_eq_iff (by positivity)).2 ⟨?_, ?_⟩
    · rw [pow_add]
      exact Nat.mul_le_mul_right _ (Nat.log2_self_le (by omega))
    · rw [show number.log2 + shift + 1 = number.log2 + 1 + shift by omega, pow_add]
      exact Nat.mul_lt_mul_of_pos_right Nat.lt_log2_self (by positivity)
  obtain ⟨rounded, place, rounded_pos, equal, lower, upper, low, value⟩ :=
    round_normal .positive (number * 2 ^ shift) (-(shift : Int)) (by omega) (by omega)
  rw [bits] at low
  have value' : (rounded : ℚ) * 2 ^ place ≤ number * (1 + 1 / 2 ^ 53) := by
    refine value.trans_eq ?_
    rw [zpow_neg, zpow_natCast]
    push_cast
    field_simp
  have fits := fits_of_lt_overflow lower (lt_of_le_of_lt value' below)
  rw [equal]
  refine ⟨rounded, place, ?_, ⟨rounded_pos, ?_⟩, lower, upper, by omega, value'⟩
  · exact isFinite_pack (.finite .positive rounded place rounded_pos) fits
  · exact unpack_pack_normal .positive rounded_pos lower upper (by omega) fits

/-- A significand as a double. -/
theorem isClose_toFloat {significand : UInt64} (positive : 0 < significand.toNat) :
    ∃ mantissa exponent, IsClose significand.toFloat significand.toNat mantissa exponent := by
  have below : (significand.toNat : ℚ) * (1 + 1 / 2 ^ 53) < overflow := by
    have small : (significand.toNat : ℚ) ≤ 2 ^ (64 : Int) := by
      exact_mod_cast significand.toNat_lt.le
    calc (significand.toNat : ℚ) * (1 + 1 / 2 ^ 53) ≤ 2 ^ (64 : Int) * 2 := by
          gcongr
          norm_num
      _ < overflow := by
          rw [overflow, show (2 : ℚ) ^ (64 : Int) * 2 = 2 ^ (65 : Int) by norm_num]
          exact zpow_lt_zpow_right₀ (by norm_num) (by norm_num)
  have model : significand.toFloat = .ofModel (.pack
      (roundWithAccuracy Format.binary64 .positive
        (significand.toNat * 2 ^ (52 - significand.toNat.log2))
        (-((52 - significand.toNat.log2 : Nat) : Int)) .exact)) := by
    have above : compare (significand.toNat : Int) 0 = .gt := by
      rw [Int.compare_eq_gt]
      exact_mod_cast positive
    have shift : (0 - roundingExponent significand.toNat 0).toNat = 52 - significand.toNat.log2 := by
      rw [roundingExponent]
      omega
    change Float.ofModel (.pack (normalize Format.binary64
      ((significand.toNat : Nat) : Int) 0 .positive)) = _
    rw [UnpackedFloat.normalize, above]
    dsimp only
    rw [Int.toNat_natCast, UnpackedFloat.round, targetExponent_eq, decreaseExponent, shift]
    dsimp only
    rw [Nat.shiftLeft_eq, zero_sub]
  rw [model]
  exact isClose_of_round _ positive rfl (by omega) below

theorem finite_toFloat (significand : UInt64) : Finite significand.toFloat := by
  rcases Nat.eq_zero_or_pos significand.toNat with zero | positive
  · obtain rfl : significand = 0 := UInt64.toNat_inj.1 zero
    have finite : biased (UInt64.toFloat 0).toBits ≠ 0x7FF := by decide +kernel
    exact finite
  · obtain ⟨_, _, close⟩ := isClose_toFloat positive
    exact close.finite

/-- A power of ten as a double. -/
theorem isClose_power {places : Nat} (small : places ≤ 308) :
    ∃ mantissa exponent,
      IsClose (Float.ofScientific 1 false places) (10 ^ places) mantissa exponent := by
  have model : Float.ofScientific 1 false places =
      .ofModel (Float.Model.ofScientific 1 (places : Int)) := by
    by_cases exact_ : places ≤ 22
    · have table : ∀ places ≤ 22, Float.ofScientific 1 false places =
          .ofModel (Float.Model.ofScientific 1 (places : Int)) := by
        decide +kernel
      exact table places exact_
    · rw [Float.ofScientific, dif_neg (by omega)]
      rfl
  have product : Float.Model.ofScientific 1 (places : Int) =
      .pack (roundWithAccuracy Format.binary64 .positive (2 ^ 53 * 10 ^ places) (-53) .exact) := by
    rw [Float.Model.ofScientific, UnpackedFloat.ofScientific, dif_neg one_ne_zero,
      if_neg (by change ¬ _ > (2048 : Int); omega),
      if_neg (by change ¬ _ < -((2048 : Int) + 0); omega), if_pos (Int.natCast_nonneg places)]
    rfl
  have below : ((10 ^ places : Nat) : ℚ) * (1 + 1 / 2 ^ 53) < overflow := by
    have table : 10 ^ 308 * 3 < 2 ^ 1024 * 2 := by decide +kernel
    have table' : (10 : ℚ) ^ 308 * 3 < 2 ^ 1024 * 2 := by exact_mod_cast table
    have half : ∀ {first second : ℚ}, first * 3 < second * 2 → first * (3 / 2) < second := by
      intro first second less
      linarith
    have power : ((10 ^ places : Nat) : ℚ) ≤ 10 ^ 308 := by
      rw [Nat.cast_pow, Nat.cast_ofNat]
      exact pow_le_pow_right₀ (by norm_num) small
    calc ((10 ^ places : Nat) : ℚ) * (1 + 1 / 2 ^ 53) ≤ 10 ^ 308 * (3 / 2) := by
          gcongr
          norm_num
      _ < 2 ^ 1024 := half table'
      _ = overflow := overflow_eq.symm
  have written : 2 ^ 53 * 10 ^ places = 10 ^ places * 2 ^ 53 := mul_comm _ _
  rw [model, product]
  exact isClose_of_round 53 (by positivity) written (Nat.le_add_left_of_le (by norm_num)) below

/-- **A product of close numbers** that is below the overflow is no infinity. -/
theorem isInf_mul {first second : Float} {number number' mantissa mantissa' : Nat}
    {exponent exponent' : Int} (close : IsClose first number mantissa exponent)
    (close' : IsClose second number' mantissa' exponent')
    (below : (number : ℚ) * number' * (1 + 1 / 2 ^ 53) ^ 3 < overflow) :
    (first * second).isInf = false := by
  obtain ⟨positive, unpacked⟩ := close.unpacked
  obtain ⟨positive', unpacked'⟩ := close'.unpacked
  have bits : 104 ≤ (mantissa * mantissa').log2 := by
    rw [Nat.le_log2 (by positivity)]
    calc 2 ^ 104 = 2 ^ 52 * 2 ^ 52 := by norm_num
      _ ≤ mantissa * mantissa' := Nat.mul_le_mul close.lower close'.lower
  have low := close.low
  have low' := close'.low
  obtain ⟨rounded, place, rounded_pos, equal, lower, upper, least, value⟩ :=
    round_normal (.positive * .positive) (mantissa * mantissa') (exponent + exponent') (by omega)
      (by omega)
  have value' : (rounded : ℚ) * 2 ^ place < overflow := by
    refine lt_of_le_of_lt (value.trans ?_) below
    push_cast
    rw [zpow_add₀ two_ne_zero]
    calc (mantissa : ℚ) * mantissa' * (2 ^ exponent * 2 ^ exponent') * (1 + 1 / 2 ^ 53)
        = mantissa * 2 ^ exponent * (mantissa' * 2 ^ exponent') * (1 + 1 / 2 ^ 53) := by ring
      _ ≤ (number : ℚ) * (1 + 1 / 2 ^ 53) * (number' * (1 + 1 / 2 ^ 53)) *
          (1 + 1 / 2 ^ 53) :=
          mul_le_mul_of_nonneg_right
            (mul_le_mul close.value close'.value (by positivity) (by positivity)) (by positivity)
      _ = (number : ℚ) * number' * (1 + 1 / 2 ^ 53) ^ 3 := by ring
  have fits := fits_of_lt_overflow lower value'
  have product : UnpackedFloat.mul Format.binary64 first.toModel.unpack second.toModel.unpack =
      .finite (.positive * .positive) rounded place rounded_pos := by
    rw [unpacked, unpacked', ← equal]
    rfl
  change (Float.Model.pack (UnpackedFloat.mul Format.binary64 first.toModel.unpack
    second.toModel.unpack)).unpack.isInf = false
  rw [product, unpack_pack_normal _ rounded_pos lower upper (by omega) fits]
  rfl

end Uplift.Decimal
