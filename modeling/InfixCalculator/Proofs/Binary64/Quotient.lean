import InfixCalculator.Binary64.Bits
import InfixCalculator.Proofs.Binary64.Nearest

namespace InfixCalculator.Binary64

open Float.Model Float.Model.UnpackedFloat

/-! Quotients of doubles.

Division takes apart two doubles, divides their mantissas with some bits to spare, keeps two bits that say
what the division left over, and rounds with these. For finite doubles that comes to one rounding of the
exact quotient (`magnitude_div`). -/

/-- The mantissa is the whole part of the quotient. The first bit behind it says whether the rest is half
of the denominator or more, and the second one whether it is neither none nor just half. -/
structure Extends (extended : ExtendedMantissa) (numerator denominator : Nat) : Prop where
  whole : extended.mantissa = numerator / denominator
  half : extended.roundBit = decide (denominator ≤ 2 * (numerator % denominator))
  rest : extended.stickyBit =
    decide (numerator % denominator ≠ 0 ∧ 2 * (numerator % denominator) ≠ denominator)

variable {extended : ExtendedMantissa} {numerator denominator : Nat}

theorem extends_fraction (positive : 0 < denominator) :
    Extends (.ofMantissaAndAccuracy (numerator / denominator)
      (accuracyOfFraction (numerator % denominator) denominator)) numerator denominator := by
  unfold accuracyOfFraction
  generalize rest : numerator % denominator = left
  split
  · next none =>
    subst none
    constructor <;> simp [ExtendedMantissa.ofMantissaAndAccuracy, rest]
    omega
  · next some =>
    rcases lt_trichotomy (2 * left) denominator with less | same | more
    · rw [Nat.compare_eq_lt.mpr less]
      constructor <;> simp [ExtendedMantissa.ofMantissaAndAccuracy, rest] <;> omega
    · rw [Nat.compare_eq_eq.mpr same]
      constructor <;> simp [ExtendedMantissa.ofMantissaAndAccuracy, rest] <;> omega
    · rw [Nat.compare_eq_gt.mpr more]
      constructor <;> simp [ExtendedMantissa.ofMantissaAndAccuracy, rest] <;> omega

theorem Extends.roundedMantissa (quotient : Extends extended numerator denominator) :
    extended.roundedMantissa = roundHalfEven numerator denominator := by
  obtain ⟨whole, half, rest⟩ := quotient
  rcases extended with ⟨mantissa, roundBit, stickyBit⟩
  dsimp only at whole half rest
  subst whole
  unfold roundHalfEven
  cases roundBit <;> cases stickyBit <;>
    simp [ExtendedMantissa.roundedMantissa, ExtendedMantissa.accuracy,
      Accuracy.roundToNearestEven] at half rest ⊢ <;>
    grind

theorem Extends.shiftRightOne (positive : 0 < denominator)
    (quotient : Extends extended numerator denominator) :
    Extends extended.shiftRightOne numerator (denominator * 2) := by
  obtain ⟨whole, half, rest⟩ := quotient
  have small := Nat.mod_lt numerator positive
  have doubled : numerator % (denominator * 2) =
      numerator % denominator + denominator * (numerator / denominator % 2) := Nat.mod_mul
  constructor
  · rw [ExtendedMantissa.shiftRightOne, whole, Nat.div_div_eq_div_mul]
  · rw [ExtendedMantissa.shiftRightOne, whole, doubled]
    rcases Nat.mod_two_eq_zero_or_one (numerator / denominator) with bit | bit <;>
      simp [bit] <;> omega
  · rw [ExtendedMantissa.shiftRightOne, half, rest, doubled]
    rcases Nat.mod_two_eq_zero_or_one (numerator / denominator) with bit | bit <;>
      simp [bit] <;> grind

theorem Extends.shiftRight (positive : 0 < denominator)
    (quotient : Extends extended numerator denominator) (places : Nat) :
    Extends (extended >>> places) numerator (denominator * 2 ^ places) := by
  induction places with
  | zero => rwa [Nat.pow_zero, Nat.mul_one]
  | succ places shifted =>
      rw [Nat.pow_succ, ← Nat.mul_assoc]
      exact shifted.shiftRightOne (Nat.mul_pos positive (Nat.two_pow_pos places))

/-- The bits of a mantissa to drop so that it keeps 53 bits at most and none below the least double. -/
def surplus (mantissa : Nat) (exponent : Int) : Nat :=
  (max (mantissa.log2 - 52 + exponent) (-1074) - exponent).toNat

theorem exists_place (mantissa : Nat) (exponent : Int) :
    ∃ place : Nat, exponent + surplus mantissa exponent = place - 1074 :=
  ⟨(exponent + surplus mantissa exponent + 1074).toNat, by unfold surplus; omega⟩

theorem shiftToTargetExponent_eq (mantissa : Nat) (exponent : Int) (accuracy : Accuracy) :
    shiftToTargetExponent Format.binary64 mantissa exponent accuracy =
      (ExtendedMantissa.ofMantissaAndAccuracy mantissa accuracy >>> surplus mantissa exponent,
        exponent + surplus mantissa exponent) := by
  have target : Format.binary64.targetExponent (totalExponent mantissa exponent) =
      max (mantissa.log2 - 52 + exponent) (-1074) := by
    change max ((mantissa.log2 : Int) + 1 + exponent - 53) (-1074) = _
    omega
  rw [shiftToTargetExponent, target]
  rfl

theorem toNat_packComponents_mod (sign : Sign) (exponent : BitVec 11) (fraction : BitVec 52) :
    (packComponents Format.binary64 sign exponent fraction).toNat % signPlace =
      exponent.toNat * fractionCount + fraction.toNat := by
  have exponentBound := exponent.isLt
  have fractionBound := fraction.isLt
  rw [toNat_packComponents, signPlace, fractionCount]
  omega

theorem size_pack_finite (sign : Sign) {mantissa place : Nat} (positive : 0 < mantissa)
    (short : mantissa < 2 * fractionCount) (long : place = 0 ∨ fractionCount ≤ mantissa) :
    (UnpackedFloat.pack Format.binary64 (.finite sign mantissa (place - 1074) positive)).toNat %
      signPlace = min (place * fractionCount + mantissa) infinityMagnitude := by
  have biased : ((place : Int) - 1074 + Format.binary64.exponentBias + (52 : Nat)).toNat = place + 1 := by
    change ((place : Int) - 1074 + (1023 : Nat) + (52 : Nat)).toNat = place + 1
    omega
  have normal : mantissa.log2 + 1 = 53 ↔ fractionCount ≤ mantissa := by
    have bounded := (Nat.log2_lt (Nat.ne_of_gt positive)).mpr (show mantissa < 2 ^ 53 from short)
    have reached := Nat.le_log2 (k := 52) (Nat.ne_of_gt positive)
    change _ ↔ 2 ^ 52 ≤ mantissa
    omega
  change (if 2048 ≤ ((place : Int) - 1074 + Format.binary64.exponentBias + (52 : Nat)).toNat + 1 then
      packedInfinity Format.binary64 sign
    else if mantissa.log2 + 1 = 53 then _ else _ : BitVec 64).toNat % _ = _
  rw [biased]
  simp only [fractionCount, infinityMagnitude] at short long normal ⊢
  split_ifs with overflow full
  · rw [packedInfinity, toNat_packComponents_mod]
    change 2047 * _ + 0 = _
    simp only [fractionCount]
    omega
  · rw [toNat_packComponents_mod, BitVec.toNat_ofNat, BitVec.toNat_ofNat]
    simp only [fractionCount]
    omega
  · rw [toNat_packComponents_mod]
    change 0 * _ + BitVec.toNat (BitVec.ofNat 52 _) = _
    rw [BitVec.toNat_ofNat]
    omega

theorem size_pack_zero (sign : Sign) :
    (UnpackedFloat.pack Format.binary64 (.zero sign)).toNat % signPlace = 0 :=
  toNat_packComponents_mod sign 0 0

theorem size_pack_infinity (sign : Sign) :
    (UnpackedFloat.pack Format.binary64 (.infinity sign)).toNat % signPlace = infinityMagnitude :=
  toNat_packComponents_mod sign (-1) 0

theorem shiftToTargetExponent_short {mantissa place : Nat} (short : mantissa < 2 * fractionCount) :
    shiftToTargetExponent Format.binary64 mantissa (place - 1074) .exact =
      (⟨mantissa, false, false⟩, (place : Int) - 1074) := by
  have none : surplus mantissa (place - 1074) = 0 := by
    have bounded : mantissa.log2 ≤ 52 := by
      rcases Nat.eq_zero_or_pos mantissa with rfl | positive
      · decide
      · exact Nat.le_of_lt_succ ((Nat.log2_lt (Nat.ne_of_gt positive)).mpr short)
    unfold surplus
    omega
  rw [shiftToTargetExponent_eq, none]
  exact congrArg _ (Int.add_zero _)

theorem shiftToTargetExponent_carry (place : Nat) :
    shiftToTargetExponent Format.binary64 (2 * fractionCount) (place - 1074) .exact =
      (⟨fractionCount, false, false⟩, ((place + 1 : Nat) : Int) - 1074) := by
  have one : surplus (2 * fractionCount) (place - 1074) = 1 := by
    have bits : (2 * fractionCount).log2 = 53 := by decide
    unfold surplus
    omega
  rw [shiftToTargetExponent_eq, one]
  refine Prod.ext rfl ?_
  dsimp only
  omega

/-- The whole part of a quotient has all the bits of a double, or those down to the least double. -/
def Wide (quotient : Nat) (exponent : Int) : Prop := exponent ≤ -1074 ∨ fractionCount ≤ quotient

theorem Wide.log2 {quotient : Nat} {exponent : Int} (wide : Wide quotient exponent) :
    exponent ≤ -1074 ∨ 52 ≤ quotient.log2 := by
  refine wide.imp_right fun (high : 2 ^ 52 ≤ quotient) => (Nat.le_log2 ?_).mpr high
  omega

/-- What is rounded to 53 bits has its magnitude, also where the rounding carries into one bit more. -/
theorem size_pack_rounded (sign : Sign) {result place : Nat} (short : result ≤ 2 * fractionCount)
    (long : place = 0 ∨ fractionCount ≤ result) :
    let final := shiftToTargetExponent Format.binary64 result (place - 1074) .exact
    (UnpackedFloat.pack Format.binary64 (if zero : final.1.mantissa = 0 then .zero sign
      else .finite sign final.1.mantissa final.2 (Nat.pos_of_ne_zero zero))).toNat % signPlace =
        min (place * fractionCount + result) infinityMagnitude := by
  have positive : 0 < fractionCount := by decide
  rcases Nat.lt_or_eq_of_le short with fits | rfl
  · rw [shiftToTargetExponent_short fits]
    dsimp only
    split_ifs with none
    · have zero : place = 0 := long.resolve_right (by omega)
      rw [size_pack_zero, zero, none, Nat.zero_mul, Nat.zero_add, Nat.zero_min]
    · exact size_pack_finite sign _ fits long
  · have carried := @size_pack_finite sign _ (place + 1) positive (by omega) (.inr (Nat.le_refl _))
    rw [Nat.add_one_mul, Nat.add_assoc, ← Nat.two_mul] at carried
    rw [shiftToTargetExponent_carry]
    dsimp only
    rw [dif_neg (Nat.ne_of_gt positive), carried]

/-- Rounding a quotient with some bits to spare takes it to the nearest double. -/
theorem size_pack_round (sign : Sign) {numerator denominator : Nat} (positive : 0 < denominator)
    {exponent : Int} (wide : Wide (numerator / denominator) exponent) {place : Nat}
    (placed : exponent + surplus (numerator / denominator) exponent = place - 1074) :
    (UnpackedFloat.pack Format.binary64 (roundWithAccuracy Format.binary64 sign (numerator / denominator)
      exponent (accuracyOfFraction (numerator % denominator) denominator))).toNat % signPlace =
      min (place * fractionCount + roundHalfEven numerator
        (denominator * 2 ^ surplus (numerator / denominator) exponent)) infinityMagnitude := by
  generalize drop : surplus (numerator / denominator) exponent = dropped at placed ⊢
  have quotient := @extends_fraction numerator denominator positive
  have rounded := (quotient.shiftRight positive dropped).roundedMantissa
  have above := div_le_roundHalfEven numerator (denominator * 2 ^ dropped)
  have below := roundHalfEven_le_succ numerator (denominator * 2 ^ dropped)
  rw [← Nat.div_div_eq_div_mul] at above below
  -- What is left has 53 bits at most, and 53 just above the least place.
  have short : numerator / denominator / 2 ^ dropped < 2 * fractionCount :=
    div_two_pow_lt (by unfold surplus at drop; omega)
  have long : place = 0 ∨ fractionCount ≤ numerator / denominator / 2 ^ dropped := by
    have reached := wide.log2
    unfold surplus at drop
    by_cases low : place = 0
    · exact .inl low
    · exact .inr (le_div_two_pow (by omega))
  unfold roundWithAccuracy
  rw [shiftToTargetExponent_eq, drop, placed]
  dsimp only
  rw [rounded]
  exact size_pack_rounded sign (by omega) (by omega)

theorem log2_div_two_pow (number places : Nat) : (number / 2 ^ places).log2 = number.log2 - places := by
  simpa only [Nat.log2_eq_log_two] using Nat.log_div_base_pow 2 number places

theorem div_div_two_pow_congr {dividend divisor numerator denominator raised lowered : Nat}
    (positive : 0 < denominator) (positive' : 0 < divisor)
    (same : dividend * denominator * 2 ^ lowered = numerator * divisor * 2 ^ raised) :
    dividend / divisor / 2 ^ raised = numerator / denominator / 2 ^ lowered := by
  have left := Nat.mul_div_mul_left dividend (divisor * 2 ^ raised)
    (Nat.mul_pos positive (Nat.two_pow_pos lowered))
  have right := Nat.mul_div_mul_left numerator (denominator * 2 ^ lowered)
    (Nat.mul_pos positive' (Nat.two_pow_pos raised))
  rw [Nat.div_div_eq_div_mul, Nat.div_div_eq_div_mul, ← left, ← right]
  congr 1
  · linarith
  · ring

/-- The nearest magnitude of a quotient, from another one that is as many powers of two apart from it as the
exponent says. -/
theorem nearestMagnitude_eq {numerator denominator dividend divisor place : Nat} {exponent : Int}
    (positive : 0 < denominator) (positive' : 0 < divisor)
    (same : dividend * unitsPerOne * denominator * 2 ^ (-1074 - exponent).toNat =
      numerator * divisor * 2 ^ (exponent + 1074).toNat)
    (wide : Wide (numerator / denominator) exponent)
    (placed : exponent + surplus (numerator / denominator) exponent = place - 1074) :
    nearestMagnitude dividend divisor =
      min (place * fractionCount + roundHalfEven numerator
        (denominator * 2 ^ surplus (numerator / denominator) exponent)) infinityMagnitude := by
  rw [nearestMagnitude]
  generalize dividend * unitsPerOne = scaled at same ⊢
  generalize raise : (exponent + 1074).toNat = raised at same
  generalize lower : (-1074 - exponent).toNat = lowered at same
  -- The whole parts share their leading bits, so both quotients keep their bits down to the same place.
  have wholes := div_div_two_pow_congr positive positive' same
  have logs := congrArg Nat.log2 wholes
  rw [log2_div_two_pow, log2_div_two_pow] at logs
  have dropped : (scaled / divisor).log2 - 52 = place := by
    have reached := wide.log2
    unfold surplus at placed
    omega
  have rounded : roundHalfEven scaled (divisor * 2 ^ place) = roundHalfEven numerator
      (denominator * 2 ^ surplus (numerator / denominator) exponent) := by
    refine roundHalfEven_congr (Nat.mul_pos positive' (Nat.two_pow_pos place))
      (Nat.mul_pos positive (Nat.two_pow_pos _)) ?_
    generalize surplus (numerator / denominator) exponent = dropped at placed ⊢
    have places : place + lowered = raised + dropped := by omega
    apply Nat.eq_of_mul_eq_mul_right (Nat.two_pow_pos lowered)
    calc scaled * (denominator * 2 ^ dropped) * 2 ^ lowered
        = scaled * denominator * 2 ^ lowered * 2 ^ dropped := by ring
      _ = numerator * divisor * 2 ^ (raised + dropped) := by rw [same, Nat.mul_assoc, Nat.pow_add]
      _ = numerator * (divisor * 2 ^ place) * 2 ^ lowered := by rw [← places, Nat.pow_add]; ring
  simp only [dropped, Nat.pow_eq, rounded]

/-- The exponent at which division computes the whole part of a quotient of mantissas whose exponents are
`scale` apart. -/
def quotientExponent (dividend divisor : Nat) (scale : Int) : Int :=
  min scale (max (dividend.log2 - divisor.log2 + scale - 53) (-1074))

theorem div_finite (sign sign' : Sign) {dividend divisor : Nat} (positive : 0 < dividend)
    (positive' : 0 < divisor) (exponent exponent' : Int) :
    let lowest := quotientExponent dividend divisor (exponent - exponent')
    let numerator := dividend * 2 ^ (exponent - exponent' - lowest).toNat
    UnpackedFloat.div Format.binary64 (.finite sign dividend exponent positive)
        (.finite sign' divisor exponent' positive') =
      roundWithAccuracy Format.binary64 (sign / sign') (numerator / divisor) lowest
        (accuracyOfFraction (numerator % divisor) divisor) := by
  intro lowest numerator
  have target : min (exponent - exponent') (Format.binary64.targetExponent
      (totalExponent dividend exponent - totalExponent divisor exponent')) = lowest := by
    change min _ (max ((dividend.log2 : Int) + 1 + exponent - (divisor.log2 + 1 + exponent') - 53)
      (-1074)) = min _ (max _ (-1074))
    congr 2
    omega
  have divided : divCore Format.binary64 dividend exponent divisor exponent' =
      (numerator / divisor, lowest, accuracyOfFraction (numerator % divisor) divisor) := by
    simp only [divCore, target, Nat.shiftLeft_eq]
    rfl
  change roundWithAccuracy Format.binary64 (sign / sign')
    (divCore Format.binary64 dividend exponent divisor exponent').1
    (divCore Format.binary64 dividend exponent divisor exponent').2.1
    (divCore Format.binary64 dividend exponent divisor exponent').2.2 = _
  rw [divided]

theorem wide_quotient {dividend divisor : Nat} (positive : 0 < dividend) (positive' : 0 < divisor)
    (scale : Int) : Wide (dividend * 2 ^ (scale - quotientExponent dividend divisor scale).toNat / divisor)
      (quotientExponent dividend divisor scale) := by
  refine Decidable.or_iff_not_imp_left.mpr fun high => ?_
  have long : 53 + divisor.log2 ≤
      dividend.log2 + (scale - quotientExponent dividend divisor scale).toNat := by
    unfold quotientExponent at high ⊢
    omega
  generalize (scale - quotientExponent dividend divisor scale).toNat = shift at long ⊢
  rw [Nat.le_div_iff_mul_le positive']
  calc fractionCount * divisor ≤ 2 ^ 52 * 2 ^ (divisor.log2 + 1) :=
        Nat.mul_le_mul_left _ (Nat.le_of_lt Nat.lt_log2_self)
    _ = 2 ^ (53 + divisor.log2) := by rw [← Nat.pow_add, Nat.add_comm divisor.log2, ← Nat.add_assoc]
    _ ≤ 2 ^ (dividend.log2 + shift) := Nat.pow_le_pow_right (by decide) long
    _ = 2 ^ dividend.log2 * 2 ^ shift := Nat.pow_add _ _ _
    _ ≤ dividend * 2 ^ shift := Nat.mul_le_mul_right _ (Nat.log2_self_le (Nat.ne_of_gt positive))

theorem unitsPerOne_eq {places : Nat} (same : places = 1074) : unitsPerOne = Nat.pow 2 places := by
  subst same
  decide +kernel

/-- The quotient of finite doubles is the exact one, rounded once. -/
theorem magnitude_div {x y : Float} (finite : magnitude x < infinityMagnitude)
    (finite' : magnitude y < infinityMagnitude) (nonzero : 0 < magnitude y) :
    magnitude (x / y) = nearestMagnitude (units x) (units y) := by
  obtain ⟨divisor, positive', place', shape', units'⟩ := unpack_of_finite finite' nonzero
  change (UnpackedFloat.pack Format.binary64 (UnpackedFloat.div Format.binary64 x.toModel.unpack
    y.toModel.unpack)).toNat % signPlace = _
  rcases Nat.eq_zero_or_pos (magnitude x) with zero | nonzero
  · rw [shape', unpack_of_zero zero, units, zero]
    change (UnpackedFloat.pack Format.binary64 (.zero (signOf x / signOf y))).toNat % signPlace =
      nearestMagnitude 0 (units y)
    rw [size_pack_zero, nearestMagnitude_zero]
  · obtain ⟨dividend, positive, place, shape, units⟩ := unpack_of_finite finite nonzero
    have wide := wide_quotient positive positive' (place - 1074 - (place' - 1074))
    have least : quotientExponent dividend divisor (place - 1074 - (place' - 1074)) ≤
      place - 1074 - (place' - 1074) := Int.min_le_left _ _
    rw [shape', units', shape, units, div_finite]
    generalize quotientExponent dividend divisor (place - 1074 - (place' - 1074)) = lowest at wide least ⊢
    generalize shifted : ((place : Int) - 1074 - (place' - 1074) - lowest).toNat = shift at wide ⊢
    obtain ⟨target, placed⟩ := exists_place (dividend * 2 ^ shift / divisor) lowest
    rw [size_pack_round _ positive' wide placed]
    refine (nearestMagnitude_eq positive' (Nat.mul_pos positive' (Nat.two_pow_pos _)) ?_ wide placed).symm
    obtain ⟨ones, same⟩ : ∃ ones, ones = 1074 := ⟨_, rfl⟩
    rw [unitsPerOne_eq same, Nat.pow_eq]
    generalize raise : (lowest + 1074).toNat = raised
    generalize lower : (-1074 - lowest).toNat = lowered
    have places : place + ones + lowered = shift + place' + raised := by omega
    calc dividend * 2 ^ place * 2 ^ ones * divisor * 2 ^ lowered
        = dividend * divisor * 2 ^ (place + ones + lowered) := by rw [Nat.pow_add, Nat.pow_add]; ring
      _ = dividend * 2 ^ shift * (divisor * 2 ^ place') * 2 ^ raised := by
        rw [places, Nat.pow_add, Nat.pow_add]
        ring

/-- A finite double other than zero, divided by a zero, is infinite. -/
theorem magnitude_div_zero {x y : Float} (finite : magnitude x < infinityMagnitude)
    (nonzero : 0 < magnitude x) (zero : magnitude y = 0) : magnitude (x / y) = infinityMagnitude := by
  obtain ⟨dividend, positive, place, shape, _⟩ := unpack_of_finite finite nonzero
  change (UnpackedFloat.pack Format.binary64 (UnpackedFloat.div Format.binary64 x.toModel.unpack
    y.toModel.unpack)).toNat % signPlace = _
  rw [shape, unpack_of_zero zero]
  exact size_pack_infinity (signOf x / signOf y)

/-- A float taken apart has that sign. NaN has none. -/
def Signed (sign : Sign) : UnpackedFloat → Prop
  | .notANumber => False
  | .infinity found | .zero found | .finite found _ _ _ => found = sign

theorem signPlace_le_packComponents (sign : Sign) (exponent : BitVec 11) (fraction : BitVec 52) :
    signPlace ≤ (packComponents Format.binary64 sign exponent fraction).toNat ↔ sign = .negative := by
  have exponentBound := exponent.isLt
  have fractionBound := fraction.isLt
  rw [toNat_packComponents, signPlace]
  cases sign with
  | positive =>
      refine iff_of_false ?_ (by simp)
      change ¬_ ≤ 0 * _ + _ + _
      omega
  | negative =>
      refine iff_of_true ?_ rfl
      change _ ≤ 1 * _ + _ + _
      omega

theorem Signed.signPlace_le_pack {sign : Sign} {unpacked : UnpackedFloat} (signed : Signed sign unpacked) :
    signPlace ≤ (UnpackedFloat.pack Format.binary64 unpacked).toNat ↔ sign = .negative := by
  cases unpacked with
  | notANumber => exact signed.elim
  | infinity found | zero found =>
      cases signed
      exact signPlace_le_packComponents sign _ _
  | finite found mantissa exponent positive =>
      cases signed
      unfold UnpackedFloat.pack
      dsimp only
      split_ifs <;> exact signPlace_le_packComponents sign _ _

theorem signed_round (sign : Sign) (mantissa : Nat) (exponent : Int) (accuracy : Accuracy) :
    Signed sign (roundWithAccuracy Format.binary64 sign mantissa exponent accuracy) := by
  unfold roundWithAccuracy
  dsimp only
  split_ifs <;> rfl

theorem isNegative_div {x y : Float} (finite : magnitude x < infinityMagnitude)
    (finite' : magnitude y < infinityMagnitude) (nonzero : 0 < magnitude x ∨ 0 < magnitude y) :
    isNegative (x / y) = (isNegative x != isNegative y) := by
  have signed : Signed (signOf x / signOf y)
      (UnpackedFloat.div Format.binary64 x.toModel.unpack y.toModel.unpack) := by
    rcases Nat.eq_zero_or_pos (magnitude x) with zero | positive <;>
      rcases Nat.eq_zero_or_pos (magnitude y) with zero' | positive'
    · omega
    · obtain ⟨_, _, _, shape', _⟩ := unpack_of_finite finite' positive'
      rw [unpack_of_zero zero, shape']
      rfl
    · obtain ⟨_, _, _, shape, _⟩ := unpack_of_finite finite positive
      rw [shape, unpack_of_zero zero']
      rfl
    · obtain ⟨_, _, _, shape, _⟩ := unpack_of_finite finite positive
      obtain ⟨_, _, _, shape', _⟩ := unpack_of_finite finite' positive'
      rw [shape, shape', div_finite]
      exact signed_round _ _ _ _
  have bits : signPlace ≤ (x / y).toBits.toNat ↔ signOf x / signOf y = .negative :=
    signed.signPlace_le_pack
  have quotient : signOf x / signOf y =
      if isNegative x != isNegative y then .negative else .positive := by
    unfold signOf
    cases isNegative x <;> cases isNegative y <;> rfl
  rw [Bool.eq_iff_iff, isNegative, decide_eq_true_iff, bits, quotient]
  split_ifs with differ <;> simp [differ]

end InfixCalculator.Binary64
