import InfixCalculator.Proofs.Binary64.Difference

namespace InfixCalculator.Binary64

open Float.Model Float.Model.UnpackedFloat

/-! Whole numbers among the doubles.

Whether a double is a whole number, which one, and whether that is odd can be computed in doubles alone:
take away the part before the point, take the remainder by two, convert what is small enough. None of these
steps rounds, and the conversion neither wraps nor saturates, so they find the number that the bits stand
for (`natural_and_odd_of_bits`). -/

def withSign (negative : Bool) (x : Float) : Float := if negative then -x else x

/-- The part before the point. -/
def truncated (x : Float) : Float :=
  if x.isFinite then withSign (isNegative x) (nearest (wholePart x) 1) else x

/-- The part behind the point. Infinity and NaN leave NaN. -/
def fraction (x : Float) : Float := x - truncated x

/-- What division leaves when its quotient is cut off at the point. It has the sign of the dividend. -/
def remainder (x y : Float) : Float :=
  if x.isFinite ∧ 0 < magnitude y ∧ y.isNaN = false then
    if y.isFinite then withSign (isNegative x) (nearest (units x % units y) unitsPerOne) else x
  else 0 / 0

/-- The natural number that a double is, by conversion to 64 bits of what passes the checks. -/
def convertedNatural? (x : Float) : Option Nat :=
  if x.isFinite = false ∨ x < 0 ∨ nearest largestExact 1 < x then none
  else if (fraction x == 0) = false then none
  else some x.toUInt64.toNat

def hasOddRemainder (x : Float) : Bool :=
  x.isFinite && fraction x == 0 && (remainder x 2).abs == 1

/-! ### Zero -/

theorem beq_zero_iff (x : Float) : (x == 0) = true ↔ magnitude x = 0 := by
  rcases Nat.lt_or_ge (magnitude x) infinityMagnitude with finite | infinite
  · rw [beq_iff (number?_of_finite finite) number?_zero, div_eq_zero_iff, or_iff_left unitsPerOne_cast_pos.ne',
      Int.cast_eq_zero, ← Int.natAbs_eq_zero, natAbs_signedUnits, units_eq_zero_iff]
  · refine iff_of_false ?_ fun zero => absurd (zero ▸ infinite) (by decide)
    change ¬(x.toModel.unpack.compare (.zero .positive) == some .eq) = true
    rcases unpack_of_infinite infinite with shape | shape <;> rw [shape]
    · cases signOf x <;> decide
    · decide

/-! ### The part before the point -/

/-- There is a double for 53 bits at any place that doubles have. -/
theorem exists_magnitude_place {mantissa place : ℕ} (short : mantissa < 2 * fractionCount)
    (placed : place ≤ 2045) : ∃ size < infinityMagnitude, unitsOfMagnitude size = mantissa * 2 ^ place := by
  induction place generalizing mantissa with
  | zero =>
      refine ⟨0 * fractionCount + mantissa, ?_, unitsOfMagnitude_place (Nat.le_of_lt short) (.inl rfl)⟩
      simp only [infinityMagnitude, fractionCount] at short ⊢
      omega
  | succ place ih =>
      rcases Nat.lt_or_ge mantissa fractionCount with low | filled
      · rw [Nat.pow_succ', ← Nat.mul_assoc, Nat.mul_comm mantissa]
        exact ih (Nat.mul_lt_mul_of_pos_left low Nat.two_pos) (Nat.le_of_succ_le placed)
      · refine ⟨(place + 1) * fractionCount + mantissa, ?_,
          unitsOfMagnitude_place (Nat.le_of_lt short) (.inr filled)⟩
        simp only [infinityMagnitude, fractionCount] at short ⊢
        omega

theorem exists_magnitude {n : ℕ} (bound : n ≤ largestExact) :
    ∃ size < infinityMagnitude, unitsOfMagnitude size = n * unitsPerOne := by
  obtain ⟨ones, same⟩ : ∃ ones, ones = 1074 := ⟨_, rfl⟩
  rw [unitsPerOne_eq same]
  exact exists_magnitude_place (Nat.lt_succ_of_le bound) (by omega)

/-- The part of a double before the point is a double. -/
theorem exists_magnitude_wholePart {x : Float} (finite : magnitude x < infinityMagnitude) :
    ∃ size < infinityMagnitude, unitsOfMagnitude size = wholePart x * unitsPerOne := by
  rcases Nat.lt_or_ge (magnitude x) (1075 * fractionCount) with small | large
  · apply exists_magnitude
    have below := unitsOfMagnitude_strictMono small
    rw [unitsOfMagnitude_two_pow 52] at below
    have short : wholePart x < 2 ^ 52 := (Nat.div_lt_iff_lt_mul unitsPerOne_pos).mpr below
    exact Nat.le_of_lt (short.trans (by decide))
  · exact ⟨magnitude x, finite, (Nat.div_mul_cancel (dvd_unitsOfMagnitude large)).symm⟩

/-- What is a double is not changed by rounding. -/
theorem magnitude_nearest_exact {size numerator denominator : ℕ} (finite : size < infinityMagnitude)
    (positive : 0 < denominator) (same : unitsOfMagnitude size * denominator = numerator * unitsPerOne) :
    magnitude (nearest numerator denominator) = size := by
  rw [magnitude_nearest, ← nearestMagnitude_scale unitsPerOne_pos, Nat.mul_comm _ numerator, ← same,
    Nat.mul_comm _ denominator, Nat.mul_comm unitsPerOne, nearestMagnitude_scale positive,
    nearestMagnitude_unitsOfMagnitude finite]

section

variable {x y : Float} {q : ℚ}

theorem signedUnits_neg (finite : magnitude x < infinityMagnitude) :
    signedUnits (-x) = -signedUnits x := by
  have number := isNaN_of_finite finite
  simp only [signedUnits, units, magnitude_neg number, isNegative_neg number]
  cases isNegative x <;> simp

theorem magnitude_withSign (negative : Bool) (finite : magnitude x < infinityMagnitude) :
    magnitude (withSign negative x) = magnitude x := by
  cases negative
  · rfl
  · exact magnitude_neg (isNaN_of_finite finite)

theorem signedUnits_withSign (negative : Bool) (finite : magnitude x < infinityMagnitude) :
    signedUnits (withSign negative x) = if negative then -signedUnits x else signedUnits x := by
  cases negative
  · rfl
  · exact signedUnits_neg finite

theorem truncated_of_finite (finite : magnitude x < infinityMagnitude) :
    magnitude (truncated x) < infinityMagnitude ∧ signedUnits (truncated x) =
      if isNegative x then -(wholePart x * unitsPerOne : ℤ) else wholePart x * unitsPerOne := by
  obtain ⟨size, bound, same⟩ := exists_magnitude_wholePart finite
  have kept := magnitude_nearest_exact bound Nat.one_pos (by rw [same, Nat.mul_one])
  have small := kept.trans_lt bound
  rw [magnitude_nearest] at kept
  rw [truncated, if_pos (isFinite_of_finite finite), magnitude_withSign _ small, signedUnits_withSign _ small,
    signedUnits_nearest, kept, same, Nat.cast_mul]
  exact ⟨small, rfl⟩

theorem magnitude_fraction (finite : magnitude x < infinityMagnitude) :
    magnitude (fraction x) = nearestMagnitude (units x % unitsPerOne) unitsPerOne := by
  obtain ⟨small, whole⟩ := truncated_of_finite finite
  have split := Nat.div_add_mod' (units x) unitsPerOne
  have rest : (signedUnits x - signedUnits (truncated x)).natAbs = units x % unitsPerOne := by
    rw [whole, signedUnits, ← Nat.cast_mul, wholePart]
    split_ifs <;> omega
  rw [fraction, magnitude_sub finite small, rest]

theorem nearestMagnitude_eq_zero_iff (numerator : ℕ) :
    nearestMagnitude numerator unitsPerOne = 0 ↔ numerator = 0 := by
  constructor
  · intro zero
    by_contra nonzero
    have least : nearestMagnitude 1 unitsPerOne = 1 :=
      @nearestMagnitude_unitsOfMagnitude 1 (by decide)
    have above := @nearestMagnitude_mono 1 unitsPerOne numerator unitsPerOne unitsPerOne_pos unitsPerOne_pos
      (Nat.mul_le_mul_right _ (Nat.pos_of_ne_zero nonzero))
    omega
  · rintro rfl
    exact nearestMagnitude_zero _

theorem magnitude_sub_self_of_infinite (infinite : infinityMagnitude ≤ magnitude x) :
    infinityMagnitude < magnitude (x - x) := by
  have shape : UnpackedFloat.sub Format.binary64 x.toModel.unpack x.toModel.unpack = .notANumber := by
    rcases unpack_of_infinite infinite with shape | shape <;> rw [shape]
    · cases signOf x <;> rfl
    · rfl
  change _ < (UnpackedFloat.pack Format.binary64 (UnpackedFloat.sub Format.binary64 x.toModel.unpack
    x.toModel.unpack)).toNat % signPlace
  rw [shape]
  decide

/-- A double has nothing behind the point just if it is a whole number. -/
theorem fraction_beq_zero (x : Float) : (fraction x == 0) = isWhole x := by
  rw [Bool.eq_iff_iff, beq_zero_iff, isWhole_iff]
  rcases Nat.lt_or_ge (magnitude x) infinityMagnitude with finite | infinite
  · rw [magnitude_fraction finite, nearestMagnitude_eq_zero_iff, Nat.dvd_iff_mod_eq_zero]
    exact (and_iff_right finite).symm
  · have unfinished : ¬x.isFinite = true := by
      rw [isFinite_eq, decide_eq_true_eq]
      exact Nat.not_lt.mpr infinite
    have unknown := magnitude_sub_self_of_infinite infinite
    rw [fraction, truncated, if_neg unfinished]
    exact iff_of_false (by omega) fun whole => absurd whole.1 (Nat.not_lt.mpr infinite)

end

/-! ### Conversion -/

theorem div_div_shift (number place ones : ℕ) :
    number * 2 ^ (place - ones) / 2 ^ (ones - place) = number * 2 ^ place / 2 ^ ones := by
  rcases Nat.le_total ones place with high | low
  · rw [Nat.sub_eq_zero_of_le high, Nat.pow_zero, Nat.div_one,
      ← Nat.sub_add_cancel high, Nat.pow_add, ← Nat.mul_assoc, Nat.mul_div_cancel _ (Nat.two_pow_pos ones),
      Nat.sub_add_cancel high]
  · rw [Nat.sub_eq_zero_of_le low, Nat.pow_zero, Nat.mul_one]
    nth_rewrite 2 [← Nat.sub_add_cancel low]
    rw [Nat.pow_add, Nat.mul_div_mul_right _ _ (Nat.two_pow_pos place)]

theorem roundToInt_eq (sign : Sign) (mantissa place : ℕ) :
    roundToInt sign mantissa (place - 1074) = sign.apply (mantissa * 2 ^ place / unitsPerOne : ℕ) := by
  obtain ⟨ones, same⟩ : ∃ ones, ones = 1074 := ⟨_, rfl⟩
  have exponent : (place : ℤ) - 1074 = place - ones := by omega
  have raised : ((place : ℤ) - ones - 0).toNat = place - ones := by omega
  have lowered : (0 - ((place : ℤ) - ones - (place - ones : ℕ))).toNat = ones - place := by omega
  rw [unitsPerOne_eq same, Nat.pow_eq, ← div_div_shift, exponent]
  have shifted := (@extends_fraction (mantissa * 2 ^ (place - ones)) 1 Nat.one_pos).shiftRight Nat.one_pos
    (ones - place)
  have whole := shifted.whole
  rw [Nat.div_one, Nat.one_mul, Nat.mod_one] at whole
  simp only [← whole, roundToInt, decreaseExponent, shiftToExponent, raised, lowered, Nat.shiftLeft_eq]
  rfl

/-- What is converted is cut off at the point, and at zero and the last number of 64 bits. -/
theorem toNat_toUInt64 {x : Float} (finite : magnitude x < infinityMagnitude) :
    x.toUInt64.toNat = if isNegative x then 0 else min (wholePart x) (UInt64.size - 1) := by
  have converted : x.toModel.unpack.toInt 0 (UInt64.size - 1) = (signOf x).apply (wholePart x) := by
    rcases Nat.eq_zero_or_pos (magnitude x) with zero | nonzero
    · rw [unpack_of_zero zero, wholePart, (units_eq_zero_iff x).mpr zero, Nat.zero_div]
      cases signOf x <;> rfl
    · obtain ⟨mantissa, positive, place, shape, same⟩ := unpack_of_finite finite nonzero
      rw [shape, wholePart, same]
      exact roundToInt_eq _ _ _
  change (UInt64.ofNatClamp (x.toModel.unpack.toInt 0 (UInt64.size - 1)).toNat).toNat = _
  rw [converted]
  unfold signOf
  cases isNegative x
  · change (UInt64.ofNatClamp (wholePart x)).toNat = _
    rw [if_neg Bool.false_ne_true]
    rcases Nat.lt_or_ge (wholePart x) UInt64.size with fits | large
    · rw [UInt64.toNat_ofNatClamp_of_lt fits, Nat.min_eq_left (Nat.le_sub_one_of_lt fits)]
    · rw [UInt64.toNat_ofNatClamp_of_le large, Nat.min_eq_right (Nat.sub_le_of_le_add (by omega))]
  · have none : ((Sign.negative).apply (wholePart x)).toNat = 0 := by
      change (-(wholePart x : ℤ)).toNat = 0
      omega
    change (UInt64.ofNatClamp ((Sign.negative).apply (wholePart x)).toNat).toNat = _
    rw [none]
    rfl

theorem number?_largestExact : number? (nearest largestExact 1) = some (largestExact : ℚ) := by
  obtain ⟨size, bound, same⟩ := exists_magnitude (Nat.le_refl largestExact)
  have kept := magnitude_nearest_exact bound Nat.one_pos (by rw [same, Nat.mul_one])
  rw [magnitude_nearest] at kept
  rw [number?_eq_natCast_iff, magnitude_nearest, signedUnits_nearest, kept, same, Nat.cast_mul]
  exact ⟨bound, rfl⟩

/-- What passes the checks is converted to the number that it stands for. -/
theorem toNat_toUInt64_of_number {x : Float} {n : ℕ} (valued : number? x = some (n : ℚ))
    (bound : n ≤ largestExact) : x.toUInt64.toNat = n := by
  obtain ⟨finite, same⟩ := number?_eq_natCast_iff.mp valued
  obtain ⟨_, part, _⟩ := @units_of_number x n valued
  have fits : n ≤ UInt64.size - 1 := bound.trans (by decide)
  rw [toNat_toUInt64 finite, part, Int.natAbs_natCast, Nat.min_eq_left fits]
  split_ifs with negative
  · rw [signedUnits, if_pos negative] at same
    have zero : units x = 0 := by
      have unsigned := Int.mul_nonneg (Int.natCast_nonneg n) (Int.natCast_nonneg unitsPerOne)
      omega
    rw [wholePart, zero, Nat.zero_div, Int.natAbs_natCast] at part
    exact part
  · rfl

theorem convertedNatural?_eq_some_iff {x : Float} {n : ℕ} :
    convertedNatural? x = some n ↔ number? x = some (n : ℚ) ∧ n ≤ largestExact := by
  simp only [convertedNatural?, fraction_beq_zero, isFinite_eq, decide_eq_false_iff_not]
  rcases Nat.lt_or_ge (magnitude x) infinityMagnitude with finite | infinite
  · obtain ⟨q, valued⟩ : ∃ q, number? x = some q := ⟨_, number?_of_finite finite⟩
    simp only [lt_iff valued number?_zero, lt_iff number?_largestExact valued, valued, Option.some.injEq]
    constructor
    · intro found
      split_ifs at found with outside fractional
      obtain ⟨_, lower, upper⟩ : _ ∧ 0 ≤ q ∧ q ≤ largestExact := by
        simpa only [not_or, not_not, not_lt] using outside
      obtain ⟨k, rfl⟩ := (isWhole_iff_number valued).mp (by simpa using fractional)
      obtain ⟨m, rfl⟩ := Int.eq_ofNat_of_zero_le (by exact_mod_cast lower : 0 ≤ k)
      have bound : m ≤ largestExact := by exact_mod_cast upper
      rw [@toNat_toUInt64_of_number x m (by exact_mod_cast valued) bound] at found
      cases found
      exact ⟨by norm_cast, bound⟩
    · rintro ⟨rfl, bound⟩
      have whole := (isWhole_iff_number valued).mpr ⟨n, by norm_cast⟩
      have inside : ¬(¬magnitude x < infinityMagnitude ∨ (n : ℚ) < 0 ∨ (largestExact : ℚ) < n) := by
        simp only [not_or, not_not]
        exact ⟨finite, not_lt.mpr (Nat.cast_nonneg n), not_lt.mpr (by exact_mod_cast bound)⟩
      rw [if_neg inside, if_neg (by simp [whole]), toNat_toUInt64_of_number valued bound]
  · have unbounded := Nat.not_lt.mpr infinite
    rw [if_pos (.inl unbounded), number?_eq, if_neg unbounded]
    exact iff_of_false nofun fun valued => nomatch valued.1

theorem convertedNatural?_eq (x : Float) : convertedNatural? x = natural? x :=
  Option.ext fun _ => convertedNatural?_eq_some_iff.trans natural?_eq_some_iff.symm

/-! ### Parity -/

theorem unpack_abs {x : Float} (finite : magnitude x < infinityMagnitude) :
    x.toModel.unpack.abs = if isNegative x then x.toModel.unpack.neg else x.toModel.unpack := by
  rcases Nat.eq_zero_or_pos (magnitude x) with zero | nonzero
  · rw [unpack_of_zero zero, signOf]
    cases isNegative x <;> rfl
  · obtain ⟨_, _, _, shape, _⟩ := unpack_canonical finite nonzero
    rw [shape, signOf]
    cases isNegative x <;> rfl

theorem abs_eq {x : Float} (finite : magnitude x < infinityMagnitude) :
    x.abs = if isNegative x then -x else x := by
  change Float.ofModel (Float.Model.pack x.toModel.unpack.abs) = _
  rw [unpack_abs finite]
  cases isNegative x
  · exact Float.toBits_inj.mp (UInt64.toBitVec_inj.mp (pack_unpack finite))
  · rfl

theorem abs_of_finite {x : Float} (finite : magnitude x < infinityMagnitude) :
    magnitude x.abs = magnitude x ∧ isNegative x.abs = false := by
  have number := isNaN_of_finite finite
  rw [abs_eq finite]
  split_ifs with negative
  · rw [magnitude_neg number, isNegative_neg number, negative]
    exact ⟨rfl, rfl⟩
  · exact ⟨rfl, Bool.eq_false_of_not_eq_true negative⟩

theorem magnitude_two : magnitude 2 = 1024 * fractionCount := rfl

theorem units_two : units 2 = 2 * unitsPerOne := by
  rw [units, magnitude_two, unitsOfMagnitude_two_pow 1, Nat.pow_one]

theorem place_le {x : Float} {mantissa place : ℕ} (finite : magnitude x < infinityMagnitude)
    (canonical : Canonical mantissa place) (same : units x = mantissa * 2 ^ place) : place ≤ 2045 := by
  obtain ⟨short, rfl | filled⟩ := canonical
  · exact Nat.zero_le _
  · have size := @unitsOfMagnitude_place _ place (Nat.le_of_lt short) (.inr filled)
    rw [← same] at size
    have placed := unitsOfMagnitude_strictMono.injective size
    simp only [infinityMagnitude, fractionCount] at finite filled placed
    omega

/-- A remainder has no bits below the lower one of two places, so it is a double again. -/
theorem exists_magnitude_mod {x y : Float} (finite : magnitude x < infinityMagnitude)
    (finite' : magnitude y < infinityMagnitude) (nonzero' : 0 < magnitude y) :
    ∃ size < infinityMagnitude, unitsOfMagnitude size = units x % units y := by
  rcases Nat.eq_zero_or_pos (magnitude x) with zero | nonzero
  · exact ⟨0, by decide, by rw [(units_eq_zero_iff x).mpr zero, Nat.zero_mod]; rfl⟩
  obtain ⟨mantissa, _, place, _, same, canonical⟩ := unpack_canonical finite nonzero
  obtain ⟨mantissa', _, place', _, same', canonical'⟩ := unpack_canonical finite' nonzero'
  have dvd {low : ℕ} (lower : low ≤ place) (lower' : low ≤ place') : 2 ^ low ∣ units x % units y := by
    rw [Nat.dvd_mod_iff (same' ▸ Dvd.dvd.mul_left (Nat.pow_dvd_pow 2 lower') _)]
    exact same ▸ Dvd.dvd.mul_left (Nat.pow_dvd_pow 2 lower) _
  rcases Nat.le_total place place' with lower | upper
  · obtain ⟨rest, left⟩ := dvd (Nat.le_refl place) lower
    have below := Nat.mod_le (units x) (units y)
    rw [left, same, Nat.mul_comm] at below
    have short := Nat.le_of_mul_le_mul_right below (Nat.two_pow_pos place)
    rw [left, Nat.mul_comm]
    exact exists_magnitude_place (Nat.lt_of_le_of_lt short canonical.1) (place_le finite canonical same)
  · obtain ⟨rest, left⟩ := dvd upper (Nat.le_refl place')
    have below := Nat.mod_lt (units x) ((units_pos_iff y).mpr nonzero')
    rw [left, same', Nat.mul_comm] at below
    have short := Nat.lt_of_mul_lt_mul_right below
    rw [left, Nat.mul_comm]
    exact exists_magnitude_place (short.trans canonical'.1) (place_le finite' canonical' same')

/-- The remainder is exact. -/
theorem units_remainder {x y : Float} (finite : magnitude x < infinityMagnitude)
    (finite' : magnitude y < infinityMagnitude) (nonzero : 0 < magnitude y) :
    magnitude (remainder x y) < infinityMagnitude ∧ units (remainder x y) = units x % units y := by
  obtain ⟨size, bound, same⟩ := exists_magnitude_mod finite finite' nonzero
  have kept := magnitude_nearest_exact bound unitsPerOne_pos (by rw [same])
  have signed := magnitude_withSign (isNegative x) (kept.trans_lt bound)
  rw [remainder, if_pos ⟨isFinite_of_finite finite, nonzero, isNaN_of_finite finite'⟩,
    if_pos (isFinite_of_finite finite'), signed, kept]
  exact ⟨bound, (congrArg unitsOfMagnitude (signed.trans kept)).trans same⟩

theorem number?_abs_remainder_two {x : Float} (whole : isWhole x = true) :
    number? (remainder x 2).abs = some ((wholePart x % 2 : ℕ) : ℚ) := by
  obtain ⟨finite, divides⟩ := (isWhole_iff x).mp whole
  obtain ⟨small, rest⟩ := @units_remainder x 2 finite (by decide) (by decide)
  obtain ⟨kept, unsigned⟩ := abs_of_finite small
  rw [number?_eq_natCast_iff, signedUnits, unsigned, if_neg Bool.false_ne_true, units, kept]
  refine ⟨small, ?_⟩
  change (units (remainder x 2) : ℤ) = _
  rw [rest, units_two, ← Nat.cast_mul, ← Nat.mul_mod_mul_right, wholePart, Nat.div_mul_cancel divides]

theorem hasOddRemainder_eq (x : Float) : hasOddRemainder x = isOdd x := by
  rw [hasOddRemainder, isOdd, fraction_beq_zero, Bool.and_assoc, Bool.and_left_comm]
  cases whole : isWhole x
  · rfl
  · rw [isFinite_of_finite ((isWhole_iff x).mp whole).1, Bool.true_and, Bool.true_and, Bool.true_and,
      Bool.eq_iff_iff, beq_iff (number?_abs_remainder_two whole) number?_one, Nat.cast_inj, beq_iff_eq]

/-- From `2 ^ 53` on, all doubles are even. -/
theorem isOdd_of_large {x : Float} {q : ℚ} (valued : number? x = some q) (large : 2 ^ 53 ≤ |q|) :
    isOdd x = false := by
  rw [← Bool.not_eq_true, isOdd_iff]
  rintro ⟨k, odd, same⟩
  obtain rfl : q = k := Option.some.inj (valued.symm.trans same)
  obtain ⟨_, _, size⟩ := units_of_number valued
  have wide : 2 ^ 53 ≤ k.natAbs := by
    have cast : (2 ^ 53 : ℤ) ≤ |k| := by exact_mod_cast large
    rw [Int.abs_eq_natAbs] at cast
    omega
  have first := unitsOfMagnitude_two_pow 53
  have above : (1023 + 53) * fractionCount ≤ magnitude x := by
    rw [← unitsOfMagnitude_strictMono.le_iff_le, first]
    exact (Nat.mul_le_mul_right _ wide).trans_eq size.symm
  obtain ⟨count, total⟩ := @mul_two_pow_dvd_unitsOfMagnitude _ 1 above
  change units x = _ at total
  rw [size] at total
  have positive := unitsPerOne_pos
  generalize unitsPerOne = one at total positive
  have even : k.natAbs = 2 * count := Nat.eq_of_mul_eq_mul_right positive (by rw [total]; ring)
  rw [← Int.natAbs_odd, even] at odd
  exact absurd odd (by simp)

/-- What the two checks find out of any 64 bits: the natural number below `2 ^ 53` that they stand for, and
whether they stand for an odd number. In doubles they come to the same, and the conversion is exact. -/
theorem natural_and_odd_of_bits (bits : UInt64) :
    (∀ n, natural? (Float.ofBits bits) = some n ↔
      numberOfBits bits = some (n : ℚ) ∧ n ≤ 2 ^ 53 - 1) ∧
    (isOdd (Float.ofBits bits) = true ↔ ∃ k : ℤ, Odd k ∧ numberOfBits bits = some (k : ℚ)) ∧
    (∀ q, numberOfBits bits = some q → 2 ^ 53 ≤ |q| → isOdd (Float.ofBits bits) = false) ∧
    natural? (Float.ofBits bits) = convertedNatural? (Float.ofBits bits) ∧
    (∀ n, natural? (Float.ofBits bits) = some n → (Float.ofBits bits).toUInt64.toNat = n) ∧
    isOdd (Float.ofBits bits) = hasOddRemainder (Float.ofBits bits) := by
  have value := number?_ofBits bits
  rw [← value]
  generalize Float.ofBits bits = x
  refine ⟨fun n => natural?_eq_some_iff, isOdd_iff, fun q => isOdd_of_large,
    (convertedNatural?_eq x).symm, fun n found => ?_, (hasOddRemainder_eq x).symm⟩
  obtain ⟨valued, bound⟩ := natural?_eq_some_iff.mp found
  exact toNat_toUInt64_of_number valued bound

end InfixCalculator.Binary64
