import InfixCalculator.Proofs.Binary64.Number

namespace InfixCalculator.Binary64

open Float.Model Float.Model.UnpackedFloat

/-! Differences of doubles.

Subtraction brings two mantissas to the lower one of their places, where their difference is exact, and
rounds that once. So a difference is the exact one, rounded once (`magnitude_sub`), and it is zero just for
doubles that stand for one number. -/

/-- The bits to fill up a mantissa with so that it has 53, if there are places for them. -/
def missing (mantissa : ℕ) (exponent : ℤ) : ℕ :=
  (exponent - max (mantissa.log2 - 52 + exponent) (-1074)).toNat

theorem round_eq (sign : Sign) (mantissa : ℕ) (exponent : ℤ) :
    UnpackedFloat.round Format.binary64 sign mantissa exponent =
      roundWithAccuracy Format.binary64 sign (mantissa * 2 ^ missing mantissa exponent)
        (exponent - missing mantissa exponent) .exact := by
  have target : Format.binary64.targetExponent (totalExponent mantissa exponent) =
      max (mantissa.log2 - 52 + exponent) (-1074) := by
    change max ((mantissa.log2 : ℤ) + 1 + exponent - 53) (-1074) = _
    omega
  rw [UnpackedFloat.round, target, decreaseExponent, Nat.shiftLeft_eq]
  rfl

theorem wide_filled {mantissa : ℕ} (positive : 0 < mantissa) (exponent : ℤ) :
    Wide (mantissa * 2 ^ missing mantissa exponent) (exponent - missing mantissa exponent) := by
  refine Decidable.or_iff_not_imp_left.mpr fun high => ?_
  have long : 52 ≤ mantissa.log2 + missing mantissa exponent := by
    unfold missing at high ⊢
    omega
  calc fractionCount ≤ 2 ^ (mantissa.log2 + missing mantissa exponent) :=
        Nat.pow_le_pow_right (n := 2) (by decide) long
    _ = 2 ^ mantissa.log2 * 2 ^ missing mantissa exponent := Nat.pow_add _ _ _
    _ ≤ mantissa * 2 ^ missing mantissa exponent :=
        Nat.mul_le_mul_right _ (Nat.log2_self_le (Nat.ne_of_gt positive))

theorem size_pack_round_whole (sign : Sign) {mantissa : ℕ} (positive : 0 < mantissa) (place : ℕ) :
    (UnpackedFloat.pack Format.binary64
      (UnpackedFloat.round Format.binary64 sign mantissa (place - 1074))).toNat % signPlace =
        nearestMagnitude (mantissa * 2 ^ place) unitsPerOne := by
  have wide := wide_filled positive (place - 1074)
  rw [round_eq]
  generalize missing mantissa (place - 1074) = shift at wide ⊢
  obtain ⟨target, placed⟩ := exists_place (mantissa * 2 ^ shift) (place - 1074 - shift)
  have whole := Nat.div_one (mantissa * 2 ^ shift)
  rw [← whole] at wide placed
  have rounded := size_pack_round sign Nat.one_pos wide placed
  have nearest := @nearestMagnitude_eq _ 1 (mantissa * 2 ^ place) unitsPerOne _ _ Nat.one_pos
    unitsPerOne_pos ?_ wide placed
  · rw [nearest, ← rounded, Nat.mod_one, whole]
    rfl
  have raised : ((place : ℤ) - 1074 - shift + 1074).toNat = place - shift := by omega
  have lowered : (-1074 - ((place : ℤ) - 1074 - shift)).toNat = shift - place := by omega
  have places : place + (shift - place) = shift + (place - shift) := by omega
  rw [raised, lowered]
  generalize unitsPerOne = one
  calc mantissa * 2 ^ place * one * 1 * 2 ^ (shift - place)
      = mantissa * one * 2 ^ (place + (shift - place)) := by rw [Nat.pow_add]; ring
    _ = mantissa * 2 ^ shift * one * 2 ^ (place - shift) := by rw [places, Nat.pow_add]; ring

theorem size_pack_normalize (mantissa : ℤ) (place : ℕ) (sign : Sign) :
    (UnpackedFloat.pack Format.binary64
      (UnpackedFloat.normalize Format.binary64 mantissa (place - 1074) sign)).toNat % signPlace =
        nearestMagnitude (mantissa.natAbs * 2 ^ place) unitsPerOne := by
  unfold UnpackedFloat.normalize
  rcases lt_trichotomy mantissa 0 with negative | rfl | positive
  · rw [compare_lt_iff_lt.mpr negative]
    have size : (-mantissa).toNat = mantissa.natAbs := by omega
    dsimp only
    rw [size, size_pack_round_whole _ (by omega)]
  · rw [compare_eq_iff_eq.mpr rfl, Int.natAbs_zero, Nat.zero_mul, nearestMagnitude_zero]
    exact size_pack_zero sign
  · rw [compare_gt_iff_gt.mpr positive]
    have size : mantissa.toNat = mantissa.natAbs := by omega
    dsimp only
    rw [size, size_pack_round_whole _ (by omega)]

theorem sub_finite (sign sign' : Sign) {mantissa mantissa' : ℕ} (positive : 0 < mantissa)
    (positive' : 0 < mantissa') (place place' : ℕ) :
    UnpackedFloat.sub Format.binary64 (.finite sign mantissa (place - 1074) positive)
        (.finite sign' mantissa' (place' - 1074) positive') =
      UnpackedFloat.normalize Format.binary64 (sign.apply (mantissa * 2 ^ (place - min place place') : ℕ) -
        sign'.apply (mantissa' * 2 ^ (place' - min place place') : ℕ))
        ((min place place' : ℕ) - 1074) .positive := by
  have lowest : min ((place : ℤ) - 1074) (place' - 1074) = (min place place' : ℕ) - 1074 := by omega
  have shift : ((place : ℤ) - 1074 - ((min place place' : ℕ) - 1074)).toNat =
      place - min place place' := by omega
  have shift' : ((place' : ℤ) - 1074 - ((min place place' : ℕ) - 1074)).toNat =
      place' - min place place' := by omega
  simp only [UnpackedFloat.sub, decreaseExponent, lowest, shift, shift', Nat.shiftLeft_eq]

theorem apply_signOf (x : Float) : (signOf x).apply (units x) = signedUnits x := by
  rcases signedUnits_cases x with ⟨sign, value⟩ | ⟨sign, value⟩ <;> rw [sign, value] <;> rfl

theorem apply_mul (sign : Sign) (mantissa scale : ℤ) :
    sign.apply (mantissa * scale) = sign.apply mantissa * scale := by
  cases sign
  · exact neg_mul_eq_neg_mul mantissa scale
  · rfl

theorem pack_unpack {x : Float} (finite : magnitude x < infinityMagnitude) :
    UnpackedFloat.pack Format.binary64 x.toModel.unpack = x.toBits.toBitVec :=
  congrArg UInt64.toBitVec (toBits_ofBits (Nat.le_of_lt finite))

/-- The difference of finite doubles is the exact one, rounded once. -/
theorem magnitude_sub {x y : Float} (finite : magnitude x < infinityMagnitude)
    (finite' : magnitude y < infinityMagnitude) :
    magnitude (x - y) = nearestMagnitude (signedUnits x - signedUnits y).natAbs unitsPerOne := by
  change (UnpackedFloat.pack Format.binary64 (UnpackedFloat.sub Format.binary64 x.toModel.unpack
    y.toModel.unpack)).toNat % signPlace = _
  rcases Nat.eq_zero_or_pos (magnitude y) with zero' | nonzero'
  · rw [signedUnits_of_zero zero', sub_zero, natAbs_signedUnits, units,
      nearestMagnitude_unitsOfMagnitude finite, unpack_of_zero zero']
    rcases Nat.eq_zero_or_pos (magnitude x) with zero | nonzero
    · rw [unpack_of_zero zero, zero, UnpackedFloat.sub]
      split_ifs <;> exact size_pack_zero _
    · obtain ⟨_, _, _, shape, _⟩ := unpack_canonical finite nonzero
      have kept := pack_unpack finite
      rw [shape] at kept ⊢
      change (UnpackedFloat.pack _ (.finite _ _ _ _)).toNat % _ = _
      rw [kept]
      rfl
  · obtain ⟨mantissa', positive', place', shape', same', _⟩ := unpack_canonical finite' nonzero'
    rcases Nat.eq_zero_or_pos (magnitude x) with zero | nonzero
    · rw [signedUnits_of_zero zero, zero_sub, Int.natAbs_neg, natAbs_signedUnits, units,
        nearestMagnitude_unitsOfMagnitude finite', unpack_of_zero zero, shape']
      rw [← magnitude_neg (isNaN_of_finite finite')]
      change _ = (UnpackedFloat.pack Format.binary64 y.toModel.unpack.neg).toNat % signPlace
      rw [shape']
      rfl
    · obtain ⟨mantissa, positive, place, shape, same, _⟩ := unpack_canonical finite nonzero
      rw [shape, shape', sub_finite, size_pack_normalize]
      generalize lowest : min place place' = low
      have scale : (2 : ℤ) ^ low = (2 ^ low : ℕ) := by push_cast; rfl
      have scaled : units x = mantissa * 2 ^ (place - low) * 2 ^ low := by
        rw [same, Nat.mul_assoc, ← Nat.pow_add, Nat.sub_add_cancel (by omega)]
      have scaled' : units y = mantissa' * 2 ^ (place' - low) * 2 ^ low := by
        rw [same', Nat.mul_assoc, ← Nat.pow_add, Nat.sub_add_cancel (by omega)]
      rw [← apply_signOf, ← apply_signOf, scaled, scaled', Nat.cast_mul _ (2 ^ low),
        Nat.cast_mul _ (2 ^ low), apply_mul, apply_mul, ← sub_mul, Int.natAbs_mul, Int.natAbs_natCast]

end InfixCalculator.Binary64
