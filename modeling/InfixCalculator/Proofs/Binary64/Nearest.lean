import InfixCalculator.Binary64
import Mathlib

namespace InfixCalculator

/-! Rounding of quotients to the nearest double.

A quotient is rounded by its value, whatever numerator and denominator it is written with
(`nearestMagnitude_scale`), and never past the rounding of a greater one (`nearestMagnitude_mono`). What is
a double already stays what it is (`nearestMagnitude_unitsOfMagnitude`). -/

theorem roundHalfEven_scale {scale : Nat} (positive : 0 < scale) (numerator denominator : Nat) :
    roundHalfEven (scale * numerator) (scale * denominator) =
      roundHalfEven numerator denominator := by
  have less (a b : Nat) : 2 * (scale * a) < scale * b ↔ 2 * a < b := by
    rw [Nat.mul_left_comm, Nat.mul_lt_mul_left positive]
  have same (a b : Nat) : 2 * (scale * a) = scale * b ↔ 2 * a = b := by
    rw [Nat.mul_left_comm, Nat.mul_right_inj (Nat.ne_of_gt positive)]
  simp only [roundHalfEven, Nat.mul_div_mul_left _ _ positive, Nat.mul_mod_mul_left, less, same]

theorem roundHalfEven_congr {numerator denominator numerator' denominator' : Nat}
    (positive : 0 < denominator) (positive' : 0 < denominator')
    (same : numerator * denominator' = numerator' * denominator) :
    roundHalfEven numerator denominator = roundHalfEven numerator' denominator' := by
  rw [← roundHalfEven_scale positive', Nat.mul_comm denominator' numerator, same,
    Nat.mul_comm numerator', Nat.mul_comm denominator', roundHalfEven_scale positive]

theorem div_le_roundHalfEven (numerator denominator : Nat) :
    numerator / denominator ≤ roundHalfEven numerator denominator := by
  simp only [roundHalfEven]
  split <;> omega

theorem roundHalfEven_le_succ (numerator denominator : Nat) :
    roundHalfEven numerator denominator ≤ numerator / denominator + 1 := by
  simp only [roundHalfEven]
  split <;> omega

theorem roundHalfEven_mono (denominator : Nat) {numerator numerator' : Nat}
    (ordered : numerator ≤ numerator') :
    roundHalfEven numerator denominator ≤ roundHalfEven numerator' denominator := by
  have wholes := Nat.div_le_div_right (c := denominator) ordered
  rcases Nat.lt_or_eq_of_le wholes with less | same
  · exact (roundHalfEven_le_succ _ _).trans (less.trans_le (div_le_roundHalfEven _ _))
  · have split := Nat.div_add_mod numerator denominator
    have split' := Nat.div_add_mod numerator' denominator
    rw [same] at split
    simp only [roundHalfEven, same]
    grind

namespace Binary64

theorem nearestMagnitude_scale {scale : Nat} (positive : 0 < scale) (numerator denominator : Nat) :
    nearestMagnitude (scale * numerator) (scale * denominator) =
      nearestMagnitude numerator denominator := by
  simp only [nearestMagnitude, Nat.mul_assoc, Nat.mul_div_mul_left _ _ positive,
    roundHalfEven_scale positive]

@[simp] theorem nearestMagnitude_zero (denominator : Nat) : nearestMagnitude 0 denominator = 0 := by
  have none : roundHalfEven 0 denominator = 0 := by
    simp [roundHalfEven]
    omega
  simp [nearestMagnitude, none]

theorem unitsPerOne_pos : 0 < unitsPerOne := by decide +kernel

theorem log2_shifted {fraction : Nat} (bound : fraction < fractionCount) (place : Nat) :
    ((fractionCount + fraction) * 2 ^ place).log2 = 52 + place := by
  simp only [fractionCount] at bound ⊢
  have positive := Nat.two_pow_pos place
  rw [Nat.log2_eq_iff (Nat.ne_of_gt (Nat.mul_pos (by omega) positive)), Nat.pow_succ, Nat.pow_add]
  constructor
  · exact Nat.mul_le_mul_right _ (by omega)
  · rw [Nat.mul_right_comm]
    exact Nat.mul_lt_mul_of_pos_right (by omega) positive

theorem unitsOfMagnitude_subnormal {size : Nat} (low : size < fractionCount) :
    unitsOfMagnitude size = size := if_pos low

theorem unitsOfMagnitude_normal (place : Nat) {fraction : Nat} (bound : fraction < fractionCount) :
    unitsOfMagnitude ((place + 1) * fractionCount + fraction) =
      (fractionCount + fraction) * 2 ^ place := by
  have high : ¬(place + 1) * fractionCount + fraction < fractionCount := by
    rw [Nat.add_one_mul]
    omega
  have exponent : ((place + 1) * fractionCount + fraction) / fractionCount = place + 1 := by
    rw [Nat.mul_comm, Nat.mul_add_div (by decide), Nat.div_eq_of_lt bound, Nat.add_zero]
  have rest : ((place + 1) * fractionCount + fraction) % fractionCount = fraction := by
    rw [Nat.mul_comm, Nat.mul_add_mod, Nat.mod_eq_of_lt bound]
  rw [unitsOfMagnitude, if_neg high, exponent, rest]
  rfl

theorem subnormal_or_normal (size : Nat) : size < fractionCount ∨
    ∃ place fraction, fraction < fractionCount ∧ size = (place + 1) * fractionCount + fraction := by
  refine (Nat.lt_or_ge size fractionCount).imp_right fun high => ?_
  have split := Nat.div_add_mod' size fractionCount
  have above : 0 < size / fractionCount := Nat.div_pos high (by decide)
  refine ⟨size / fractionCount - 1, size % fractionCount, Nat.mod_lt _ (by decide), ?_⟩
  rw [Nat.sub_add_cancel above, split]

/-- The exact size of a finite double is rounded to its magnitude. -/
theorem nearestMagnitude_unitsOfMagnitude {size : Nat} (finite : size < infinityMagnitude) :
    nearestMagnitude (unitsOfMagnitude size) unitsPerOne = size := by
  have positive := unitsPerOne_pos
  rw [nearestMagnitude, Nat.mul_div_cancel _ positive]
  generalize unitsPerOne = one at positive ⊢
  rcases subnormal_or_normal size with low | ⟨place, fraction, bound, rfl⟩
  · have short : size.log2 - 52 = 0 := by
      rcases Nat.eq_zero_or_pos size with rfl | nonzero
      · rfl
      · have bound := (Nat.log2_lt (Nat.ne_of_gt nonzero)).mpr (show size < 2 ^ 52 from low)
        omega
    simp only [unitsOfMagnitude_subnormal low, short, Nat.zero_mul, Nat.zero_add]
    rw [show one * Nat.pow 2 0 = one from Nat.mul_one _, roundHalfEven_mul positive]
    exact Nat.min_eq_left (Nat.le_of_lt finite)
  · have scale : 0 < one * 2 ^ place := Nat.mul_pos positive (Nat.two_pow_pos _)
    simp only [unitsOfMagnitude_normal place bound, Nat.pow_eq, log2_shifted bound,
      Nat.add_sub_cancel_left]
    rw [Nat.mul_assoc, Nat.mul_comm _ one, roundHalfEven_mul scale, ← Nat.add_assoc,
      ← Nat.add_one_mul]
    exact Nat.min_eq_left (Nat.le_of_lt finite)

/-- A greater magnitude stands for a greater size. -/
theorem unitsOfMagnitude_strictMono : StrictMono unitsOfMagnitude := by
  refine strictMono_nat_of_lt_succ fun size => ?_
  rcases subnormal_or_normal size with low | ⟨place, fraction, bound, rfl⟩
  · rw [unitsOfMagnitude_subnormal low]
    rcases Nat.lt_or_eq_of_le (Nat.succ_le_of_lt low) with low' | first
    · rw [unitsOfMagnitude_subnormal low']
      exact Nat.lt_succ_self size
    · rw [← Nat.succ_eq_add_one, first]
      exact low
  · rw [unitsOfMagnitude_normal place bound, Nat.add_assoc]
    rcases Nat.lt_or_eq_of_le (Nat.succ_le_of_lt bound) with bound' | last
    · rw [unitsOfMagnitude_normal place bound']
      exact Nat.mul_lt_mul_of_pos_right (by omega) (Nat.two_pow_pos place)
    · have next := unitsOfMagnitude_normal (place + 1) (show 0 < fractionCount by decide)
      rw [Nat.add_zero, Nat.add_zero, Nat.pow_succ', ← Nat.mul_assoc] at next
      rw [← Nat.succ_eq_add_one fraction, last, ← Nat.add_one_mul, next]
      exact Nat.mul_lt_mul_of_pos_right (by omega) (Nat.two_pow_pos place)

theorem div_two_pow_lt {quotient place : Nat} (short : quotient.log2 ≤ 52 + place) :
    quotient / 2 ^ place < 2 * fractionCount := by
  rw [Nat.div_lt_iff_lt_mul (Nat.two_pow_pos place)]
  calc quotient < 2 ^ (quotient.log2 + 1) := Nat.lt_log2_self
    _ ≤ 2 ^ (53 + place) := Nat.pow_le_pow_right (by decide) (by omega)
    _ = 2 * fractionCount * 2 ^ place := Nat.pow_add 2 53 place

theorem le_div_two_pow {quotient place : Nat}
    (long : 52 + place ≤ quotient.log2) : fractionCount ≤ quotient / 2 ^ place := by
  have nonzero : quotient ≠ 0 := by
    rintro rfl
    simp at long
  rw [Nat.le_div_iff_mul_le (Nat.two_pow_pos place)]
  calc fractionCount * 2 ^ place = 2 ^ (52 + place) := (Nat.pow_add 2 52 place).symm
    _ ≤ 2 ^ quotient.log2 := Nat.pow_le_pow_right (by decide) long
    _ ≤ quotient := Nat.log2_self_le nonzero

/-- A greater quotient is rounded to no lesser magnitude. -/
theorem nearestMagnitude_mono {numerator denominator numerator' denominator' : Nat}
    (positive : 0 < denominator) (positive' : 0 < denominator')
    (ordered : numerator * denominator' ≤ numerator' * denominator) :
    nearestMagnitude numerator denominator ≤ nearestMagnitude numerator' denominator' := by
  rw [← nearestMagnitude_scale positive', ← nearestMagnitude_scale positive numerator',
    Nat.mul_comm denominator denominator']
  rw [Nat.mul_comm numerator, Nat.mul_comm numerator'] at ordered
  generalize denominator' * numerator = lesser, denominator * numerator' = greater at ordered ⊢
  have scale : 0 < denominator' * denominator := Nat.mul_pos positive' positive
  generalize denominator' * denominator = common at scale ⊢
  simp only [nearestMagnitude, Nat.pow_eq]
  have scaled := Nat.mul_le_mul_right unitsPerOne ordered
  generalize lesser * unitsPerOne = lesser, greater * unitsPerOne = greater at scaled ⊢
  have wholes := Nat.div_le_div_right (c := common) scaled
  have places : (lesser / common).log2 ≤ (greater / common).log2 := by
    simpa only [Nat.log2_eq_log_two] using Nat.log_mono_right wholes
  refine min_le_min_right _ ?_
  -- With more bits to drop, the greater quotient is past all magnitudes that the lesser can be rounded to.
  rcases Nat.lt_or_eq_of_le (Nat.sub_le_sub_right places 52) with less | same
  · have below := roundHalfEven_le_succ lesser (common * 2 ^ ((lesser / common).log2 - 52))
    have above := div_le_roundHalfEven greater (common * 2 ^ ((greater / common).log2 - 52))
    have short := @div_two_pow_lt (lesser / common) _ (Nat.sub_le_iff_le_add'.mp (Nat.le_refl _))
    have long := @le_div_two_pow (greater / common) ((greater / common).log2 - 52) (by omega)
    rw [← Nat.div_div_eq_div_mul] at below above
    have next := Nat.mul_le_mul_right fractionCount (Nat.succ_le_of_lt less)
    rw [Nat.succ_mul] at next
    omega
  · rw [same]
    exact Nat.add_le_add_left (roundHalfEven_mono _ scaled) _

end Binary64
end InfixCalculator
