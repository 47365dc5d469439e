import InfixCalculator.Binary64
import Mathlib

namespace InfixCalculator.Binary64

open Float.Model Float.Model.UnpackedFloat

/-! The bits of doubles.

`toBits_ofBits` says that a double keeps the bits it is made of, unless they are those of a NaN. The
other statements say in terms of sign and magnitude which doubles are finite, infinite or NaN, and what
a change of sign does. -/

private abbrev exponentBits (bits : BitVec 64) : BitVec 11 := @unpackExponent Format.binary64 bits

private abbrev fractionBits (bits : BitVec 64) : BitVec 52 := @unpackMantissa Format.binary64 bits

private abbrev signBit (bits : BitVec 64) : BitVec 1 := @unpackSign Format.binary64 bits

private theorem toNat_exponentBits (bits : BitVec 64) :
    (exponentBits bits).toNat = bits.toNat / 0x10000000000000 % 0x800 := by
  change (bits.extractLsb' 52 11).toNat = _
  simp [Nat.shiftRight_eq_div_pow]

private theorem toNat_fractionBits (bits : BitVec 64) :
    (fractionBits bits).toNat = bits.toNat % 0x10000000000000 := by
  change (bits.extractLsb' 0 52).toNat = _
  simp

private theorem toNat_signBit (bits : BitVec 64) :
    (signBit bits).toNat = bits.toNat / 0x8000000000000000 := by
  change (bits.extractLsb' 63 1).toNat = _
  have bound := bits.isLt
  simp [Nat.shiftRight_eq_div_pow]
  omega

theorem toNat_packComponents (sign : Sign) (exponent : BitVec 11) (fraction : BitVec 52) :
    (packComponents Format.binary64 sign exponent fraction).toNat =
      sign.toBitVec.toNat * 0x8000000000000000 + exponent.toNat * 0x10000000000000 +
        fraction.toNat := by
  change (sign.toBitVec ++ exponent ++ fraction : BitVec 64).toNat = _
  rw [BitVec.toNat_append, BitVec.toNat_append, Nat.shiftLeft_eq, Nat.shiftLeft_eq]
  have fractionBound := fraction.isLt
  have exponentBound := exponent.isLt
  rw [← Nat.shiftLeft_eq, ← Nat.shiftLeft_eq, ← Nat.shiftLeft_add_eq_or_of_lt exponentBound,
    ← Nat.shiftLeft_add_eq_or_of_lt fractionBound, Nat.shiftLeft_eq, Nat.shiftLeft_eq]
  omega

/-- The fraction of a double that is not too small has a one before it. -/
private theorem toNat_one_append (bits : BitVec 64) :
    (1#1 ++ fractionBits bits).toNat = 0x10000000000000 + (fractionBits bits).toNat := by
  have bound : (fractionBits bits).toNat < 0x10000000000000 := (fractionBits bits).isLt
  rw [BitVec.toNat_append]
  change 1 <<< 52 ||| _ = _
  rw [← Nat.shiftLeft_add_eq_or_of_lt bound]
  rfl

/-- A mantissa has all the bits that a double keeps, unless it stands at the least place. -/
def Canonical (mantissa place : Nat) : Prop :=
  mantissa < 2 * fractionCount ∧ (place = 0 ∨ fractionCount ≤ mantissa)

/-- How bits are taken apart, by their size without the sign. -/
private theorem unpack_cases (bits : BitVec 64) :
    let unpacked := UnpackedFloat.unpack Format.binary64 bits
    let sign := Sign.ofBitVec (signBit bits)
    let size := bits.toNat % signPlace
    (size = 0 ∧ unpacked = .zero sign) ∨
      (0 < size ∧ size < infinityMagnitude ∧ ∃ mantissa positive, ∃ place : Nat,
        unpacked = .finite sign mantissa (place - 1074) positive ∧
          unitsOfMagnitude size = mantissa * 2 ^ place ∧ Canonical mantissa place) ∨
      (size = infinityMagnitude ∧ unpacked = .infinity sign) ∨
      (infinityMagnitude < size ∧ unpacked = .notANumber) := by
  have exponent := toNat_exponentBits bits
  have fraction := toNat_fractionBits bits
  have exponentFull : exponentBits bits = -1#_ ↔ (exponentBits bits).toNat = 2047 :=
    ⟨fun same => congrArg BitVec.toNat same, fun same => BitVec.eq_of_toNat_eq same⟩
  have exponentEmpty : exponentBits bits = 0#_ ↔ (exponentBits bits).toNat = 0 :=
    ⟨fun same => congrArg BitVec.toNat same, fun same => BitVec.eq_of_toNat_eq same⟩
  have fractionEmpty : fractionBits bits = 0#_ ↔ (fractionBits bits).toNat = 0 :=
    ⟨fun same => congrArg BitVec.toNat same, fun same => BitVec.eq_of_toNat_eq same⟩
  delta UnpackedFloat.unpack
  dsimp only [signPlace, infinityMagnitude, fractionCount]
  by_cases full : (exponentBits bits).toNat = 2047
  · rw [if_pos (exponentFull.mpr full)]
    by_cases empty : (fractionBits bits).toNat = 0
    · rw [if_pos (fractionEmpty.mpr empty)]
      exact .inr (.inr (.inl ⟨by omega, rfl⟩))
    · rw [if_neg (mt fractionEmpty.mp empty)]
      exact .inr (.inr (.inr ⟨by omega, rfl⟩))
  · rw [if_neg (mt exponentFull.mp full)]
    by_cases low : (exponentBits bits).toNat = 0
    · rw [if_pos (exponentEmpty.mpr low)]
      by_cases empty : (fractionBits bits).toNat = 0
      · rw [dif_pos (fractionEmpty.mpr empty)]
        exact .inl ⟨by omega, rfl⟩
      · rw [dif_neg (mt fractionEmpty.mp empty)]
        refine .inr (.inl ⟨by omega, by omega, _, Nat.pos_of_ne_zero empty, 0, ?_, ?_, ?_⟩)
        · rw [low]
          rfl
        · rw [unitsOfMagnitude, if_pos (by simp only [fractionCount]; omega)]
          omega
        · exact ⟨by simp only [fractionCount]; omega, .inl rfl⟩
    · rw [if_neg (mt exponentEmpty.mp low)]
      have positive : 0 < (1#1 ++ fractionBits bits).toNat := by
        rw [toNat_one_append]
        omega
      refine .inr (.inl ⟨by omega, by omega, _, positive, (exponentBits bits).toNat - 1, ?_, ?_, ?_⟩)
      · have shifted : ((exponentBits bits).toNat : Int) - 1075 =
            ((exponentBits bits).toNat - 1 : Nat) - 1074 := by omega
        simp only [← shifted]
        rfl
      · have place : bits.toNat % 0x8000000000000000 / fractionCount = (exponentBits bits).toNat := by
          simp only [fractionCount]
          omega
        have rest : bits.toNat % 0x8000000000000000 % fractionCount = (fractionBits bits).toNat := by
          simp only [fractionCount]
          omega
        rw [unitsOfMagnitude, if_neg (by simp only [fractionCount]; omega), toNat_one_append, place,
          rest]
        rfl
      · rw [toNat_one_append]
        simp only [Canonical, fractionCount]
        omega

private theorem pack_unpack_of_le {bits : BitVec 64}
    (known : bits.toNat % signPlace ≤ infinityMagnitude) :
    UnpackedFloat.pack Format.binary64 (UnpackedFloat.unpack Format.binary64 bits) = bits := by
  have number : ¬(exponentBits bits = -1#_ ∧ fractionBits bits ≠ 0#_) := by
    rintro ⟨full, filled⟩
    have exponent := toNat_exponentBits bits
    have fraction := toNat_fractionBits bits
    rw [full] at exponent
    change 2047 = _ at exponent
    have positive : (fractionBits bits).toNat ≠ 0 := fun same =>
      filled (BitVec.eq_of_toNat_eq same)
    simp only [signPlace, infinityMagnitude, fractionCount] at known
    omega
  have restored := @UnpackedFloat.pack_unpack Format.binary64 bits (by decide)
  rwa [if_neg (by simpa [isNaNBits] using number)] at restored

/-- A double keeps the bits it is made of, unless they are those of a NaN. -/
theorem toBits_ofBits {bits : UInt64} (known : bits.toNat % signPlace ≤ infinityMagnitude) :
    (Float.ofBits bits).toBits = bits := by
  change UInt64.ofBitVec (UnpackedFloat.pack Format.binary64
    (UnpackedFloat.unpack Format.binary64 bits.toBitVec)) = bits
  rw [pack_unpack_of_le known]

/-- The bits of a NaN may be exchanged for those of another one. -/
theorem magnitude_ofBits_nan {bits : UInt64} (unknown : infinityMagnitude < bits.toNat % signPlace) :
    infinityMagnitude < magnitude (Float.ofBits bits) := by
  have shape : UnpackedFloat.unpack Format.binary64 bits.toBitVec = .notANumber := by
    change infinityMagnitude < bits.toBitVec.toNat % signPlace at unknown
    rcases unpack_cases bits.toBitVec with ⟨size, _⟩ | ⟨_, size, _⟩ | ⟨size, _⟩ | ⟨_, shape⟩
    · omega
    · omega
    · omega
    · exact shape
  change _ < (UnpackedFloat.pack Format.binary64
    (UnpackedFloat.unpack Format.binary64 bits.toBitVec)).toNat % signPlace
  rw [shape]
  decide

/-- Bits that differ in their sign alone are taken apart to floats that do. -/
private theorem unpack_packComponents_neg (bits : BitVec 64) :
    UnpackedFloat.unpack Format.binary64 (packComponents Format.binary64
        (-Sign.ofBitVec (signBit bits)) (exponentBits bits) (fractionBits bits)) =
      (UnpackedFloat.unpack Format.binary64 bits).neg := by
  unfold UnpackedFloat.unpack
  simp only [unpackMantissa_packComponents, unpackExponent_packComponents,
    unpackSign_packComponents, Sign.ofBitVec_toBitVec]
  repeat' split
  all_goals rfl

theorem isFinite_eq (x : Float) : x.isFinite = decide (magnitude x < infinityMagnitude) := by
  change (UnpackedFloat.unpack Format.binary64 x.toBits.toBitVec).isFinite =
    decide (x.toBits.toBitVec.toNat % signPlace < infinityMagnitude)
  rcases unpack_cases x.toBits.toBitVec with
    ⟨size, shape⟩ | ⟨_, size, _, _, _, shape, _⟩ | ⟨size, shape⟩ | ⟨size, shape⟩ <;>
    rw [shape]
  · rw [size]
    rfl
  · exact (decide_eq_true size).symm
  · exact (decide_eq_false (by omega)).symm
  · exact (decide_eq_false (by omega)).symm

theorem isInf_eq (x : Float) : x.isInf = decide (magnitude x = infinityMagnitude) := by
  change (UnpackedFloat.unpack Format.binary64 x.toBits.toBitVec).isInf =
    decide (x.toBits.toBitVec.toNat % signPlace = infinityMagnitude)
  rcases unpack_cases x.toBits.toBitVec with
    ⟨size, shape⟩ | ⟨_, size, _, _, _, shape, _⟩ | ⟨size, shape⟩ | ⟨size, shape⟩ <;>
    rw [shape]
  · rw [size]
    rfl
  · exact (decide_eq_false (by omega)).symm
  · exact (decide_eq_true size).symm
  · exact (decide_eq_false (by omega)).symm

theorem isNaN_eq (x : Float) : x.isNaN = decide (infinityMagnitude < magnitude x) := by
  change (UnpackedFloat.unpack Format.binary64 x.toBits.toBitVec).isNaN =
    decide (infinityMagnitude < x.toBits.toBitVec.toNat % signPlace)
  rcases unpack_cases x.toBits.toBitVec with
    ⟨size, shape⟩ | ⟨_, size, _, _, _, shape, _⟩ | ⟨size, shape⟩ | ⟨size, shape⟩ <;>
    rw [shape]
  · rw [size]
    rfl
  · exact (decide_eq_false (by omega)).symm
  · exact (decide_eq_false (by omega)).symm
  · exact (decide_eq_true size).symm

theorem toNat_toBits (x : Float) :
    x.toBits.toNat = (if isNegative x then signPlace else 0) + magnitude x := by
  have bound := x.toBits.toNat_lt
  by_cases sign : signPlace ≤ x.toBits.toNat
  · rw [show isNegative x = true from decide_eq_true sign, if_pos rfl, magnitude]
    simp only [signPlace] at sign ⊢
    omega
  · rw [show isNegative x = false from decide_eq_false sign, if_neg Bool.false_ne_true, magnitude]
    simp only [signPlace] at sign ⊢
    omega

theorem eq_of_isNegative_of_magnitude {x y : Float} (signs : isNegative x = isNegative y)
    (sizes : magnitude x = magnitude y) : x = y :=
  Float.toBits_inj.mp (UInt64.toNat_inj.mp (by rw [toNat_toBits, toNat_toBits, signs, sizes]))

/-- The sign of a double where it is taken apart. -/
def signOf (x : Float) : Sign := if isNegative x then .negative else .positive

private theorem ofBitVec_signBit (x : Float) :
    Sign.ofBitVec (signBit x.toBits.toBitVec) = signOf x := by
  unfold signOf
  have sign := toNat_signBit x.toBits.toBitVec
  have bound := x.toBits.toNat_lt
  change (signBit x.toBits.toBitVec).toNat = x.toBits.toNat / _ at sign
  by_cases negative : signPlace ≤ x.toBits.toNat
  · have set : signBit x.toBits.toBitVec = 1#1 := BitVec.eq_of_toNat_eq (by
      change _ = 1
      simp only [signPlace] at negative
      omega)
    rw [set, show isNegative x = true from decide_eq_true negative]
    rfl
  · have clear : signBit x.toBits.toBitVec = 0#1 := BitVec.eq_of_toNat_eq (by
      change _ = 0
      simp only [signPlace] at negative
      omega)
    rw [clear, show isNegative x = false from decide_eq_false negative]
    rfl

/-- A finite double other than zero, taken apart in the one way that doubles are. -/
theorem unpack_canonical {x : Float} (finite : magnitude x < infinityMagnitude)
    (nonzero : 0 < magnitude x) : ∃ mantissa positive, ∃ place : Nat,
      x.toModel.unpack = .finite (signOf x) mantissa (place - 1074) positive ∧
        units x = mantissa * 2 ^ place ∧ Canonical mantissa place := by
  have shape := unpack_cases x.toBits.toBitVec
  dsimp only at shape
  rw [ofBitVec_signBit] at shape
  change magnitude x = 0 ∧ _ ∨ _ ∧ _ ∧ _ ∨ magnitude x = _ ∧ _ ∨ _ < magnitude x ∧ _ at shape
  rcases shape with ⟨size, _⟩ | ⟨_, _, found⟩ | ⟨size, _⟩ | ⟨size, _⟩
  · omega
  · exact found
  · omega
  · omega

theorem unpack_of_finite {x : Float} (finite : magnitude x < infinityMagnitude)
    (nonzero : 0 < magnitude x) : ∃ mantissa positive, ∃ place : Nat,
      x.toModel.unpack = .finite (signOf x) mantissa (place - 1074) positive ∧
        units x = mantissa * 2 ^ place := by
  obtain ⟨mantissa, positive, place, shape, size, _⟩ := unpack_canonical finite nonzero
  exact ⟨mantissa, positive, place, shape, size⟩

theorem unpack_of_zero {x : Float} (zero : magnitude x = 0) :
    x.toModel.unpack = .zero (signOf x) := by
  have shape := unpack_cases x.toBits.toBitVec
  dsimp only at shape
  rw [ofBitVec_signBit] at shape
  change magnitude x = 0 ∧ _ ∨ 0 < magnitude x ∧ _ ∧ _ ∨ magnitude x = _ ∧ _ ∨ _ < magnitude x ∧ _
    at shape
  rcases shape with ⟨_, found⟩ | ⟨size, _⟩ | ⟨size, _⟩ | ⟨size, _⟩
  · exact found
  · omega
  · exact absurd (zero.symm.trans size) (by decide)
  · omega

theorem unpack_of_infinite {x : Float} (infinite : infinityMagnitude ≤ magnitude x) :
    x.toModel.unpack = .infinity (signOf x) ∨ x.toModel.unpack = .notANumber := by
  have shape := unpack_cases x.toBits.toBitVec
  dsimp only at shape
  rw [ofBitVec_signBit] at shape
  change magnitude x = 0 ∧ _ ∨ _ ∧ magnitude x < _ ∧ _ ∨ _ ∧ _ ∨ _ ∧ _ at shape
  rcases shape with ⟨size, _⟩ | ⟨_, size, _⟩ | ⟨_, found⟩ | ⟨_, found⟩
  · exact absurd (size ▸ infinite) (by decide)
  · omega
  · exact .inl found
  · exact .inr found

private theorem toNat_toBits_neg {x : Float} (number : x.isNaN = false) :
    (-x).toBits.toNat =
      (if isNegative x then 0 else signPlace) + magnitude x := by
  have known : magnitude x ≤ infinityMagnitude := by
    rw [isNaN_eq, decide_eq_false_iff_not, Nat.not_lt] at number
    exact number
  have turned := toNat_packComponents (-Sign.ofBitVec (signBit x.toBits.toBitVec))
    (exponentBits x.toBits.toBitVec) (fractionBits x.toBits.toBitVec)
  have bound := x.toBits.toNat_lt
  rw [toNat_exponentBits, toNat_fractionBits, ofBitVec_signBit, signOf] at turned
  change _ = _ + x.toBits.toNat / _ % _ * _ + x.toBits.toNat % _ at turned
  change (UnpackedFloat.pack Format.binary64
    (UnpackedFloat.unpack Format.binary64 x.toBits.toBitVec).neg).toNat = _
  rw [← unpack_packComponents_neg, ofBitVec_signBit, signOf]
  have total := toNat_toBits x
  have below : magnitude x < signPlace := Nat.mod_lt _ (by decide)
  simp only [signPlace, infinityMagnitude, fractionCount] at known below total ⊢
  generalize isNegative x = sign at turned total ⊢
  cases sign
  · change _ = 1 * _ + _ + _ at turned
    simp only [Bool.false_eq_true, if_false] at turned total ⊢
    rw [pack_unpack_of_le] <;> rw [turned]
    · omega
    · simp only [signPlace, infinityMagnitude, fractionCount]
      omega
  · change _ = 0 * _ + _ + _ at turned
    simp only [if_true] at turned total ⊢
    rw [pack_unpack_of_le] <;> rw [turned]
    · omega
    · simp only [signPlace, infinityMagnitude, fractionCount]
      omega

theorem magnitude_neg {x : Float} (number : x.isNaN = false) : magnitude (-x) = magnitude x := by
  have bits := toNat_toBits_neg number
  have bound : magnitude x < signPlace := Nat.mod_lt _ (by decide)
  rw [magnitude, bits]
  simp only [signPlace] at bound ⊢
  split <;> omega

theorem isNegative_neg {x : Float} (number : x.isNaN = false) :
    isNegative (-x) = !isNegative x := by
  have bits := toNat_toBits_neg number
  have bound : magnitude x < signPlace := Nat.mod_lt _ (by decide)
  rw [isNegative, bits]
  simp only [signPlace] at bound ⊢
  cases isNegative x
  · simp
  · simp
    omega

theorem nearestMagnitude_le (numerator denominator : Nat) :
    nearestMagnitude numerator denominator ≤ infinityMagnitude := Nat.min_le_right _ _

private theorem toNat_toBits_nearest (numerator denominator : Nat) :
    (nearest numerator denominator).toBits.toNat = nearestMagnitude numerator denominator := by
  have bound := nearestMagnitude_le numerator denominator
  have kept : (UInt64.ofNat (nearestMagnitude numerator denominator)).toNat =
      nearestMagnitude numerator denominator := by
    rw [UInt64.toNat_ofNat']
    simp only [infinityMagnitude, fractionCount] at bound
    omega
  rw [nearest, toBits_ofBits, kept]
  rw [kept, signPlace]
  simp only [infinityMagnitude, fractionCount] at bound ⊢
  omega

@[simp] theorem magnitude_nearest (numerator denominator : Nat) :
    magnitude (nearest numerator denominator) = nearestMagnitude numerator denominator := by
  have bound := nearestMagnitude_le numerator denominator
  rw [magnitude, toNat_toBits_nearest]
  simp only [infinityMagnitude, fractionCount] at bound
  simp only [signPlace]
  omega

@[simp] theorem isNegative_nearest (numerator denominator : Nat) :
    isNegative (nearest numerator denominator) = false := by
  have bound := nearestMagnitude_le numerator denominator
  simp only [infinityMagnitude, fractionCount] at bound
  rw [isNegative, toNat_toBits_nearest, decide_eq_false_iff_not, signPlace]
  omega

@[simp] theorem isNaN_nearest (numerator denominator : Nat) :
    (nearest numerator denominator).isNaN = false := by
  rw [isNaN_eq, magnitude_nearest, decide_eq_false_iff_not, Nat.not_lt]
  exact nearestMagnitude_le numerator denominator

end InfixCalculator.Binary64
