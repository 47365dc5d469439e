import InfixCalculator.Proofs.Binary64.Quotient

namespace InfixCalculator.Binary64

/-! The rational numbers that doubles stand for.

`numberOfBits` reads a pattern of bits as the format says: a sign, an exponent and a fraction. In least
positive doubles that is `signedUnits` (`number?_eq`), and so whole numbers, their parity and their
place among the numbers that doubles count one by one are questions about natural numbers. -/

/-- The number with that sign bit, those 11 bits of exponent and those 52 bits of fraction. The greatest
exponent is that of infinity and NaN, which stand for no number, and the least has no one before the
fraction. -/
def numberOfBits (bits : UInt64) : Option ℚ :=
  let sign : ℚ := if bits.toNat / 2 ^ 63 = 0 then 1 else -1
  let exponent : ℕ := bits.toNat / 2 ^ 52 % 2 ^ 11
  let fraction : ℕ := bits.toNat % 2 ^ 52
  if exponent = 2047 then none
  else if exponent = 0 then some (sign * fraction * 2 ^ (-1074 : ℤ))
  else some (sign * (2 ^ 52 + fraction) * 2 ^ ((exponent : ℤ) - 1075))

def number? (x : Float) : Option ℚ := numberOfBits x.toBits

/-- The value of a finite double, counted in least positive doubles. -/
def signedUnits (x : Float) : ℤ := if isNegative x then -(units x : ℤ) else units x

theorem unitsPerOne_cast_pos : (0 : ℚ) < unitsPerOne := by exact_mod_cast unitsPerOne_pos

theorem unitsPerOne_cast_inv : (unitsPerOne : ℚ)⁻¹ = 2 ^ (-1074 : ℤ) := by
  obtain ⟨ones, same⟩ : ∃ ones : ℕ, ones = 1074 := ⟨_, rfl⟩
  have least : (-1074 : ℤ) = -(ones : ℤ) := by omega
  rw [least, unitsPerOne_eq same, Nat.pow_eq, zpow_neg, zpow_natCast, Nat.cast_pow, Nat.cast_ofNat]

/-- The size of the number with that exponent and fraction, as that of a magnitude. -/
theorem unitsOfMagnitude_cast {exponent fraction : ℕ} (bound : fraction < fractionCount) :
    (unitsOfMagnitude (exponent * fractionCount + fraction) : ℚ) / unitsPerOne =
      if exponent = 0 then (fraction : ℚ) * 2 ^ (-1074 : ℤ)
      else (2 ^ 52 + fraction) * 2 ^ ((exponent : ℤ) - 1075) := by
  have scaled (place : ℕ) :
      (2 : ℚ) ^ (((place + 1 : ℕ) : ℤ) - 1075) = 2 ^ place * 2 ^ (-1074 : ℤ) := by
    rw [← zpow_natCast, ← zpow_add₀ two_ne_zero]
    congr 1
    omega
  rw [div_eq_mul_inv, unitsPerOne_cast_inv]
  cases exponent with
  | zero => rw [Nat.zero_mul, Nat.zero_add, unitsOfMagnitude_subnormal bound, if_pos rfl]
  | succ place =>
      have weight : (fractionCount : ℚ) = 2 ^ 52 := by norm_num [fractionCount]
      rw [unitsOfMagnitude_normal place bound, if_neg (Nat.succ_ne_zero place), scaled]
      generalize (2 : ℚ) ^ (-1074 : ℤ) = least
      push_cast
      rw [weight, mul_assoc]

theorem lt_infinityMagnitude_iff {exponent fraction : ℕ} (bound : fraction < fractionCount)
    (below : exponent < 2048) :
    exponent * fractionCount + fraction < infinityMagnitude ↔ ¬exponent = 2047 := by
  simp only [infinityMagnitude, fractionCount] at bound ⊢
  omega

theorem numberOfBits_eq (bits : UInt64) : numberOfBits bits =
    if bits.toNat % signPlace < infinityMagnitude then
      some ((if signPlace ≤ bits.toNat then -1 else 1) *
        ((unitsOfMagnitude (bits.toNat % signPlace) : ℚ) / unitsPerOne))
    else none := by
  have bound := bits.toNat_lt
  unfold numberOfBits
  generalize bits.toNat = pattern at bound ⊢
  have split : pattern % signPlace =
      pattern / 2 ^ 52 % 2 ^ 11 * fractionCount + pattern % 2 ^ 52 := by
    simp only [signPlace, fractionCount]
    omega
  have low : pattern % 2 ^ 52 < fractionCount := Nat.mod_lt _ (by decide)
  have sign : pattern / 2 ^ 63 = 0 ↔ ¬signPlace ≤ pattern := by
    simp only [signPlace]
    omega
  have exponent : pattern / 2 ^ 52 % 2 ^ 11 < 2048 := Nat.mod_lt _ (by decide)
  have full := lt_infinityMagnitude_iff low exponent
  rw [split, unitsOfMagnitude_cast low]
  simp only [sign, full, ite_not]
  split_ifs <;> simp only [mul_assoc]

theorem number?_eq (x : Float) : number? x =
    if magnitude x < infinityMagnitude then some ((signedUnits x : ℚ) / unitsPerOne) else none := by
  rw [number?, numberOfBits_eq]
  change (if magnitude x < infinityMagnitude then
    some ((if signPlace ≤ x.toBits.toNat then -1 else 1) * ((units x : ℚ) / unitsPerOne)) else none) = _
  unfold signedUnits isNegative
  generalize (unitsPerOne : ℚ) = one
  simp only [decide_eq_true_eq]
  split_ifs <;> simp [neg_div]

theorem number?_of_finite {x : Float} (finite : magnitude x < infinityMagnitude) :
    number? x = some ((signedUnits x : ℚ) / unitsPerOne) := (number?_eq x).trans (if_pos finite)

theorem number?_eq_some_iff {x : Float} {q : ℚ} : number? x = some q ↔
    magnitude x < infinityMagnitude ∧ q * unitsPerOne = signedUnits x := by
  have nonzero := unitsPerOne_cast_pos.ne'
  rw [number?_eq]
  generalize (unitsPerOne : ℚ) = one at nonzero ⊢
  split_ifs with finite
  · rw [Option.some.injEq, div_eq_iff nonzero]
    simp only [finite, true_and, eq_comm]
  · simp [finite]

/-- A double stands for the number that the bits stand for that it is made of. -/
theorem number?_ofBits (bits : UInt64) : number? (Float.ofBits bits) = numberOfBits bits := by
  rcases Nat.lt_or_ge infinityMagnitude (bits.toNat % signPlace) with unknown | known
  · have infinite := magnitude_ofBits_nan unknown
    rw [number?_eq, numberOfBits_eq, if_neg (Nat.lt_asymm infinite), if_neg (Nat.lt_asymm unknown)]
  · rw [number?, toBits_ofBits known]

theorem natAbs_signedUnits (x : Float) : (signedUnits x).natAbs = units x := by
  unfold signedUnits
  split_ifs <;> simp

theorem signedUnits_nearest (numerator denominator : ℕ) :
    signedUnits (nearest numerator denominator) =
      unitsOfMagnitude (nearestMagnitude numerator denominator) := by
  rw [signedUnits, isNegative_nearest, if_neg Bool.false_ne_true, units, magnitude_nearest]

theorem number?_eq_intCast_iff {x : Float} {k : ℤ} : number? x = some (k : ℚ) ↔
    magnitude x < infinityMagnitude ∧ signedUnits x = k * unitsPerOne := by
  rw [number?_eq_some_iff, eq_comm]
  norm_cast

theorem number?_eq_natCast_iff {x : Float} {n : ℕ} : number? x = some (n : ℚ) ↔
    magnitude x < infinityMagnitude ∧ signedUnits x = n * unitsPerOne :=
  @number?_eq_intCast_iff x n

theorem isNaN_of_finite {x : Float} (finite : magnitude x < infinityMagnitude) : x.isNaN = false := by
  rw [isNaN_eq, decide_eq_false_iff_not]
  exact Nat.lt_asymm finite

theorem isFinite_of_finite {x : Float} (finite : magnitude x < infinityMagnitude) : x.isFinite = true := by
  rw [isFinite_eq]
  exact decide_eq_true finite

theorem isWhole_iff (x : Float) : isWhole x = true ↔
    magnitude x < infinityMagnitude ∧ unitsPerOne ∣ units x := by
  simp [isWhole, Nat.dvd_iff_mod_eq_zero]

/-- What stands for a whole number is that many ones, and the sign. -/
theorem units_of_number {x : Float} {k : ℤ} (whole : number? x = some (k : ℚ)) :
    isWhole x = true ∧ wholePart x = k.natAbs ∧ units x = k.natAbs * unitsPerOne := by
  obtain ⟨finite, same⟩ := number?_eq_intCast_iff.mp whole
  have size : units x = k.natAbs * unitsPerOne := by
    rw [← natAbs_signedUnits, same, Int.natAbs_mul, Int.natAbs_natCast]
  refine ⟨(isWhole_iff x).mpr ⟨finite, Dvd.intro_left _ size.symm⟩, ?_, size⟩
  rw [wholePart, size, Nat.mul_div_cancel _ unitsPerOne_pos]

theorem number?_of_isWhole {x : Float} (whole : isWhole x = true) :
    number? x = some ((if isNegative x then -(wholePart x : ℤ) else wholePart x : ℤ) : ℚ) := by
  obtain ⟨finite, divides⟩ := (isWhole_iff x).mp whole
  have size : units x = wholePart x * unitsPerOne := (Nat.div_mul_cancel divides).symm
  refine number?_eq_intCast_iff.mpr ⟨finite, ?_⟩
  unfold signedUnits
  rw [size]
  split_ifs <;> push_cast <;> ring

theorem isWhole_iff_number {x : Float} {q : ℚ} (valued : number? x = some q) :
    isWhole x = true ↔ ∃ k : ℤ, q = k := by
  constructor
  · intro whole
    rw [number?_of_isWhole whole] at valued
    exact ⟨_, (Option.some.inj valued).symm⟩
  · rintro ⟨k, rfl⟩
    exact (units_of_number valued).1

/-- A double is a natural number of those that doubles count one by one just if it stands for it. -/
theorem natural?_eq_some_iff {x : Float} {n : ℕ} :
    natural? x = some n ↔ number? x = some (n : ℚ) ∧ n ≤ largestExact := by
  unfold natural?
  constructor
  · intro found
    split_ifs at found with conditions
    obtain ⟨whole, unsigned, bound⟩ := conditions
    cases found
    refine ⟨?_, bound⟩
    rw [number?_of_isWhole whole]
    split_ifs with negative
    · have zero : wholePart x = 0 := by rw [wholePart, unsigned negative, Nat.zero_div]
      rw [zero]
      rfl
    · rfl
  · rintro ⟨valued, bound⟩
    obtain ⟨whole, part, size⟩ := @units_of_number x n valued
    obtain ⟨_, same⟩ := number?_eq_natCast_iff.mp valued
    have unsigned : isNegative x = true → units x = 0 := by
      intro negative
      rw [signedUnits, if_pos negative] at same
      have positive := Int.mul_nonneg (Int.natCast_nonneg n) (Int.natCast_nonneg unitsPerOne)
      omega
    rw [Int.natAbs_natCast] at part
    rw [if_pos ⟨whole, unsigned, by rwa [part]⟩, part]

theorem isOdd_iff {x : Float} : isOdd x = true ↔ ∃ k : ℤ, Odd k ∧ number? x = some (k : ℚ) := by
  rw [isOdd, Bool.and_eq_true, beq_iff_eq, ← Nat.odd_iff]
  constructor
  · rintro ⟨whole, odd⟩
    refine ⟨_, ?_, number?_of_isWhole whole⟩
    have odd' : Odd (wholePart x : ℤ) := by exact_mod_cast odd
    split_ifs
    · exact odd'.neg
    · exact odd'
  · rintro ⟨k, odd, valued⟩
    obtain ⟨whole, part, _⟩ := units_of_number valued
    exact ⟨whole, by rw [part]; exact Int.natAbs_odd.mpr odd⟩

theorem magnitude_one : magnitude 1 = 1023 * fractionCount := rfl

/-- A mantissa at its place, also where it is carried into the next one. -/
theorem unitsOfMagnitude_place {mantissa place : ℕ} (short : mantissa ≤ 2 * fractionCount)
    (long : place = 0 ∨ fractionCount ≤ mantissa) :
    unitsOfMagnitude (place * fractionCount + mantissa) = mantissa * 2 ^ place := by
  rcases Nat.lt_or_ge mantissa fractionCount with low | high
  · obtain rfl : place = 0 := long.resolve_right (Nat.not_le.mpr low)
    rw [Nat.zero_mul, Nat.zero_add, unitsOfMagnitude_subnormal low, Nat.pow_zero, Nat.mul_one]
  obtain ⟨fraction, rfl⟩ := Nat.exists_eq_add_of_le high
  rw [← Nat.add_assoc, ← Nat.add_one_mul]
  rcases Nat.lt_or_eq_of_le short with fits | carried
  · exact unitsOfMagnitude_normal place (by omega)
  · obtain rfl : fraction = fractionCount := by omega
    have next := unitsOfMagnitude_normal (place + 1) (show 0 < fractionCount by decide)
    rw [Nat.add_zero, Nat.add_zero, Nat.add_one_mul, Nat.pow_succ'] at next
    rw [next]
    ring

/-- The magnitudes of the powers of two from one on. -/
theorem unitsOfMagnitude_two_pow (places : Nat) :
    unitsOfMagnitude ((1023 + places) * fractionCount) = 2 ^ places * unitsPerOne := by
  have size := unitsOfMagnitude_normal (1022 + places) (show 0 < fractionCount by decide)
  obtain ⟨low, same⟩ : ∃ low, low = 1022 := ⟨_, rfl⟩
  rw [← same, Nat.add_zero, Nat.add_zero] at size
  have next : 1023 + places = low + places + 1 := by omega
  rw [next, unitsPerOne_eq (show low + 52 = 1074 by omega), size, Nat.pow_eq, Nat.pow_add, Nat.pow_add]
  change 2 ^ 52 * _ = _
  ring

theorem unitsOfMagnitude_one : unitsOfMagnitude (1023 * fractionCount) = unitsPerOne := by
  rw [unitsOfMagnitude_two_pow 0, Nat.pow_zero, Nat.one_mul]

theorem units_one : units 1 = unitsPerOne := by rw [units, magnitude_one, unitsOfMagnitude_one]

theorem units_eq_zero_iff (x : Float) : units x = 0 ↔ magnitude x = 0 :=
  unitsOfMagnitude_strictMono.injective.eq_iff' rfl

/-- From this magnitude on, that of `2 ^ 52`, doubles have no bits for fractions, and with each power of two
more they have one bit less for whole numbers. -/
theorem mul_two_pow_dvd_unitsOfMagnitude {size extra : Nat} (large : (1075 + extra) * fractionCount ≤ size) :
    unitsPerOne * 2 ^ extra ∣ unitsOfMagnitude size := by
  rcases subnormal_or_normal size with low | ⟨place, fraction, bound, rfl⟩
  · rw [Nat.add_mul] at large
    omega
  · have above : 1074 + extra ≤ place := by
      simp only [fractionCount] at large bound
      omega
    obtain ⟨ones, same⟩ : ∃ ones, ones = 1074 := ⟨_, rfl⟩
    rw [unitsOfMagnitude_normal place bound, unitsPerOne_eq same, Nat.pow_eq, ← Nat.pow_add]
    exact Dvd.dvd.mul_left (Nat.pow_dvd_pow 2 (by omega)) _

theorem dvd_unitsOfMagnitude {size : Nat} (large : 1075 * fractionCount ≤ size) :
    unitsPerOne ∣ unitsOfMagnitude size :=
  dvd_of_mul_right_dvd (@mul_two_pow_dvd_unitsOfMagnitude size 0 large)

open Float.Model Float.Model.UnpackedFloat

theorem compare_strictMono {α β : Type} [LinearOrder α] [LinearOrder β] {f : α → β} (mono : StrictMono f)
    (a b : α) : compare (f a) (f b) = compare a b := by
  rw [← cmp_eq_compare, ← cmp_eq_compare, mono.cmp_map_eq]

theorem compare_strictAnti {α β : Type} [LinearOrder α] [LinearOrder β] {f : α → β} (anti : StrictAnti f)
    (a b : α) : compare (f a) (f b) = compare b a := by
  rw [← cmp_eq_compare, ← cmp_eq_compare, anti.cmp_map_eq]

/-- Of numbers with all their bits the one at the higher place is greater, and at one place the one with the
greater mantissa. -/
theorem compare_canonical {mantissa place mantissa' place' : ℕ} (canonical : Canonical mantissa place)
    (canonical' : Canonical mantissa' place') :
    (compare ((place : ℤ) - 1074) (place' - 1074)).then (compare mantissa mantissa') =
      compare (mantissa * 2 ^ place) (mantissa' * 2 ^ place') := by
  have below {m p m' p' : ℕ} (short : Canonical m p) (long : Canonical m' p') (less : p < p') :
      m * 2 ^ p < m' * 2 ^ p' := by
    have filled : fractionCount ≤ m' := long.2.resolve_left (by omega)
    calc m * 2 ^ p < 2 * fractionCount * 2 ^ p :=
          Nat.mul_lt_mul_of_pos_right short.1 (Nat.two_pow_pos p)
      _ = fractionCount * 2 ^ (p + 1) := by rw [Nat.pow_succ']; ring
      _ ≤ m' * 2 ^ p' := Nat.mul_le_mul filled (Nat.pow_le_pow_right (by decide) less)
  rcases Nat.lt_trichotomy place place' with less | rfl | greater
  · rw [compare_lt_iff_lt.mpr (show (place : ℤ) - 1074 < place' - 1074 by omega),
      compare_lt_iff_lt.mpr (below canonical canonical' less)]
    rfl
  · have scaled : StrictMono fun m : ℕ => m * 2 ^ place :=
      fun _ _ less => Nat.mul_lt_mul_of_pos_right less (Nat.two_pow_pos place)
    rw [compare_eq_iff_eq.mpr rfl, ← compare_strictMono scaled]
    rfl
  · rw [compare_gt_iff_gt.mpr (show (place : ℤ) - 1074 > place' - 1074 by omega),
      compare_gt_iff_gt.mpr (below canonical' canonical greater)]
    rfl

theorem units_pos_iff (x : Float) : 0 < units x ↔ 0 < magnitude x :=
  unitsOfMagnitude_strictMono.lt_iff_lt (a := 0)

theorem signedUnits_cases (x : Float) : (signOf x = .positive ∧ signedUnits x = units x) ∨
    (signOf x = .negative ∧ signedUnits x = -(units x : ℤ)) := by
  unfold signOf signedUnits
  cases isNegative x
  · exact .inl ⟨rfl, rfl⟩
  · exact .inr ⟨rfl, rfl⟩

theorem signedUnits_of_zero {x : Float} (zero : magnitude x = 0) : signedUnits x = 0 := by
  rwa [← Int.natAbs_eq_zero, natAbs_signedUnits, units_eq_zero_iff]

theorem number?_zero : number? 0 = some 0 := by
  have zero : magnitude 0 = 0 := rfl
  rw [number?_eq_some_iff, signedUnits_of_zero zero, zero]
  exact ⟨by decide, by rw [zero_mul, Int.cast_zero]⟩

theorem number?_one : number? 1 = some ((1 : ℕ) : ℚ) := by
  have unsigned : isNegative 1 = false := rfl
  rw [number?_eq_natCast_iff, signedUnits, unsigned, if_neg Bool.false_ne_true, units_one, magnitude_one,
    Nat.cast_one, one_mul]
  exact ⟨by decide, rfl⟩

/-- Finite doubles compare as the numbers that they stand for. -/
theorem compare_units {x y : Float} (finite : magnitude x < infinityMagnitude)
    (finite' : magnitude y < infinityMagnitude) :
    x.toModel.unpack.compare y.toModel.unpack = some (compare (signedUnits x) (signedUnits y)) := by
  rcases Nat.eq_zero_or_pos (magnitude x) with zero | nonzero <;>
    rcases Nat.eq_zero_or_pos (magnitude y) with zero' | nonzero'
  · rw [unpack_of_zero zero, unpack_of_zero zero', signedUnits_of_zero zero, signedUnits_of_zero zero']
    rfl
  · obtain ⟨_, _, _, shape, _⟩ := unpack_canonical finite' nonzero'
    have size := (units_pos_iff y).mpr nonzero'
    rw [unpack_of_zero zero, signedUnits_of_zero zero, shape]
    rcases signedUnits_cases y with ⟨sign, value⟩ | ⟨sign, value⟩ <;> rw [sign, value]
    · exact congrArg some (compare_lt_iff_lt.mpr (by omega)).symm
    · exact congrArg some (compare_gt_iff_gt.mpr (by omega)).symm
  · obtain ⟨_, _, _, shape, _⟩ := unpack_canonical finite nonzero
    have size := (units_pos_iff x).mpr nonzero
    rw [unpack_of_zero zero', signedUnits_of_zero zero', shape]
    rcases signedUnits_cases x with ⟨sign, value⟩ | ⟨sign, value⟩ <;> rw [sign, value]
    · exact congrArg some (compare_gt_iff_gt.mpr (by omega)).symm
    · exact congrArg some (compare_lt_iff_lt.mpr (by omega)).symm
  · obtain ⟨mantissa, _, place, shape, same, canonical⟩ := unpack_canonical finite nonzero
    obtain ⟨mantissa', _, place', shape', same', canonical'⟩ := unpack_canonical finite' nonzero'
    have size := (units_pos_iff x).mpr nonzero
    have size' := (units_pos_iff y).mpr nonzero'
    have sizes := compare_canonical canonical canonical'
    rw [← same, ← same'] at sizes
    rw [shape, shape']
    rcases signedUnits_cases x with ⟨sign, value⟩ | ⟨sign, value⟩ <;>
      rcases signedUnits_cases y with ⟨sign', value'⟩ | ⟨sign', value'⟩ <;>
      rw [sign, value, sign', value']
    · rw [compare_strictMono Nat.strictMono_cast, ← sizes]
      rfl
    · exact congrArg some (compare_gt_iff_gt.mpr (by omega)).symm
    · exact congrArg some (compare_lt_iff_lt.mpr (by omega)).symm
    · have reversed : StrictAnti fun size : ℕ => -(size : ℤ) := fun _ _ less => by
        dsimp only
        omega
      have swapped := compare_strictAnti reversed (units x) (units y)
      rw [swapped, ← Nat.compare_swap, ← sizes]
      rfl

section

variable {x y : Float} {p q : ℚ}

theorem compare_numbers (valued : number? x = some p) (valued' : number? y = some q) :
    x.toModel.unpack.compare y.toModel.unpack = some (compare p q) := by
  obtain ⟨finite, same⟩ := number?_eq_some_iff.mp valued
  obtain ⟨finite', same'⟩ := number?_eq_some_iff.mp valued'
  have scaled : StrictMono fun value : ℚ => value * unitsPerOne :=
    fun _ _ less => mul_lt_mul_of_pos_right less unitsPerOne_cast_pos
  have casts : StrictMono fun units : ℤ => (units : ℚ) := Int.cast_strictMono
  rw [compare_units finite finite', ← compare_strictMono casts, ← same, ← same',
    compare_strictMono scaled]

theorem lt_iff (valued : number? x = some p) (valued' : number? y = some q) : x < y ↔ p < q := by
  change decide ((x.toModel.unpack.compare y.toModel.unpack == some .lt) = true) = true ↔ _
  rw [decide_eq_true_iff, compare_numbers valued valued', beq_iff_eq, Option.some.injEq,
    compare_lt_iff_lt]

theorem beq_iff (valued : number? x = some p) (valued' : number? y = some q) :
    (x == y) = true ↔ p = q := by
  change ((x.toModel.unpack.compare y.toModel.unpack) == some .eq) = true ↔ _
  rw [compare_numbers valued valued', beq_iff_eq, Option.some.injEq, compare_eq_iff_eq]

end

end InfixCalculator.Binary64
