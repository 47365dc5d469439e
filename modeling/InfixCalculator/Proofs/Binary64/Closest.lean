import InfixCalculator.Proofs.Binary64.Number

namespace InfixCalculator.Binary64

/-! The double closest to a number.

Rounding cuts a quotient off after the bits that a double keeps, and takes the double there or the next one.
All others lie outside of these two, so the one taken is the closest of all (`closest_nearest`), and no
other one is, but for the sign of a zero (`Closest.unique`). -/

/-- No double is closer to the number, and if another is as close, the last bit of this one is zero. -/
def Closest (x : Float) (q : ℚ) : Prop :=
  ∃ p, number? x = some p ∧ ∀ y r, number? y = some r →
    |q - p| ≤ |q - r| ∧ (|q - p| = |q - r| → r = p ∨ magnitude x % 2 = 0)

/-- Where rounding cuts a quotient off: the bits to drop and what is left. -/
theorem nearestMagnitude_cut {numerator denominator : ℕ}
    (finite : nearestMagnitude numerator denominator < infinityMagnitude) :
    ∃ place, nearestMagnitude numerator denominator = place * fractionCount +
        roundHalfEven (numerator * unitsPerOne) (denominator * 2 ^ place) ∧
      numerator * unitsPerOne / (denominator * 2 ^ place) < 2 * fractionCount ∧
      (place = 0 ∨ fractionCount ≤ numerator * unitsPerOne / (denominator * 2 ^ place)) := by
  generalize scaled : numerator * unitsPerOne = dividend
  refine ⟨(dividend / denominator).log2 - 52, ?_, ?_, ?_⟩
  · rw [nearestMagnitude, scaled] at finite ⊢
    exact Nat.min_eq_left (Nat.le_of_lt (Nat.lt_of_not_le fun above =>
      absurd finite (by rw [Nat.min_eq_right above]; exact Nat.lt_irrefl _)))
  · rw [← Nat.div_div_eq_div_mul]
    exact div_two_pow_lt (by omega)
  · rw [← Nat.div_div_eq_div_mul]
    by_cases small : (dividend / denominator).log2 - 52 = 0
    · exact .inl small
    · exact .inr (le_div_two_pow (by omega))

/-- Half a unit decides between the two ends of an interval, and nothing outside of it is closer. -/
theorem roundHalfEven_closest {numerator denominator : ℕ} (positive : 0 < denominator) {other : ℤ}
    (outside : other ≤ (numerator / denominator * denominator : ℕ) ∨
      ((numerator / denominator + 1) * denominator : ℕ) ≤ other) :
    ((numerator : ℤ) - (roundHalfEven numerator denominator * denominator : ℕ)).natAbs ≤
        (numerator - other).natAbs ∧
      (((numerator : ℤ) - (roundHalfEven numerator denominator * denominator : ℕ)).natAbs =
          (numerator - other).natAbs →
        other = (roundHalfEven numerator denominator * denominator : ℕ) ∨
          roundHalfEven numerator denominator % 2 = 0) := by
  have split := Nat.div_add_mod' numerator denominator
  have small := Nat.mod_lt numerator positive
  rw [Nat.add_one_mul] at outside
  unfold roundHalfEven
  dsimp only
  split_ifs with down
  · omega
  · rw [Nat.add_one_mul]
    omega

/-- Between two magnitudes that follow each other there is none. -/
theorem outside_of_magnitude {size : ℕ} {other : ℤ} (sized : other.natAbs = unitsOfMagnitude size)
    (lower : ℕ) : other ≤ unitsOfMagnitude lower ∨ (unitsOfMagnitude (lower + 1) : ℤ) ≤ other := by
  rcases Nat.lt_or_ge size (lower + 1) with less | more
  · have bound := unitsOfMagnitude_strictMono.monotone (Nat.le_of_lt_succ less)
    omega
  · have bound := unitsOfMagnitude_strictMono.monotone more
    have first := unitsOfMagnitude_strictMono.monotone (Nat.zero_le lower)
    omega

theorem outside_of_place {whole place size : ℕ} {other : ℤ} (short : whole < 2 * fractionCount)
    (long : place = 0 ∨ fractionCount ≤ whole) (sized : other.natAbs = unitsOfMagnitude size) :
    other ≤ (whole * 2 ^ place : ℕ) ∨ ((whole + 1) * 2 ^ place : ℕ) ≤ other := by
  have lower := unitsOfMagnitude_place (Nat.le_of_lt short) long
  have upper : unitsOfMagnitude (place * fractionCount + (whole + 1)) = (whole + 1) * 2 ^ place :=
    unitsOfMagnitude_place short (long.imp_right Nat.le_succ_of_le)
  have ends := outside_of_magnitude sized (place * fractionCount + whole)
  rwa [Nat.add_assoc, upper, lower] at ends

/-- The size that a quotient is rounded to is the closest of those that doubles have. -/
theorem nearestMagnitude_closest {numerator denominator size : ℕ} {other : ℤ} (positive : 0 < denominator)
    (finite : nearestMagnitude numerator denominator < infinityMagnitude)
    (sized : other.natAbs = unitsOfMagnitude size) :
    let rounded := nearestMagnitude numerator denominator
    let distance (value : ℤ) : ℕ := (numerator * unitsPerOne - value * denominator : ℤ).natAbs
    distance (unitsOfMagnitude rounded) ≤ distance other ∧
      (distance (unitsOfMagnitude rounded) = distance other →
        other = unitsOfMagnitude rounded ∨ rounded % 2 = 0) := by
  intro rounded distance
  obtain ⟨place, cut, short, long⟩ := nearestMagnitude_cut finite
  have scaled (count : ℕ) : count * (denominator * 2 ^ place) = count * 2 ^ place * denominator := by ring
  have divisor : 0 < denominator * 2 ^ place := Nat.mul_pos positive (Nat.two_pow_pos place)
  have above := div_le_roundHalfEven (numerator * unitsPerOne) (denominator * 2 ^ place)
  have below := roundHalfEven_le_succ (numerator * unitsPerOne) (denominator * 2 ^ place)
  have even : rounded % 2 =
      roundHalfEven (numerator * unitsPerOne) (denominator * 2 ^ place) % 2 := by
    simp only [rounded, cut, fractionCount]
    omega
  have value := @unitsOfMagnitude_place _ place (below.trans short) (long.imp_right (·.trans above))
  rw [← cut] at value
  have outside : other * denominator ≤
        (numerator * unitsPerOne / (denominator * 2 ^ place) * (denominator * 2 ^ place) : ℕ) ∨
      ((numerator * unitsPerOne / (denominator * 2 ^ place) + 1) * (denominator * 2 ^ place) : ℕ) ≤
        other * denominator := by
    rw [scaled, scaled, Nat.cast_mul _ denominator, Nat.cast_mul _ denominator]
    exact (outside_of_place short long sized).imp (mul_le_mul_of_nonneg_right · (Int.natCast_nonneg _))
      (mul_le_mul_of_nonneg_right · (Int.natCast_nonneg _))
  have closest := roundHalfEven_closest divisor outside
  rw [scaled, ← value, Nat.cast_mul, Nat.cast_mul, ← even] at closest
  refine ⟨closest.1, fun same => (closest.2 same).imp_left fun ends => ?_⟩
  exact Int.eq_of_mul_eq_mul_right (by omega) ends

section

variable {x y : Float} {q : ℚ} {numerator denominator : ℕ}

/-- Distances to a quotient, brought to a common denominator. -/
theorem distance_eq (positive : 0 < denominator) {r : ℚ} (valued : number? y = some r) :
    |(numerator : ℚ) / denominator - r| * (denominator * unitsPerOne) =
      ((numerator * unitsPerOne - signedUnits y * denominator : ℤ).natAbs : ℚ) := by
  have nonzero : (denominator : ℚ) ≠ 0 := by exact_mod_cast Nat.ne_of_gt positive
  have scale : (0 : ℚ) ≤ denominator * unitsPerOne := by exact_mod_cast Nat.zero_le _
  have same := (number?_eq_some_iff.mp valued).2
  rw [Nat.cast_natAbs, Int.cast_abs, ← abs_of_nonneg scale, ← abs_mul]
  congr 1
  push_cast
  rw [← same]
  generalize (unitsPerOne : ℚ) = one
  field_simp

/-- The nearest double is the closest one, as long as it is finite. -/
theorem closest_nearest (positive : 0 < denominator)
    (finite : nearestMagnitude numerator denominator < infinityMagnitude) :
    Closest (nearest numerator denominator) (numerator / denominator) := by
  have small : magnitude (nearest numerator denominator) < infinityMagnitude := by
    rwa [magnitude_nearest]
  have valued := number?_of_finite small
  refine ⟨_, valued, fun y r valued' => ?_⟩
  have scale : (0 : ℚ) < denominator * unitsPerOne :=
    mul_pos (by exact_mod_cast positive) unitsPerOne_cast_pos
  obtain ⟨_, same'⟩ := number?_eq_some_iff.mp valued'
  have closest := nearestMagnitude_closest positive finite (natAbs_signedUnits y)
  dsimp only at closest
  rw [← signedUnits_nearest] at closest
  rw [← mul_le_mul_iff_of_pos_right scale, ← mul_left_inj' scale.ne', distance_eq positive valued,
    distance_eq positive valued', Nat.cast_le, Nat.cast_inj, magnitude_nearest]
  refine ⟨closest.1, fun tie => (closest.2 tie).imp_left fun ends => ?_⟩
  rw [eq_div_iff unitsPerOne_cast_pos.ne', same', ends]

theorem number?_nearest_units {size : ℕ} (finite : size < infinityMagnitude) :
    number? (nearest (unitsOfMagnitude size) unitsPerOne) =
      some ((unitsOfMagnitude size : ℚ) / unitsPerOne) := by
  have same := nearestMagnitude_unitsOfMagnitude finite
  have small : magnitude (nearest (unitsOfMagnitude size) unitsPerOne) < infinityMagnitude := by
    rwa [magnitude_nearest, same]
  rw [number?_of_finite small, signedUnits_nearest, same, Int.cast_natCast]

/-- What is closest to a number from one on is greater than zero. -/
theorem Closest.pos (closest : Closest x q) (large : 1 ≤ q) :
    magnitude x < infinityMagnitude ∧ isNegative x = false ∧
      number? x = some ((units x : ℚ) / unitsPerOne) := by
  obtain ⟨p, valued, least⟩ := closest
  have near := (least 1 1 number?_one).1
  rw [abs_of_nonneg (sub_nonneg.mpr large)] at near
  have positive : 0 < p := by
    by_contra low
    rw [abs_of_nonneg (by linarith)] at near
    linarith
  obtain ⟨finite, same⟩ := number?_eq_some_iff.mp valued
  have above : (0 : ℚ) < signedUnits x := same ▸ mul_pos positive unitsPerOne_cast_pos
  have unsigned : isNegative x = false := by
    by_contra negative
    rw [signedUnits, if_pos (Bool.eq_true_of_not_eq_false negative)] at above
    have none : -(units x : ℤ) ≤ 0 := by omega
    exact absurd above (not_lt.mpr (by exact_mod_cast none))
  refine ⟨finite, unsigned, ?_⟩
  rw [number?_of_finite finite, signedUnits, unsigned, if_neg Bool.false_ne_true, Int.cast_natCast]

theorem Closest.magnitude_le (closest : Closest x q) (closest' : Closest y q) (large : 1 ≤ q) :
    magnitude y ≤ magnitude x := by
  obtain ⟨finite, _, value⟩ := closest.pos large
  obtain ⟨finite', _, value'⟩ := closest'.pos large
  obtain ⟨p, valued, least⟩ := closest
  obtain ⟨p', valued', least'⟩ := closest'
  by_contra! less
  have order (size size' : ℕ) (less : size < size') :
      (unitsOfMagnitude size : ℚ) / unitsPerOne < unitsOfMagnitude size' / unitsPerOne :=
    div_lt_div_of_pos_right (by exact_mod_cast unitsOfMagnitude_strictMono less) unitsPerOne_cast_pos
  obtain rfl := Option.some.inj (valued.symm.trans value)
  obtain rfl := Option.some.inj (valued'.symm.trans value')
  have apart := order _ _ less
  have tie := le_antisymm (least y _ valued').1 (least' x _ valued).1
  -- Both are even, so there is a double between them, and that is closer.
  have even := ((least y _ valued').2 tie).resolve_left apart.ne'
  have even' := ((least' x _ valued).2 tie.symm).resolve_left apart.ne
  have between : magnitude x + 1 < magnitude y := by omega
  have closer := (least _ _ (number?_nearest_units (between.trans finite'))).1
  have lower := order _ _ (Nat.lt_succ_self (magnitude x))
  have upper := order _ _ between
  change (units x : ℚ) / unitsPerOne < _ at lower
  change _ < (units y : ℚ) / unitsPerOne at upper
  generalize (unitsOfMagnitude (magnitude x + 1) : ℚ) / unitsPerOne = r at closer lower upper
  generalize (units x : ℚ) / unitsPerOne = p, (units y : ℚ) / unitsPerOne = p' at *
  have middle : q - p = p' - q := by
    rcases abs_eq_abs.mp tie with same | opposite
    · linarith
    · linarith
  have inside : |q - r| < q - p := abs_lt.mpr ⟨by linarith, by linarith⟩
  rw [abs_of_pos (by linarith : 0 < q - p)] at closer
  exact absurd inside (not_lt.mpr closer)

theorem Closest.unique (closest : Closest x q) (closest' : Closest y q) (large : 1 ≤ q) : x = y :=
  eq_of_isNegative_of_magnitude ((closest.pos large).2.1.trans (closest'.pos large).2.1.symm)
    (Nat.le_antisymm (closest'.magnitude_le closest large) (closest.magnitude_le closest' large))

end

end InfixCalculator.Binary64
