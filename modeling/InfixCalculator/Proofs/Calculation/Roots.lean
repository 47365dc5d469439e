import InfixCalculator.Postfix.Evaluation
import InfixCalculator.Proofs.Binary64.Number

namespace InfixCalculator

/-! Roots of negative numbers.

A root is a power by the reciprocal of the degree, and what the reciprocal is after its rounding decides
whether a negative number has the power. If the degree is not odd, it has none for any size greater than one,
but it has one for a half, for zero, and for all sizes that are small enough
(`MathLibrary.root_of_negative`). -/

namespace Binary64

/-- The magnitude of the reciprocal of a finite double. That of a zero is infinite. -/
def reciprocalMagnitude (x : Float) : Nat :=
  if units x = 0 then infinityMagnitude else nearestMagnitude unitsPerOne (units x)

/-- The reciprocal is finite and no whole number, as it is after its rounding. -/
def FractionalReciprocal (x : Float) : Prop :=
  reciprocalMagnitude x < infinityMagnitude ∧ ¬unitsPerOne ∣ unitsOfMagnitude (reciprocalMagnitude x)

theorem magnitude_one_lt : magnitude 1 < infinityMagnitude := by
  rw [magnitude_one]
  decide

theorem magnitude_one_pos : 0 < magnitude 1 := by
  rw [magnitude_one]
  decide

theorem magnitude_reciprocal {x : Float} (finite : magnitude x < infinityMagnitude) :
    magnitude (1 / x) = reciprocalMagnitude x := by
  have zeros := units_eq_zero_iff x
  unfold reciprocalMagnitude
  split_ifs with zero
  · exact magnitude_div_zero magnitude_one_lt magnitude_one_pos (zeros.mp zero)
  · rw [magnitude_div magnitude_one_lt finite (Nat.pos_of_ne_zero (mt zeros.mpr zero)), units_one]

theorem isNegative_reciprocal {x : Float} (finite : magnitude x < infinityMagnitude) :
    isNegative (1 / x) = isNegative x := by
  have positive : isNegative 1 = false := by decide +kernel
  rw [isNegative_div magnitude_one_lt finite (.inl magnitude_one_pos), positive, Bool.false_bne]

/-- The magnitudes between zero and one stand for no whole numbers. -/
theorem not_dvd_unitsOfMagnitude {size : Nat} (positive : 0 < size) (below : size < 1023 * fractionCount) :
    ¬unitsPerOne ∣ unitsOfMagnitude size := by
  have lower : 0 < unitsOfMagnitude size := unitsOfMagnitude_strictMono positive
  have upper := unitsOfMagnitude_strictMono below
  rw [unitsOfMagnitude_one] at upper
  exact Nat.not_dvd_of_pos_of_lt lower upper

theorem fractional_of_one_lt {x : Float} (finite : magnitude x < infinityMagnitude)
    (large : unitsPerOne < units x) : FractionalReciprocal x := by
  have nonzero : units x ≠ 0 := Nat.ne_of_gt (Nat.zero_lt_of_lt large)
  have next : unitsOfMagnitude (1023 * fractionCount + 1) ≤ units x := by
    rw [← unitsOfMagnitude_one] at large
    exact unitsOfMagnitude_strictMono.monotone (unitsOfMagnitude_strictMono.lt_iff_lt.mp large)
  have last : units x ≤ unitsOfMagnitude infinityMagnitude :=
    unitsOfMagnitude_strictMono.monotone (Nat.le_of_lt finite)
  -- The reciprocals of the least double above one and of two to the 1024 are rounded to these bounds.
  have upper : nearestMagnitude unitsPerOne (units x) < 1023 * fractionCount :=
    calc nearestMagnitude unitsPerOne (units x)
        ≤ nearestMagnitude unitsPerOne (unitsOfMagnitude (1023 * fractionCount + 1)) :=
          nearestMagnitude_mono (Nat.pos_of_ne_zero nonzero) (by decide +kernel)
            (Nat.mul_le_mul_left _ next)
      _ < 1023 * fractionCount := by decide +kernel
  have lower : 0 < nearestMagnitude unitsPerOne (units x) :=
    calc 0 < nearestMagnitude unitsPerOne (unitsOfMagnitude infinityMagnitude) := by decide +kernel
      _ ≤ nearestMagnitude unitsPerOne (units x) :=
          nearestMagnitude_mono (by decide +kernel) (Nat.pos_of_ne_zero nonzero)
            (Nat.mul_le_mul_left _ last)
  rw [FractionalReciprocal, reciprocalMagnitude, if_neg nonzero]
  exact ⟨upper.trans (by decide), not_dvd_unitsOfMagnitude lower upper⟩

theorem not_fractional_of_small {x : Float} (small : units x * fractionCount ≤ unitsPerOne) :
    ¬FractionalReciprocal x := by
  rintro ⟨finite, fractional⟩
  refine fractional (dvd_unitsOfMagnitude ?_)
  unfold reciprocalMagnitude at finite ⊢
  split_ifs at finite ⊢ with zero
  · exact absurd finite (Nat.lt_irrefl _)
  · calc 1075 * fractionCount = nearestMagnitude fractionCount 1 := by decide +kernel
      _ ≤ nearestMagnitude unitsPerOne (units x) :=
          nearestMagnitude_mono Nat.one_pos (Nat.pos_of_ne_zero zero) <| by
            rwa [Nat.mul_one, Nat.mul_comm]

end Binary64

open Binary64

theorem Postfix.evaluate_binary {library : MathLibrary} {table : OperatorTable} {sign : BinaryOperator}
    {left right : Float} (entered : (table.entry? (.binary sign)).isSome)
    (finite : left.isFinite = true) (finite' : right.isFinite = true) :
    evaluate library table [.number left, .number right, .operator (.binary sign)] =
      if (library.binary sign left right).isFinite then .ok (library.binary sign left right)
      else .error (.domain (.notFinite (some (.binary sign)) (library.binary sign left right))) := by
  obtain ⟨entry, found⟩ := Option.isSome_iff_exists.mp entered
  simp only [evaluate, List.foldlM, step, push, finite, finite', found, apply, if_true, bind,
    Except.bind, pure, Except.pure]
  cases (library.binary sign left right).isFinite <;> rfl

namespace MathLibrary

/-- The power of a negative number by an infinite exponent of that sign. -/
def infinitePower (x : Float) (negative : Bool) : Float :=
  if units x = unitsPerOne then 1 else if decide (units x < unitsPerOne) = negative then infinity else 0

/-- A finite negative number has a power by a finite exponent just if that is a whole number. By an infinite
one it tends to zero or infinity, or is one. -/
structure PowersOfNegatives (library : MathLibrary) : Prop where
  finite : ∀ {x y : Float}, x < 0 → x.isFinite = true → y.isFinite = true →
    ((library.power x y).isNaN = true ↔ isWhole y = false)
  infinite : ∀ {x y : Float}, x < 0 → x.isFinite = true → y.isInf = true →
    library.power x y = infinitePower x (isNegative y)

variable {library : MathLibrary} {radicand degree : Float}

theorem root_eq_power (even : isOdd degree = false) :
    library.root radicand degree = library.power radicand (1 / degree) := by
  rw [root, if_neg]
  rw [even]
  exact fun both => Bool.false_ne_true both.2

theorem isNaN_infinitePower (x : Float) (negative : Bool) : (infinitePower x negative).isNaN = false := by
  unfold infinitePower
  split_ifs <;> decide +kernel

theorem isNaN_power_reciprocal (powers : library.PowersOfNegatives) (negative : radicand < 0)
    (finite : radicand.isFinite = true) (finite' : degree.isFinite = true) :
    (library.power radicand (1 / degree)).isNaN = true ↔ FractionalReciprocal degree := by
  rw [isFinite_eq, decide_eq_true_eq] at finite'
  have size := magnitude_reciprocal finite'
  have bounded : reciprocalMagnitude degree ≤ infinityMagnitude := by
    unfold reciprocalMagnitude
    split_ifs
    · exact Nat.le_refl _
    · exact nearestMagnitude_le _ _
  rcases Nat.lt_or_eq_of_le bounded with below | same
  · have reached : (1 / degree).isFinite = true := by
      rwa [isFinite_eq, size, decide_eq_true_eq]
    rw [powers.finite negative finite reached, isWhole, size, units, size]
    simp [FractionalReciprocal, below, Nat.dvd_iff_mod_eq_zero]
  · have infinite : (1 / degree).isInf = true := by
      rw [isInf_eq, size, same, decide_eq_true rfl]
    rw [powers.infinite negative finite infinite, isNaN_infinitePower]
    simp [FractionalReciprocal, same]

/-- The roots of a negative number are NaN just for the degrees whose reciprocals are finite and no whole
numbers. Evaluation then fails at the root, as it does where the root is infinite. -/
theorem root_of_negative (powers : library.PowersOfNegatives) (negative : radicand < 0)
    (finite : radicand.isFinite = true) (finite' : degree.isFinite = true)
    (even : isOdd degree = false) :
    let value := library.root radicand degree
    (value.isNaN = true ↔ FractionalReciprocal degree) ∧
      (unitsPerOne < units degree → value.isNaN = true) ∧
      (units degree * fractionCount ≤ unitsPerOne → value.isNaN = false) ∧
      (reciprocalMagnitude degree = infinityMagnitude →
        value = infinitePower radicand (isNegative degree)) ∧
      ∀ table : OperatorTable, (table.entry? (.binary .root)).isSome →
        Postfix.evaluate library table
          [.number radicand, .number degree, .operator (.binary .root)] =
            if value.isFinite then .ok value
            else .error (.domain (.notFinite (some (.binary .root)) value)) := by
  intro value
  have power : value = library.power radicand (1 / degree) := root_eq_power even
  have known : value.isNaN = true ↔ FractionalReciprocal degree := by
    rw [power]
    exact isNaN_power_reciprocal powers negative finite finite'
  have size : magnitude degree < infinityMagnitude := by
    rwa [isFinite_eq, decide_eq_true_eq] at finite'
  refine ⟨known, fun large => known.mpr (fractional_of_one_lt size large), fun small => ?_,
    fun same => ?_, fun table entered => ?_⟩
  · exact Bool.eq_false_iff.mpr (mt known.mp (not_fractional_of_small small))
  · have infinite : (1 / degree).isInf = true := by
      rw [isInf_eq, magnitude_reciprocal size, same, decide_eq_true rfl]
    rw [power, powers.infinite negative finite infinite, isNegative_reciprocal size]
  · exact Postfix.evaluate_binary entered finite finite'

/-- Powers by whole numbers, rounded once, and those by infinite exponents. All others are NaN. -/
def exactPowers : MathLibrary where
  function _ argument := argument
  power x y :=
    let degree := wholePart y
    if y.isInf then infinitePower x (isNegative y)
    else if isWhole y then
      let size :=
        if isNegative y then nearest (Nat.pow unitsPerOne degree) (Nat.pow (units x) degree)
        else nearest (Nat.pow (units x) degree) (Nat.pow unitsPerOne degree)
      if isNegative x && degree % 2 == 1 then -size else size
    else Float.nan

theorem powersOfNegatives_exactPowers : exactPowers.PowersOfNegatives where
  finite := by
    intro x y negative finite finite'
    have bounded : y.isInf = false := by
      rw [isFinite_eq, decide_eq_true_eq] at finite'
      rw [isInf_eq, decide_eq_false_iff_not]
      omega
    have signed (numerator denominator : Nat) : (-nearest numerator denominator).isNaN = false := by
      have number := isNaN_nearest numerator denominator
      rwa [isNaN_eq, magnitude_neg number, ← isNaN_eq]
    simp only [exactPowers, bounded, Bool.false_eq_true, if_false]
    cases isWhole y with
    | false =>
        have undefined : Float.nan.isNaN = true := by decide +kernel
        exact iff_of_true undefined rfl
    | true =>
        refine iff_of_false ?_ (by decide)
        simp only [if_true, Bool.not_eq_true]
        split_ifs
        · exact signed _ _
        · exact signed _ _
        · exact isNaN_nearest _ _
        · exact isNaN_nearest _ _
  infinite := by
    intro x y negative finite infinite
    simp only [exactPowers, infinite, if_true]

theorem root_of_negative_square : PowersOfNegatives exactPowers ∧ (-4 : Float) < 0 ∧
    isOdd 2 = false ∧ (exactPowers.root (-4) 2).isNaN = true := by
  have negative : (-4 : Float) < 0 := by decide +kernel
  have even : isOdd 2 = false := by decide +kernel
  have root := root_of_negative powersOfNegatives_exactPowers negative (by decide +kernel)
    (by decide +kernel) even
  exact ⟨powersOfNegatives_exactPowers, negative, even, root.2.1 (by decide +kernel)⟩

/-- A half is not odd, but its reciprocal is a whole number. -/
theorem root_of_negative_half : PowersOfNegatives exactPowers ∧ (-4 : Float) < 0 ∧
    isOdd 0.5 = false ∧ exactPowers.root (-4) 0.5 = 16 ∧
    Postfix.evaluate exactPowers .standard
      [.number (-4), .number 0.5, .operator (.binary .root)] = .ok 16 := by
  refine ⟨powersOfNegatives_exactPowers, ?_⟩
  decide +kernel

end MathLibrary
end InfixCalculator
