namespace InfixCalculator

/-! Rounding of quotients of natural numbers to the nearest natural number.

The numerals of the calculator are exact decimal fractions and its doubles are exact binary
fractions; each step from one to the other is a single rounding of an exact quotient. -/

/-- The natural number nearest to `numerator / denominator`; halfway between two of them it is the
even one. -/
def roundHalfEven (numerator denominator : Nat) : Nat :=
  let whole := numerator / denominator
  let rest := numerator % denominator
  if 2 * rest < denominator ∨ (2 * rest = denominator ∧ whole % 2 = 0) then whole
  else whole + 1

theorem roundHalfEven_mul {denominator : Nat} (positive : 0 < denominator) (whole : Nat) :
    roundHalfEven (whole * denominator) denominator = whole := by
  simp [roundHalfEven, Nat.mul_div_cancel whole positive, positive]

end InfixCalculator
