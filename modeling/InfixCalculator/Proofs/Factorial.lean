import InfixCalculator.Factorial
import InfixCalculator.Proofs.Binary64.Closest
import InfixCalculator.Proofs.Binary64.WholeNumbers

namespace InfixCalculator

open Binary64
open scoped Nat

/-! The factorials of all finite doubles.

Up to 170 the table has the double closest to the factorial, beyond that the factorial is infinite, and
numbers below zero or with a fraction have none (`factorial_of_finite`). -/

/-- The magnitude that a natural number is rounded to, from its own bits. -/
def naturalMagnitude (n : ℕ) : ℕ :=
  min ((1022 + n.log2) * fractionCount + roundHalfEven (n * fractionCount) (Nat.pow 2 n.log2))
    infinityMagnitude

theorem nearestMagnitude_natural {n : ℕ} (positive : 0 < n) :
    nearestMagnitude n 1 = naturalMagnitude n := by
  obtain ⟨ones, same⟩ : ∃ ones, ones = 1022 + 52 := ⟨_, rfl⟩
  have nonzero := Nat.ne_of_gt positive
  have bits : (n * 2 ^ ones).log2 = n.log2 + ones := by
    rw [Nat.log2_eq_iff (Nat.ne_of_gt (Nat.mul_pos positive (Nat.two_pow_pos ones))), Nat.pow_add,
      Nat.add_right_comm, Nat.pow_add]
    exact ⟨Nat.mul_le_mul_right _ (Nat.log2_self_le nonzero),
      Nat.mul_lt_mul_of_pos_right Nat.lt_log2_self (Nat.two_pow_pos ones)⟩
  obtain ⟨low, same'⟩ : ∃ low, low = 1022 := ⟨_, rfl⟩
  have dropped : n.log2 + ones - 52 = low + n.log2 := by omega
  have scaled : n * 2 ^ ones = 2 ^ low * (n * fractionCount) := by
    rw [same, ← same', Nat.pow_add, Nat.mul_left_comm]
    rfl
  rw [nearestMagnitude, naturalMagnitude, unitsPerOne_eq same, Nat.div_one, Nat.one_mul, ← same']
  simp only [Nat.pow_eq, bits, dropped]
  rw [scaled, Nat.pow_add, roundHalfEven_scale (Nat.two_pow_pos low)]

/-- The entries of the table are rounded to where the factorials are, and the last one is finite. -/
theorem roundedFactorials_checked : roundedFactorials.length = 171 ∧
    (∀ n < 171, roundedFactorials[n]?.all (fun entry => decide (0 < entry.1) &&
      naturalMagnitude (entry.1 * Nat.pow 10 entry.2) == naturalMagnitude n !) = true) ∧
    naturalMagnitude 170 ! < infinityMagnitude := by
  decide +kernel

theorem length_roundedFactorials : roundedFactorials.length = 171 := roundedFactorials_checked.1

theorem roundedFactorials_correct {n : ℕ} (small : n ≤ 170) : ∃ digits zeros,
    roundedFactorials[n]? = some (digits, zeros) ∧
      nearestMagnitude (digits * Nat.pow 10 zeros) 1 = nearestMagnitude n ! 1 := by
  have within : n < roundedFactorials.length := by
    rw [length_roundedFactorials]
    exact Nat.lt_succ_of_le small
  have entry := roundedFactorials_checked.2.1 n (Nat.lt_succ_of_le small)
  rw [List.getElem?_eq_getElem within, Option.all_some, Bool.and_eq_true, decide_eq_true_eq,
    beq_iff_eq] at entry
  obtain ⟨positive, same⟩ := entry
  have written := Nat.mul_pos positive (Nat.pow_pos (n := roundedFactorials[n].2) (show 0 < 10 by decide))
  refine ⟨_, _, List.getElem?_eq_getElem within, (nearestMagnitude_natural written).trans ?_⟩
  rw [nearestMagnitude_natural (Nat.factorial_pos n)]
  exact same

theorem nearestMagnitude_factorial_lt {n : ℕ} (small : n ≤ 170) :
    nearestMagnitude n ! 1 < infinityMagnitude :=
  calc nearestMagnitude n ! 1
      ≤ nearestMagnitude 170 ! 1 := nearestMagnitude_mono Nat.one_pos Nat.one_pos
        (Nat.mul_le_mul_right 1 (Nat.factorial_le small))
    _ = naturalMagnitude 170 ! := nearestMagnitude_natural (Nat.factorial_pos 170)
    _ < infinityMagnitude := roundedFactorials_checked.2.2

theorem tabulatedFactorial?_of_le {n : ℕ} (small : n ≤ 170) :
    tabulatedFactorial? n = some (nearest n ! 1) := by
  obtain ⟨digits, zeros, entry, same⟩ := roundedFactorials_correct small
  rw [tabulatedFactorial?, entry]
  exact congrArg (fun size => some (Float.ofBits (UInt64.ofNat size))) same

theorem tabulatedFactorial?_of_lt {n : ℕ} (large : 170 < n) : tabulatedFactorial? n = none := by
  have beyond : roundedFactorials.length ≤ n := by rwa [length_roundedFactorials]
  rw [tabulatedFactorial?, List.getElem?_eq_none beyond, Option.map_none]

theorem closest_factorial {n : ℕ} (small : n ≤ 170) : Closest (nearest n ! 1) n ! := by
  have closest := closest_nearest Nat.one_pos (nearestMagnitude_factorial_lt small)
  rwa [Nat.cast_one, div_one] at closest

theorem one_le_factorial_cast (n : ℕ) : (1 : ℚ) ≤ n ! := by exact_mod_cast Nat.factorial_pos n

/-- The factorial, with the checks and the conversion as they are computed in doubles. -/
def convertedFactorial (x : Float) : Except FactorialError Float :=
  if x < 0 then .error (.negative x)
  else if (fraction x == 0) = false then .error (.fractional x)
  else .ok (((convertedNatural? x).bind tabulatedFactorial?).getD infinity)

theorem convertedFactorial_eq (x : Float) : convertedFactorial x = factorial x := by
  rw [convertedFactorial, factorial, fraction_beq_zero, convertedNatural?_eq]
  cases (natural? x).bind tabulatedFactorial? <;> rfl

section

variable {x : Float} {q : ℚ}

theorem factorial_of_negative (valued : number? x = some q) (negative : q < 0) :
    factorial x = .error (.negative x) :=
  if_pos ((lt_iff valued number?_zero).mpr negative)

theorem factorial_of_fractional (valued : number? x = some q) (unsigned : 0 ≤ q)
    (fractional : ¬∃ k : ℤ, q = k) : factorial x = .error (.fractional x) := by
  have part : isWhole x = false := by
    rwa [← isWhole_iff_number valued, Bool.not_eq_true] at fractional
  rw [factorial, if_neg (mt (lt_iff valued number?_zero).mp (not_lt.mpr unsigned)), if_pos part]

theorem factorial_of_whole {n : ℕ} (valued : number? x = some (n : ℚ)) :
    factorial x = .ok (((natural? x).bind tabulatedFactorial?).getD infinity) := by
  have unsigned : ¬x < 0 := mt (lt_iff valued number?_zero).mp (not_lt.mpr (Nat.cast_nonneg n))
  have whole : isWhole x = true := (@units_of_number x n valued).1
  rw [factorial, if_neg unsigned, if_neg (by simp [whole])]
  cases (natural? x).bind tabulatedFactorial? <;> rfl

theorem factorial_of_small {n : ℕ} (valued : number? x = some (n : ℚ)) (small : n ≤ 170) :
    factorial x = .ok (nearest n ! 1) := by
  have found := natural?_eq_some_iff.mpr ⟨valued, small.trans (by decide)⟩
  rw [factorial_of_whole valued, found, Option.bind_some, tabulatedFactorial?_of_le small, Option.getD_some]

theorem natural?_of_large {n : ℕ} (valued : number? x = some (n : ℚ)) (large : 2 ^ 53 ≤ n) :
    natural? x = none := by
  refine Option.eq_none_iff_forall_ne_some.mpr fun m found => ?_
  obtain ⟨valued', bound⟩ := natural?_eq_some_iff.mp found
  obtain rfl : n = m := by exact_mod_cast Option.some.inj (valued.symm.trans valued')
  exact absurd (large.trans bound) (by decide)

theorem factorial_of_large {n : ℕ} (valued : number? x = some (n : ℚ)) (large : 170 < n) :
    factorial x = .ok infinity := by
  rw [factorial_of_whole valued]
  cases found : natural? x with
  | none => rfl
  | some m =>
      obtain ⟨valued', _⟩ := natural?_eq_some_iff.mp found
      obtain rfl : n = m := by exact_mod_cast Option.some.inj (valued.symm.trans valued')
      rw [Option.bind_some, tabulatedFactorial?_of_lt large, Option.getD_none]

theorem factorial_cases (valued : number? x = some q) :
    (q < 0 ∧ factorial x = .error (.negative x)) ∨
    (0 ≤ q ∧ (¬∃ k : ℤ, q = k) ∧ factorial x = .error (.fractional x)) ∨
    (∃ n : ℕ, n ≤ 170 ∧ q = n ∧ factorial x = .ok (nearest n ! 1)) ∨
    ∃ n : ℕ, 170 < n ∧ q = n ∧ factorial x = .ok infinity := by
  rcases lt_or_ge q 0 with negative | unsigned
  · exact .inl ⟨negative, factorial_of_negative valued negative⟩
  by_cases whole : ∃ k : ℤ, q = k
  · obtain ⟨k, rfl⟩ := whole
    obtain ⟨n, rfl⟩ := Int.eq_ofNat_of_zero_le (by exact_mod_cast unsigned : 0 ≤ k)
    rcases Nat.lt_or_ge 170 n with large | small
    · exact .inr (.inr (.inr ⟨n, large, Int.cast_natCast n, factorial_of_large valued large⟩))
    · exact .inr (.inr (.inl ⟨n, small, Int.cast_natCast n, factorial_of_small valued small⟩))
  · exact .inr (.inl ⟨unsigned, whole, factorial_of_fractional valued unsigned whole⟩)

end

/-- The factorial of any finite double, by the number that it stands for. -/
theorem factorial_of_finite {x : Float} (finite : x.isFinite = true) :
    ∃ q, number? x = some q ∧
      (∀ fault, factorial x = .error fault ↔ (q < 0 ∧ fault = .negative x) ∨
        (0 ≤ q ∧ (¬∃ k : ℤ, q = k) ∧ fault = .fractional x)) ∧
      (∀ y, factorial x = .ok y ↔ (∃ n : ℕ, n ≤ 170 ∧ q = n ∧ Closest y n !) ∨
        (∃ n : ℕ, 170 < n ∧ q = n ∧ y = infinity)) ∧
      (∀ n : ℕ, n ≤ 170 → q = n → natural? x = some n ∧ n < roundedFactorials.length ∧
        ∃ y, factorial x = .ok y ∧ Closest y n ! ∧ ∀ z, Closest z n ! → z = y) ∧
      (∀ n : ℕ, 2 ^ 53 ≤ n → q = n → natural? x = none ∧ factorial x = .ok infinity) ∧
      factorial x = convertedFactorial x := by
  rw [isFinite_eq, decide_eq_true_eq] at finite
  obtain ⟨q, valued⟩ : ∃ q, number? x = some q := ⟨_, number?_of_finite finite⟩
  refine ⟨q, valued, ?_, ?_, ?_, ?_, (convertedFactorial_eq x).symm⟩
  · intro fault
    constructor
    · intro failed
      rcases factorial_cases valued with ⟨negative, value⟩ | ⟨unsigned, fractional, value⟩ |
          ⟨_, _, _, value⟩ | ⟨_, _, _, value⟩ <;>
        cases value.symm.trans failed
      · exact .inl ⟨negative, rfl⟩
      · exact .inr ⟨unsigned, fractional, rfl⟩
    · rintro (⟨negative, rfl⟩ | ⟨unsigned, fractional, rfl⟩)
      · exact factorial_of_negative valued negative
      · exact factorial_of_fractional valued unsigned fractional
  · intro y
    constructor
    · intro computed
      rcases factorial_cases valued with ⟨_, value⟩ | ⟨_, _, value⟩ | ⟨n, small, whole, value⟩ |
          ⟨n, large, whole, value⟩ <;>
        cases value.symm.trans computed
      · exact .inl ⟨n, small, whole, closest_factorial small⟩
      · exact .inr ⟨n, large, whole, rfl⟩
    · rintro (⟨n, small, rfl, closest⟩ | ⟨n, large, rfl, rfl⟩)
      · rw [factorial_of_small valued small,
          closest.unique (closest_factorial small) (one_le_factorial_cast n)]
      · exact factorial_of_large valued large
  · rintro n small rfl
    refine ⟨natural?_eq_some_iff.mpr ⟨valued, small.trans (by decide)⟩, ?_, nearest n ! 1,
      factorial_of_small valued small, closest_factorial small, fun z closest => ?_⟩
    · rw [length_roundedFactorials]
      exact Nat.lt_succ_of_le small
    · exact closest.unique (closest_factorial small) (one_le_factorial_cast n)
  · rintro n large rfl
    exact ⟨natural?_of_large valued large,
      factorial_of_large valued (Nat.lt_of_lt_of_le (by decide) large)⟩

theorem factorial_of_finite_twentythree : (23 : Float).isFinite = true ∧
    ∃ y, factorial 23 = .ok y ∧ Closest y 25852016738884976640000 := by
  have finite : (23 : Float).isFinite = true := by decide +kernel
  have twentythree : number? 23 = some ((23 : ℕ) : ℚ) := by
    rw [number?_eq_natCast_iff]
    decide +kernel
  obtain ⟨q, valued, _, _, small, _⟩ := factorial_of_finite finite
  obtain ⟨_, _, y, computed, closest, _⟩ :=
    small 23 (by decide) (Option.some.inj (valued.symm.trans twentythree))
  have product : ((23 ! : ℕ) : ℚ) = 25852016738884976640000 := by norm_num [Nat.factorial]
  exact ⟨finite, y, computed, product ▸ closest⟩

end InfixCalculator
