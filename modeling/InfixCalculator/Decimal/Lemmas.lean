import InfixCalculator.Decimal

namespace InfixCalculator.Decimal

/-! Spelling a decimal fraction and reading it again.

`ofDigits_digits` says that reading what is written gives the same fraction with the same places;
`withoutTrailingZeros_value` that taking zeros off the end does not change the number. -/

theorem ne_point_of_mem_toDigits {n : Nat} {c : Char} (member : c ∈ Nat.toDigits 10 n) :
    c ≠ '.' := by
  intro point
  have digit := Nat.isDigit_of_mem_toDigits (by decide) (by decide) member
  subst point
  exact absurd digit (by decide)

theorem takeWhile_toDigits_append (n : Nat) (rest : List Char)
    (stops : ∀ c ∈ rest.head?, c = '.') :
    (Nat.toDigits 10 n ++ rest).takeWhile (· != '.') = Nat.toDigits 10 n := by
  rw [List.takeWhile_append_of_pos]
  · cases rest with
    | nil => simp
    | cons first more => simp [stops first (by simp)]
  · intro c member
    simpa using ne_point_of_mem_toDigits member

theorem ofDigits_digits (number : Decimal) : ofDigits number.digits = number := by
  obtain ⟨coefficient, places⟩ := number
  by_cases whole : places = 0
  · subst whole
    have spelled : (Nat.toDigits 10 coefficient).takeWhile (· != '.') =
        Nat.toDigits 10 coefficient := by
      simpa using takeWhile_toDigits_append coefficient [] (by simp)
    have nothing : (Nat.toDigits 10 coefficient).drop
        ((Nat.toDigits 10 coefficient).length + 1) = [] := by
      rw [List.drop_eq_nil_iff]
      omega
    simp [digits, ofDigits, spelled, nothing, Nat.ofDigitChars_ten_toDigits]
  · have small : coefficient % Nat.pow 10 places < Nat.pow 10 places :=
      Nat.mod_lt _ (Nat.pow_pos (by decide))
    have fits := (Nat.length_toDigits_le_iff (b := 10) (by decide) (by omega)).mpr small
    have width : places - (Nat.toDigits 10 (coefficient % Nat.pow 10 places)).length +
        (Nat.toDigits 10 (coefficient % Nat.pow 10 places)).length = places := by omega
    have beyond : (Nat.toDigits 10 (coefficient / Nat.pow 10 places)).length + 1 -
        (Nat.toDigits 10 (coefficient / Nat.pow 10 places)).length = 1 := by omega
    simp only [digits, if_neg whole, ofDigits]
    rw [takeWhile_toDigits_append _ _ (by simp), List.drop_append, List.drop_of_length_le (by omega),
      beyond]
    simp only [List.nil_append, List.drop_succ_cons, List.drop_zero, List.length_append,
      List.length_replicate, width, Nat.ofDigitChars_append, Nat.ofDigitChars_replicate_zero,
      Nat.ofDigitChars_ten_toDigits]
    rw [Nat.ofDigitChars_eq_ofDigitChars_zero, Nat.ofDigitChars_ten_toDigits, ← Nat.mul_assoc,
      ← Nat.pow_add, Nat.add_comm (Nat.toDigits 10 _).length, width]
    simp only [mk.injEq, and_true]
    exact Nat.div_add_mod coefficient (10 ^ places)

theorem withoutTrailingZeros_value (coefficient places : Nat) :
    (withoutTrailingZeros coefficient places).coefficient * Nat.pow 10 places =
      coefficient * Nat.pow 10 (withoutTrailingZeros coefficient places).places := by
  fun_induction withoutTrailingZeros coefficient places with
  | case1 => rfl
  | case2 coefficient places zero ih =>
      have split : coefficient = coefficient / 10 * 10 := by omega
      change _ * (Nat.pow 10 places * 10) = _
      rw [← Nat.mul_assoc, ih, Nat.mul_right_comm, ← split]
  | case3 => rfl

end InfixCalculator.Decimal
