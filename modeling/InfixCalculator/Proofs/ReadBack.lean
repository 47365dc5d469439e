import InfixCalculator.Binary64.Bits
import InfixCalculator.Decimal.Lemmas
import InfixCalculator.Numeral
import InfixCalculator.Proofs.Binary64.Nearest
import InfixCalculator.Proofs.Lexing

namespace InfixCalculator

/-! Numerals that read back.

Rounding takes the exact size of a finite double back to that double, so the shortest numeral that reads
back always exists, and the text of a finite double is a numeral behind at most one minus. -/

namespace Decimal

theorem nearestMagnitude_withoutTrailingZeros (coefficient places : Nat) :
    let stripped := withoutTrailingZeros coefficient places
    Binary64.nearestMagnitude stripped.coefficient (Nat.pow 10 stripped.places) =
      Binary64.nearestMagnitude coefficient (Nat.pow 10 places) := by
  intro stripped
  have value := withoutTrailingZeros_value coefficient places
  have scaleUp : 0 < Nat.pow 10 places := Nat.pow_pos (by decide)
  have scaleDown : 0 < Nat.pow 10 stripped.places := Nat.pow_pos (by decide)
  calc Binary64.nearestMagnitude stripped.coefficient (Nat.pow 10 stripped.places)
      = Binary64.nearestMagnitude (Nat.pow 10 places * stripped.coefficient)
          (Nat.pow 10 places * Nat.pow 10 stripped.places) :=
        (Binary64.nearestMagnitude_scale scaleUp _ _).symm
    _ = Binary64.nearestMagnitude (Nat.pow 10 stripped.places * coefficient)
          (Nat.pow 10 stripped.places * Nat.pow 10 places) := by
        rw [Nat.mul_comm (Nat.pow 10 places) stripped.coefficient, value,
          Nat.mul_comm coefficient, Nat.mul_comm (Nat.pow 10 places)]
    _ = Binary64.nearestMagnitude coefficient (Nat.pow 10 places) :=
        Binary64.nearestMagnitude_scale scaleDown _ _

theorem nearestMagnitude_units {x : Float} (finite : x.isFinite = true) {scale denominator : Nat}
    (positive : 0 < scale) (same : denominator = scale * Binary64.unitsPerOne) :
    Binary64.nearestMagnitude (Binary64.units x * scale) denominator = Binary64.magnitude x := by
  rw [Binary64.isFinite_eq, decide_eq_true_eq] at finite
  rw [same, Nat.mul_comm, Binary64.nearestMagnitude_scale positive]
  exact Binary64.nearestMagnitude_unitsOfMagnitude finite

theorem ten_pow_places {places : Nat} (same : places = 1074) :
    Nat.pow 10 places = Nat.pow 5 1074 * Binary64.unitsPerOne := by
  subst same
  decide +kernel

theorem readsBackAs_ofDouble {x : Float} (finite : x.isFinite = true) :
    readsBackAs x (ofDouble x) = true :=
  beq_iff_eq.mpr (nearestMagnitude_units finite (by decide +kernel) (ten_pow_places rfl))

theorem readsBackAs_shortest {x : Float} (finite : x.isFinite = true) :
    readsBackAs x (shortest x) = true := by
  have stripped (coefficient : Nat)
      (reads : readsBackAs x ⟨coefficient, (ofDouble x).places⟩ = true) :
      readsBackAs x (withoutTrailingZeros coefficient (ofDouble x).places) = true := by
    rwa [readsBackAs, nearestMagnitude_withoutTrailingZeros]
  apply stripped
  generalize tried : List.findSome? _ _ = found
  cases found with
  | none => exact readsBackAs_ofDouble finite
  | some coefficient =>
      obtain ⟨extra, _, picked⟩ := List.exists_of_findSome?_eq_some tried
      have reads := List.find?_some picked
      exact reads

theorem isNumeral_digits (number : Decimal) : IsNumeral number.digits := by
  have digit (n : Nat) : ∀ c ∈ Nat.toDigits 10 n, isDigit c = true := fun c member =>
    Nat.isDigit_of_mem_toDigits (by decide) (by decide) member
  have whole := digit (number.coefficient / Nat.pow 10 number.places)
  unfold digits
  dsimp only
  split
  · exact .whole Nat.toDigits_ne_nil whole
  · refine .pointed (by simp [Nat.toDigits_ne_nil]) ?_
    intro c member
    rcases List.mem_append.mp member with member | member
    · exact whole c member
    · rcases List.mem_append.mp member with member | member
      · rw [(List.mem_replicate.mp member).2]
        rfl
      · exact digit _ c member

end Decimal

namespace Numeral

theorem isNegative_read (spelling : List Char) : Binary64.isNegative (read spelling) = false := by
  rw [read, Decimal.toDouble, Binary64.isNegative_nearest]

theorem isNaN_read (spelling : List Char) : (read spelling).isNaN = false := by
  rw [read, Decimal.toDouble, Binary64.isNaN_nearest]

theorem toList_text {x : Float} (finite : x.isFinite = true) :
    (text x).toList =
      (if Binary64.isNegative x then ['-'] else []) ++ (Decimal.shortest x).digits := by
  rw [Binary64.isFinite_eq, decide_eq_true_eq] at finite
  have number : x.isNaN = false := by
    rw [Binary64.isNaN_eq, decide_eq_false_iff_not]
    omega
  have bounded : x.isInf = false := by
    rw [Binary64.isInf_eq, decide_eq_false_iff_not]
    omega
  simp only [text, spell, number, bounded, Bool.false_eq_true, if_false]
  rw [String.toList_ofList]
  split
  · rw [List.singleton_append]
  · rw [List.nil_append]

theorem magnitude_read_shortest {x : Float} (finite : x.isFinite = true) :
    Binary64.magnitude (read (Decimal.shortest x).digits) = Binary64.magnitude x := by
  have reads := Decimal.readsBackAs_shortest finite
  rw [Decimal.readsBackAs, beq_iff_eq] at reads
  rw [read, Decimal.ofDigits_digits, Decimal.toDouble, Binary64.magnitude_nearest, reads]

/-- With its sign, the shortest numeral of a finite double reads back as that double. -/
theorem read_shortest {x : Float} (finite : x.isFinite = true) :
    (if Binary64.isNegative x then -read (Decimal.shortest x).digits
      else read (Decimal.shortest x).digits) = x := by
  have size := magnitude_read_shortest finite
  have positive := isNegative_read (Decimal.shortest x).digits
  cases negative : Binary64.isNegative x with
  | false => exact Binary64.eq_of_isNegative_of_magnitude (positive.trans negative.symm) size
  | true =>
      have number := isNaN_read (Decimal.shortest x).digits
      apply Binary64.eq_of_isNegative_of_magnitude
      · rw [if_pos rfl, Binary64.isNegative_neg number, positive, negative]
        rfl
      · rw [if_pos rfl, Binary64.magnitude_neg number, size]

/-- The text of a finite double is a numeral behind its sign, and they read back as the double. -/
theorem text_eq_signed {x : Float} (finite : x.isFinite = true) : ∃ digits, IsNumeral digits ∧
    (text x).toList = (if Binary64.isNegative x then ['-'] else []) ++ digits ∧
      (if Binary64.isNegative x then -read digits else read digits) = x :=
  ⟨_, Decimal.isNumeral_digits (Decimal.shortest x), toList_text finite, read_shortest finite⟩

theorem readAs_text (table : OperatorTable) {x : Float} (finite : x.isFinite = true) :
    ReadAs table (text x).toList [.number x] := by
  have reads := @ReadAs.signed table _ (Binary64.isNegative x)
    (Decimal.isNumeral_digits (Decimal.shortest x))
  rw [read_shortest finite] at reads
  rw [toList_text finite]
  exact reads

theorem visible_text {x : Float} (finite : x.isFinite = true) :
    Text.visible (text x).toList = (text x).toList := by
  have numeral := Decimal.isNumeral_digits (Decimal.shortest x)
  rw [toList_text finite, Text.visible_append, numeral.visible_eq]
  split <;> rfl

end Numeral
end InfixCalculator
