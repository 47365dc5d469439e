import InfixCalculator.Proofs.Term

namespace InfixCalculator

/-! The term behind tokens in postfix order.

The last token of a postorder says what its term is made of, so no two terms have the same postorder
(`Term.postorder_injective`). `Term.result?` is the value of a term by plain recursion, which goes on
with infinities and NaN; evaluation succeeds just on the postorders of terms in which every subterm
comes out finite (`Postfix.evaluate_iff_postorder`). -/

open Outcome

namespace Term

/-- The term itself and all terms in it. -/
def subterms : Term → List Term
  | .number value => [.number value]
  | .constant => [.constant]
  | .function named argument => .function named argument :: argument.subterms
  | .factorial operand => .factorial operand :: operand.subterms
  | .binary sign left right => .binary sign left right :: (left.subterms ++ right.subterms)

def operators : Term → List Operator
  | .number _ | .constant => []
  | .function named argument => .function named :: argument.operators
  | .factorial operand => .factorial :: operand.operators
  | .binary sign left right => .binary sign :: (left.operators ++ right.operators)

/-- The value by recursion, finite or not; there is none where a factorial refuses its operand. -/
def result? (library : MathLibrary) : Term → Option Float
  | .number value => some value
  | .constant => some circleConstant
  | .function named argument => (argument.result? library).map (library.function named)
  | .factorial operand => do
      let x ← operand.result? library
      (InfixCalculator.factorial x).toOption
  | .binary sign left right => do
      let x ← left.result? library
      let y ← right.result? library
      some (library.binary sign x y)

/-- Every subterm has a finite value. -/
def Finite (library : MathLibrary) (term : Term) : Prop :=
  ∀ subterm ∈ term.subterms, ∃ x, subterm.result? library = some x ∧ x.isFinite = true

/-- The term is of operators in the table, stays finite and has this value. -/
structure Yields (library : MathLibrary) (table : OperatorTable) (term : Term) (result : Float) :
    Prop where
  known : ∀ operation ∈ term.operators, (table.entry? operation).isSome = true
  finite : term.Finite library
  value : term.result? library = some result

variable {library : MathLibrary} {table : OperatorTable}

theorem mem_postorder_iff {term : Term} {operation : Operator} :
    .operator operation ∈ term.postorder ↔ operation ∈ term.operators := by
  induction term with
  | number | constant => simp [postorder, operators]
  | function named argument ih => simp [postorder, operators, ih, or_comm]
  | factorial operand ih => simp [postorder, operators, ih, or_comm]
  | binary sign left right leftIH rightIH =>
      simp [postorder, operators, leftIH, rightIH, or_comm, or_left_comm]

/-- Where a postorder ends a list, the list tells the term and what stands before it. -/
theorem eq_of_append_postorder {term other : Term} {before before' : List Token}
    (same : before ++ term.postorder = before' ++ other.postorder) :
    term = other ∧ before = before' := by
  induction term generalizing other before before' with
  | number value =>
      cases other with
      | number => simpa [postorder, and_comm] using same
      | constant | function | factorial | binary => simp [postorder, ← List.append_assoc] at same
  | constant =>
      cases other with
      | constant => simpa [postorder] using same
      | number | function | factorial | binary => simp [postorder, ← List.append_assoc] at same
  | function named argument ih =>
      cases other with
      | function other argument' =>
          simp only [postorder, ← List.append_assoc] at same
          obtain ⟨same, last⟩ := List.append_inj' same rfl
          obtain ⟨rfl, rfl⟩ := ih same
          simpa using last
      | number | constant | factorial | binary => simp [postorder, ← List.append_assoc] at same
  | factorial operand ih =>
      cases other with
      | factorial operand' =>
          simp only [postorder, ← List.append_assoc] at same
          obtain ⟨same, _⟩ := List.append_inj' same rfl
          obtain ⟨rfl, rfl⟩ := ih same
          exact ⟨rfl, rfl⟩
      | number | constant | function | binary => simp [postorder, ← List.append_assoc] at same
  | binary sign left right leftIH rightIH =>
      cases other with
      | binary sign' left' right' =>
          simp only [postorder, ← List.append_assoc] at same
          obtain ⟨same, last⟩ := List.append_inj' same rfl
          -- The left operand belongs to what stands before the right one.
          obtain ⟨rfl, front⟩ := rightIH same
          obtain ⟨rfl, rfl⟩ := leftIH front
          simpa using last
      | number | constant | function | factorial => simp [postorder, ← List.append_assoc] at same

theorem postorder_injective {term other : Term} (same : term.postorder = other.postorder) :
    term = other :=
  (@eq_of_append_postorder term other [] [] same).1

theorem result?_factorial_eq_some {operand : Term} {result : Float} :
    (factorial operand).result? library = some result ↔
      ∃ x, operand.result? library = some x ∧ InfixCalculator.factorial x = .ok result := by
  simp only [result?, Option.bind_eq_bind, Option.bind_eq_some_iff]
  refine exists_congr fun x => and_congr_right fun _ => ?_
  cases InfixCalculator.factorial x <;> simp [Except.toOption]

theorem result?_binary_eq_some {sign : BinaryOperator} {left right : Term} {result : Float} :
    (binary sign left right).result? library = some result ↔
      ∃ x, left.result? library = some x ∧ ∃ y, right.result? library = some y ∧
        library.binary sign x y = result := by
  simp only [result?, Option.bind_eq_bind, Option.bind_eq_some_iff, Option.some.injEq]

theorem result?_function_eq_some {named : ElementaryFunction} {argument : Term} {result : Float} :
    (function named argument).result? library = some result ↔
      ∃ x, argument.result? library = some x ∧ library.function named x = result := by
  simp only [result?, Option.map_eq_some_iff]

/-- The value with its checks is the plain value where everything stays finite. -/
theorem value_eq_ok_iff_result {term : Term} {result : Float} :
    term.value library = .ok result ↔ term.Finite library ∧ term.result? library = some result := by
  induction term generalizing result with
  | number x => simp [value, Finite, subterms, result?, finite_eq_ok]
  | constant => simp [value, Finite, subterms, result?, finite_eq_ok]
  | function named argument ih =>
      simp only [value, bind_eq_ok, finite_eq_ok, ih, Finite, subterms, List.forall_mem_cons,
        result?_function_eq_some]
      grind
  | factorial operand ih =>
      simp only [value, bind_eq_ok, finite_eq_ok, ih, mapError_eq_ok, Finite, subterms,
        List.forall_mem_cons, result?_factorial_eq_some]
      grind
  | binary sign left right leftIH rightIH =>
      simp only [value, bind_eq_ok, finite_eq_ok, leftIH, rightIH, Finite, subterms,
        List.forall_mem_cons, List.forall_mem_append, result?_binary_eq_some]
      grind

theorem yields_iff {term : Term} {result : Float} : term.Yields library table result ↔
    table.Knows term.postorder ∧ term.value library = .ok result := by
  rw [value_eq_ok_iff_result]
  constructor
  · intro yields
    exact ⟨fun operation member => yields.known operation (mem_postorder_iff.mp member),
      yields.finite, yields.value⟩
  · rintro ⟨known, finite, value⟩
    exact ⟨fun operation member => known operation (mem_postorder_iff.mpr member), finite, value⟩

end Term

/-- Evaluation accepts just the postorders of terms that stay finite, with their values, and tokens are
the postorder of one term at most. -/
theorem Postfix.evaluate_iff_postorder {library : MathLibrary} {table : OperatorTable}
    {tokens : List Token} {result : Float} :
    (Postfix.evaluate library table tokens = .ok result ↔
      ∃ term : Term, term.postorder = tokens ∧ term.Yields library table result) ∧
      ∀ term other : Term, term.postorder = tokens → other.postorder = tokens → term = other := by
  rw [Postfix.evaluate_eq_ok_iff]
  refine ⟨⟨?_, ?_⟩, ?_⟩
  · rintro ⟨known, term, rfl, valued⟩
    exact ⟨term, rfl, Term.yields_iff.mpr ⟨known, valued⟩⟩
  · rintro ⟨term, rfl, yields⟩
    obtain ⟨known, valued⟩ := Term.yields_iff.mp yields
    exact ⟨known, term, rfl, valued⟩
  · intro term other order otherOrder
    exact Term.postorder_injective (order.trans otherOrder.symm)

end InfixCalculator
