import InfixCalculator.Proofs.Calculation.Operators

namespace InfixCalculator

/-! The operands that an operator finds.

An operator takes as many values off the stack as its entry in the table asks for, and these are as many
as it computes with (`Postfix.step_eq_stepByCount`). What comes from the conversion holds no parenthesis
and no operator that the table lacks, so within a calculator evaluation fails only for too few operands,
for a number of results other than one, or for a value (`Calculator.evaluate_mishaps`). -/

open Outcome

def OperatorEntry.arity (entry : OperatorEntry) : Nat := entry.operator.arity

namespace Postfix

variable {library : MathLibrary} {table : OperatorTable}

/-- As many values off the top of a stack as an entry asks for, the lowest in front, and the stack below
them. -/
def takeOperands (entry : OperatorEntry) (stack : List Float) :
    Except EvaluationError (List Float × List Float) :=
  if stack.length < entry.arity then
    .error (.missingOperand entry.operator entry.arity stack.length)
  else .ok ((stack.take entry.arity).reverse, stack.drop entry.arity)

/-- The outcome of an operator on a list of operands, if it computes with so many. -/
def compute? (library : MathLibrary) : Operator → List Float → Option (Except EvaluationError Float)
  | .binary sign, [left, right] => some (.ok (library.binary sign left right))
  | .function named, [argument] => some (.ok (library.function named argument))
  | .factorial, [operand] =>
      some (((InfixCalculator.factorial operand).mapError .factorial).mapError .domain)
  | _, _ => none

/-- The step of an operator by the count of its operands, with an outcome for the case that the operator
does not compute with so many. -/
def stepByCount (library : MathLibrary) (table : OperatorTable)
    (mismatch : Operator → List Float → Except EvaluationError Float) (stack : List Float)
    (operation : Operator) : Except EvaluationError (List Float) :=
  match table.entry? operation with
  | none => .error (.unknownOperator operation)
  | some entry => do
      let (operands, rest) ← takeOperands entry stack
      let value ← (compute? library operation operands).getD (mismatch operation operands)
      push (some operation) value rest

theorem arity_of_found {operation : Operator} {entry : OperatorEntry}
    (found : table.entry? operation = some entry) : entry.arity = operation.arity := by
  rw [OperatorEntry.arity, OperatorTable.entry?_operator found]

theorem takeOperands_of_le {entry : OperatorEntry} {stack : List Float}
    (enough : entry.arity ≤ stack.length) :
    ∃ operands rest, takeOperands entry stack = .ok (operands, rest) ∧
      operands.length = entry.arity ∧ operands.reverse ++ rest = stack := by
  refine ⟨_, _, if_neg (Nat.not_lt.mpr enough), ?_, ?_⟩
  · rw [List.length_reverse, List.length_take, Nat.min_eq_left enough]
  · rw [List.reverse_reverse, List.take_append_drop]

theorem isSome_compute? {operation : Operator} {operands : List Float}
    (count : operands.length = operation.arity) : (compute? library operation operands).isSome := by
  cases operation with
  | binary sign =>
      obtain ⟨left, right, rfl⟩ := List.length_eq_two.mp count
      rfl
  | function named =>
      obtain ⟨argument, rfl⟩ := List.length_eq_one_iff.mp count
      rfl
  | factorial =>
      obtain ⟨operand, rfl⟩ := List.length_eq_one_iff.mp count
      rfl

theorem apply_of_lt {operation : Operator} {stack : List Float}
    (few : stack.length < operation.arity) :
    apply library operation stack =
      .error (.missingOperand operation operation.arity stack.length) := by
  cases operation with
  | function named =>
      rw [List.length_eq_zero_iff.mp (Nat.lt_one_iff.mp few)]
      rfl
  | factorial =>
      rw [List.length_eq_zero_iff.mp (Nat.lt_one_iff.mp few)]
      rfl
  | binary sign =>
      cases stack with
      | nil => rfl
      | cons right rest =>
          rw [List.length_eq_zero_iff.mp (Nat.lt_one_iff.mp (Nat.lt_of_succ_lt_succ few))]
          rfl

theorem apply_of_compute {operation : Operator} {operands : List Float} (rest : List Float)
    {outcome : Except EvaluationError Float}
    (computed : compute? library operation operands = some outcome) :
    apply library operation (operands.reverse ++ rest) = outcome.map (·, rest) := by
  unfold compute? at computed
  split at computed
  · cases computed
    rfl
  · cases computed
    rfl
  · next operand =>
      cases computed
      simp only [List.reverse_singleton, List.singleton_append, apply]
      cases InfixCalculator.factorial operand <;> rfl
  · cases computed

/-- Where an operator has too few values on the stack its step fails; else it has its operands, and no
case is left over. -/
theorem step_eq_stepByCount (mismatch : Operator → List Float → Except EvaluationError Float)
    (stack : List Float) (operation : Operator) :
    step library table stack (.operator operation) =
      stepByCount library table mismatch stack operation := by
  cases found : table.entry? operation with
  | none => simp only [step, stepByCount, found]
  | some entry =>
      have arity := arity_of_found found
      by_cases enough : entry.arity ≤ stack.length
      · obtain ⟨operands, rest, taken, count, rfl⟩ := takeOperands_of_le enough
        obtain ⟨outcome, computed⟩ := Option.isSome_iff_exists.mp
          (@isSome_compute? library operation operands (count.trans arity))
        simp only [step, stepByCount, found, taken, apply_of_compute rest computed, computed, ok_bind,
          Option.getD_some]
        cases outcome <;> rfl
      · have few : stack.length < operation.arity := arity ▸ Nat.lt_of_not_le enough
        have taken : takeOperands entry stack =
            .error (.missingOperand operation operation.arity stack.length) := by
          rw [takeOperands, if_pos (Nat.lt_of_not_le enough), OperatorTable.entry?_operator found, arity]
        simp only [step, stepByCount, found, taken, apply_of_lt few, error_bind]

/-- How a token can fail on a stack. -/
inductive StepMishap (table : OperatorTable) (stack : List Float) : Token → EvaluationError → Prop where
  | parenthesis {token : Token} (paren : token.isParen = true) :
      StepMishap table stack token .parenthesis
  | unknownOperator {operation : Operator} (unknown : table.entry? operation = none) :
      StepMishap table stack (.operator operation) (.unknownOperator operation)
  | missingOperand {operation : Operator} (few : stack.length < operation.arity) :
      StepMishap table stack (.operator operation)
        (.missingOperand operation operation.arity stack.length)
  | domain {token : Token} (reason : DomainError) : StepMishap table stack token (.domain reason)

theorem push_eq_error {producer : Option Operator} {value : Float} {stack : List Float}
    {reason : EvaluationError} (failed : push producer value stack = .error reason) :
    reason = .domain (.notFinite producer value) := by
  unfold push at failed
  split at failed
  · cases failed
  · cases failed
    rfl

theorem compute?_eq_error {operation : Operator} {operands : List Float} {reason : EvaluationError}
    (computed : compute? library operation operands = some (.error reason)) :
    ∃ found, reason = .domain found := by
  unfold compute? at computed
  split at computed
  · cases computed
  · cases computed
  · rw [Option.some.injEq, mapError_eq_error] at computed
    obtain ⟨found, _, same⟩ := computed
    exact ⟨found, same.symm⟩
  · cases computed

theorem apply_eq_error {operation : Operator} {stack : List Float} {reason : EvaluationError}
    (failed : apply library operation stack = .error reason) :
    (stack.length < operation.arity ∧
        reason = .missingOperand operation operation.arity stack.length) ∨
      ∃ found, reason = .domain found := by
  by_cases few : stack.length < operation.arity
  · rw [apply_of_lt few] at failed
    cases failed
    exact .inl ⟨few, rfl⟩
  · have count : (stack.take operation.arity).reverse.length = operation.arity := by
      rw [List.length_reverse, List.length_take, Nat.min_eq_left (Nat.le_of_not_lt few)]
    obtain ⟨outcome, computed⟩ := Option.isSome_iff_exists.mp
      (@isSome_compute? library operation _ count)
    have applied := apply_of_compute (stack.drop operation.arity) computed
    rw [List.reverse_reverse, List.take_append_drop, failed] at applied
    cases outcome with
    | ok value => cases applied
    | error found =>
        cases applied
        exact .inr (compute?_eq_error computed)

theorem step_mishap {stack : List Float} {token : Token} {reason : EvaluationError}
    (failed : step library table stack token = .error reason) :
    StepMishap table stack token reason := by
  cases token with
  | number value => exact push_eq_error failed ▸ .domain _
  | constant => exact push_eq_error failed ▸ .domain _
  | openParen | closeParen =>
      cases failed
      exact .parenthesis rfl
  | operator operation =>
      cases found : table.entry? operation with
      | none =>
          simp only [step, found, Except.error.injEq] at failed
          exact failed ▸ .unknownOperator found
      | some entry =>
          simp only [step, found] at failed
          split at failed
          · exact push_eq_error failed ▸ .domain _
          · next reason' failed' =>
              cases failed
              rcases apply_eq_error failed' with ⟨few, rfl⟩ | ⟨domain, rfl⟩
              · exact .missingOperand few
              · exact .domain domain

theorem run_mishap {tokens : List Token} {stack : List Float} {reason : EvaluationError}
    (failed : tokens.foldlM (step library table) stack = .error reason) :
    ∃ token ∈ tokens, ∃ before, StepMishap table before token reason := by
  induction tokens generalizing stack with
  | nil => cases failed
  | cons token rest ih =>
      rw [List.foldlM_cons] at failed
      rcases bind_eq_error.mp failed with failed | ⟨next, _, failed⟩
      · exact ⟨token, List.mem_cons_self, stack, step_mishap failed⟩
      · obtain ⟨later, member, mishap⟩ := ih failed
        exact ⟨later, List.mem_cons_of_mem token member, mishap⟩

theorem finish_eq_error {stack : List Float} {reason : EvaluationError}
    (failed : finish stack = .error reason) :
    ∃ remaining, reason = .valueCount remaining ∧ remaining ≠ 1 := by
  unfold finish at failed
  split at failed
  · cases failed
  · next several =>
      cases failed
      refine ⟨stack.length, rfl, fun single => ?_⟩
      obtain ⟨value, same⟩ := List.length_eq_one_iff.mp single
      exact several value same

theorem evaluate_mishap {tokens : List Token} {reason : EvaluationError}
    (failed : evaluate library table tokens = .error reason) :
    (∃ token ∈ tokens, ∃ before, StepMishap table before token reason) ∨
      ∃ remaining, reason = .valueCount remaining ∧ remaining ≠ 1 := by
  rcases bind_eq_error.mp failed with failed | ⟨stack, _, failed⟩
  · exact .inl (run_mishap failed)
  · exact .inr (finish_eq_error failed)

/-- The ways in which tokens in postfix order can fail that come from a conversion. -/
theorem evaluate_arranged {tokens order : List Token} {reason : EvaluationError}
    (arranged : ofInfix table tokens = .ok order)
    (failed : evaluate library table order = .error reason) :
    (∃ operation expected found, reason = .missingOperand operation expected found ∧
        expected = operation.arity ∧ found < expected) ∨
      (∃ remaining, reason = .valueCount remaining ∧ remaining ≠ 1) ∨
      ∃ found, reason = .domain found := by
  rcases evaluate_mishap failed with ⟨token, member, before, mishap⟩ | count
  · cases mishap with
    | parenthesis paren =>
        have kept := (ofInfix_keeps arranged).1.mem_iff.mp member
        simp [paren] at kept
    | @unknownOperator operation unknown =>
        have known := ofInfix_knows arranged operation member
        simp [unknown] at known
    | @missingOperand operation few =>
        exact .inl ⟨operation, operation.arity, before.length, rfl, rfl, few⟩
    | domain found => exact .inr (.inr ⟨found, rfl⟩)
  · exact .inr (.inl count)

end Postfix

namespace Calculator

variable {calculator : Calculator} {expression : String} {reason : EvaluationError}

theorem arrange_ne_evaluation : calculator.arrange expression ≠ .error (.evaluation reason) := by
  intro failed
  simp only [arrange] at failed
  split at failed
  · cases failed
  · rcases bind_eq_error.mp failed with unread | ⟨tokens, _, unordered⟩
    · obtain ⟨_, _, same⟩ := mapError_eq_error.mp unread
      cases same
    · obtain ⟨_, _, same⟩ := mapError_eq_error.mp unordered
      cases same

theorem evaluate_eq_evaluation (failed : calculator.evaluate expression = .error (.evaluation reason)) :
    ∃ order, calculator.arrange expression = .ok order ∧
      Postfix.evaluate calculator.library calculator.table order = .error reason := by
  rcases bind_eq_error.mp failed with unarranged | ⟨order, arranged, unvalued⟩
  · exact absurd unarranged arrange_ne_evaluation
  · obtain ⟨found, evaluated, same⟩ := mapError_eq_error.mp unvalued
    cases same
    exact ⟨order, arranged, evaluated⟩

theorem arrange_of_evaluation (failed : calculator.evaluate expression = .error (.evaluation reason)) :
    ∃ tokens order, Postfix.ofInfix calculator.table tokens = .ok order ∧
      Postfix.evaluate calculator.library calculator.table order = .error reason := by
  obtain ⟨order, arranged, evaluated⟩ := evaluate_eq_evaluation failed
  obtain ⟨tokens, _, ordered⟩ := arrange_eq_ok arranged
  exact ⟨tokens, order, ordered, evaluated⟩

/-- What has been converted meets no parenthesis and no unknown operator in its evaluation. On any stack,
an operator with an entry either has too few values below it or gets as many operands as it computes
with, whatever is said of other numbers of operands. So a calculator evaluates in vain only for missing
operands, for a number of values other than one, or for a value out of its domain. -/
theorem evaluate_mishaps (library : MathLibrary) (table : OperatorTable) :
    (∀ tokens order, Postfix.ofInfix table tokens = .ok order →
      Postfix.evaluate library table order ≠ .error .parenthesis ∧
        ∀ operation, Postfix.evaluate library table order ≠ .error (.unknownOperator operation)) ∧
    (∀ operation entry stack, table.entry? operation = some entry →
      entry.arity = operation.arity ∧
        (entry.arity ≤ stack.length →
          ∃ operands rest, Postfix.takeOperands entry stack = .ok (operands, rest) ∧
            operands.length = operation.arity ∧ operands.reverse ++ rest = stack ∧
            (Postfix.compute? library operation operands).isSome)) ∧
    (∀ mismatch stack operation, Postfix.step library table stack (.operator operation) =
      Postfix.stepByCount library table mismatch stack operation) ∧
    ∀ expression reason,
      (⟨table, library⟩ : Calculator).evaluate expression = .error (.evaluation reason) →
        (∃ operation expected found, reason = .missingOperand operation expected found ∧
            expected = operation.arity ∧ found < expected) ∨
          (∃ remaining, reason = .valueCount remaining ∧ remaining ≠ 1) ∨
          ∃ found, reason = .domain found := by
  refine ⟨?_, ?_, Postfix.step_eq_stepByCount, ?_⟩
  · intro tokens order arranged
    refine ⟨fun failed => ?_, fun operation failed => ?_⟩
    · simpa using Postfix.evaluate_arranged arranged failed
    · simpa using Postfix.evaluate_arranged arranged failed
  · intro operation entry stack found
    have arity := Postfix.arity_of_found found
    refine ⟨arity, fun enough => ?_⟩
    obtain ⟨operands, rest, taken, count, split⟩ := Postfix.takeOperands_of_le enough
    have fits := count.trans arity
    exact ⟨operands, rest, taken, fits, split, Postfix.isSome_compute? fits⟩
  · intro expression reason failed
    obtain ⟨tokens, order, arranged, evaluated⟩ := arrange_of_evaluation failed
    exact Postfix.evaluate_arranged arranged evaluated

end Calculator
end InfixCalculator
