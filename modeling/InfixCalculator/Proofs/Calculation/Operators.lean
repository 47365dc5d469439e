import InfixCalculator.Calculator
import InfixCalculator.Proofs.Conversion.Faults
import InfixCalculator.Proofs.Lexing

namespace InfixCalculator

/-! Operators without an entry.

The symbol of an operator is read by its entry, but a minus behind an operand subtracts whether or not
the table has subtraction. So subtraction is the one operator that the conversion can find missing, and
it does just where the table lacks it (`Calculator.known_iff_subtract`). -/

open Outcome

variable {table : OperatorTable}

theorem Reading.known_of_resolve {lexeme : Lexeme} {position : Nat} {operation : Operator}
    (resolved : resolve table position lexeme = .ok (.operator operation))
    (other : operation ≠ .binary .subtract) : (table.entry? operation).isSome = true := by
  cases lexeme with
  | numeral | constant | openParen | closeParen => cases resolved
  | minus =>
      cases resolved
      exact absurd rfl other
  | symbol character =>
      obtain ⟨entry, found, same⟩ := resolve_symbol_eq_ok resolved
      have spelled : operation.symbol = character := by
        rw [Token.operator.inj same]
        exact OperatorTable.lookup?_symbol found
      rw [← OperatorTable.lookup?_symbol_eq, spelled, found]
      rfl
  | stray character => exact absurd resolved resolve_stray_ne_ok

theorem Reads.known {afterOperand : Bool} {lexemes : List Lexeme} {tokens : List Token}
    (reads : Reads table afterOperand lexemes tokens) {operation : Operator}
    (member : .operator operation ∈ tokens) (other : operation ≠ .binary .subtract) :
    (table.entry? operation).isSome = true := by
  induction reads with
  | done => cases member
  | token resolved subtracts more ih =>
      rcases List.mem_cons.mp member with rfl | member
      · exact Reading.known_of_resolve resolved other
      · exact ih member
  | @signed lexeme token number rest tokens resolved negated more ih =>
      rcases List.mem_cons.mp member with rfl | member
      · cases token <;> cases negated
      · exact ih member

theorem Token.knows_of_read {text : List Char} {tokens : List Token}
    (subtracts : (table.entry? (.binary .subtract)).isSome = true)
    (made : Token.read table text = .ok tokens) : table.Knows tokens := by
  intro operation member
  by_cases minus : operation = .binary .subtract
  · rw [minus]
    exact subtracts
  · exact (Token.read_eq_ok_iff.mp made).known member minus

theorem Postfix.lacks_of_unknownOperator {tokens : List Token} {operation : Operator}
    {index : Nat} (failed : ofInfix table tokens = .error (.unknownOperator operation index)) :
    .operator operation ∈ tokens ∧ table.entry? operation = none := by
  cases blames_of_ofInfix failed with
  | fault first =>
      obtain ⟨_, fault, _⟩ := first
      cases fault with
      | unknownOperator here unknown => exact ⟨List.mem_of_getElem? here, unknown⟩

/-- A minus between two operands is read without regard to the table. -/
theorem Token.read_difference (table : OperatorTable) : Token.read table ['p', '-', 'p'] =
    .ok [.constant, .operator (.binary .subtract), .constant] := by
  have visible : Text.visible ['p', '-', 'p'] = ['p', '-', 'p'] := rfl
  rw [Token.read_eq_ok_iff, visible]
  refine ReadAs.constant ['-', 'p'] _ (endsNumeral_symbol (.binary .subtract) _) ?_
  refine .operator (.binary .subtract) (fun other => absurd rfl other) (fun _ => rfl) ?_
  refine ReadAs.constant [] [] endsNumeral_nil ?_
  rw [Lexeme.cut]
  exact .done

namespace Calculator

variable {calculator : Calculator} {expression : String} {reason : ConversionError}

theorem arrange_eq_conversion (failed : calculator.arrange expression = .error (.conversion reason)) :
    ∃ tokens, Token.read calculator.table (Text.trim expression.toList) = .ok tokens ∧
      Postfix.ofInfix calculator.table tokens = .error reason := by
  simp only [arrange] at failed
  split at failed
  · cases failed
  · rcases bind_eq_error.mp failed with unread | ⟨tokens, made, unarranged⟩
    · obtain ⟨found, _, same⟩ := mapError_eq_error.mp unread
      cases same
    · obtain ⟨found, arranged, same⟩ := mapError_eq_error.mp unarranged
      cases same
      exact ⟨tokens, (mapError_eq_ok _).mp made, arranged⟩

theorem arrange_eq_ok {order : List Token} (arranged : calculator.arrange expression = .ok order) :
    ∃ tokens, Token.read calculator.table (Text.trim expression.toList) = .ok tokens ∧
      Postfix.ofInfix calculator.table tokens = .ok order := by
  simp only [arrange] at arranged
  split at arranged
  · cases arranged
  · obtain ⟨tokens, made, arranged⟩ := bind_eq_ok.mp arranged
    rw [mapError_eq_ok] at made arranged
    exact ⟨tokens, made, arranged⟩

theorem arrange_of_evaluate (failed : calculator.evaluate expression = .error (.conversion reason)) :
    calculator.arrange expression = .error (.conversion reason) := by
  rcases bind_eq_error.mp failed with unarranged | ⟨order, _, unvalued⟩
  · exact unarranged
  · obtain ⟨found, _, same⟩ := mapError_eq_error.mp unvalued
    cases same

/-- Of the operators that are read, the table can lack subtraction only. All of them are known, and no
conversion fails for one that is not, just if it has subtraction. -/
theorem known_iff_subtract (calculator : Calculator) :
    (∀ text tokens, Token.read calculator.table text = .ok tokens →
      ∀ operation, .operator operation ∈ tokens → operation ≠ .binary .subtract →
        (calculator.table.entry? operation).isSome = true) ∧
    ((calculator.table.entry? (.binary .subtract)).isSome = true ↔
      (∀ text tokens, Token.read calculator.table text = .ok tokens →
        calculator.table.Knows tokens) ∧
      ∀ expression operation index,
        calculator.arrange expression ≠ .error (.conversion (.unknownOperator operation index)) ∧
        calculator.evaluate expression ≠
          .error (.conversion (.unknownOperator operation index))) := by
  refine ⟨fun text tokens made operation member other =>
    (Token.read_eq_ok_iff.mp made).known member other, ?_, ?_⟩
  · intro subtracts
    refine ⟨fun text tokens made => Token.knows_of_read subtracts made, ?_⟩
    intro expression operation index
    have arranges : calculator.arrange expression ≠
        .error (.conversion (.unknownOperator operation index)) := by
      intro failed
      obtain ⟨tokens, made, failed⟩ := arrange_eq_conversion failed
      obtain ⟨member, unknown⟩ := Postfix.lacks_of_unknownOperator failed
      have known := Token.knows_of_read subtracts made operation member
      simp [unknown] at known
    exact ⟨arranges, fun failed => arranges (arrange_of_evaluate failed)⟩
  · rintro ⟨known, _⟩
    exact known _ _ (Token.read_difference calculator.table) _ (by simp)

/-- Without subtraction, `1-2` is read nevertheless, and it fails later. -/
theorem read_unknown_subtract :
    let table := OperatorTable.ofList (OperatorTable.standardEntries.filter (·.symbol != '-'))
    let tokens : List Token := [.number 1, .operator (.binary .subtract), .number 2]
    Token.read table "1-2".toList = .ok tokens ∧ ¬table.Knows tokens ∧
      (⟨table, .native⟩ : Calculator).evaluate "1-2" =
        .error (.conversion (.unknownOperator (.binary .subtract) 1)) := by
  intro table tokens
  refine ⟨by decide +kernel, fun known => ?_, by decide +kernel⟩
  have unknown : table.entry? (.binary .subtract) = none := by decide +kernel
  simpa [unknown] using known (.binary .subtract) (by simp [tokens])

end Calculator
end InfixCalculator
