import InfixCalculator.Calculator
import InfixCalculator.Proofs.Conversion.Contents
import InfixCalculator.Proofs.Reading

namespace InfixCalculator

/-! What a calculation depends on.

Up to the places in errors, that is the characters that are not blank (`evaluate_unplaced`). -/

open Outcome

def CalculationError.unplaced : CalculationError → CalculationError
  | .emptyExpression => .emptyExpression
  | .reading reason => .reading reason.unplaced
  | .conversion reason => .conversion reason.unplaced
  | .evaluation reason => .evaluation reason

theorem CalculationError.unplaced_eq_evaluation {error : CalculationError}
    {reason : EvaluationError} :
    error.unplaced = .evaluation reason ↔ error = .evaluation reason := by
  cases error <;> simp [unplaced]

theorem Term.postorder_ne_nil (term : Term) : term.postorder ≠ [] := by
  cases term <;> simp [postorder]

namespace Calculator

variable {calculator : Calculator}

def ofTokens (calculator : Calculator) (tokens : List Token) : Except CalculationError Float := do
  let order ← ((Postfix.ofInfix calculator.table tokens).mapError .unplaced).mapError .conversion
  calculator.value order

/-- The value of characters that are not blank, with errors that have no place. -/
def ofVisible (calculator : Calculator) (visible : List Char) : Except CalculationError Float :=
  if visible.isEmpty then .error .emptyExpression
  else do
    let tokens ← (Token.ofLexemes calculator.table (Lexeme.cut visible)).mapError .reading
    calculator.ofTokens tokens

theorem ofVisible_of_reads {visible : List Char} {tokens : List Token}
    (reads : Reads calculator.table false (Lexeme.cut visible) tokens) (nonempty : tokens ≠ []) :
    calculator.ofVisible visible = calculator.ofTokens tokens := by
  have something : ¬visible.isEmpty := by
    intro nothing
    rw [List.isEmpty_iff.mp nothing, Lexeme.cut] at reads
    cases reads
    exact nonempty rfl
  rw [ofVisible, if_neg something, Token.ofLexemes_eq_ok_iff.mpr reads, mapError_ok, ok_bind]

theorem value_unplaced (tokens : List Token) :
    (calculator.value tokens).mapError .unplaced = calculator.value tokens := by
  rw [value, mapError_mapError]
  rfl

theorem evaluate_unplaced (calculator : Calculator) (text : String) :
    (calculator.evaluate text).mapError .unplaced =
      calculator.ofVisible (Text.visible text.toList) := by
  have blank : (Text.trim text.toList).isEmpty = (Text.visible text.toList).isEmpty := by
    rw [Bool.eq_iff_iff, List.isEmpty_iff, List.isEmpty_iff, Text.trim_eq_nil]
  simp only [evaluate, arrange, ofVisible, blank]
  split
  · rfl
  · rw [← Text.visible_trim, ← Token.read_unplaced, mapError_mapError]
    cases Token.read calculator.table (Text.trim text.toList) with
    | error reason => rfl
    | ok tokens =>
        simp only [mapError_ok, ok_bind, ofTokens, mapError_mapError]
        cases Postfix.ofInfix calculator.table tokens with
        | error reason => rfl
        | ok order => exact value_unplaced order

theorem evaluate_of_unplaced {text : String} {outcome : Except EvaluationError Float}
    (same : (calculator.evaluate text).mapError CalculationError.unplaced =
      outcome.mapError CalculationError.evaluation) :
    calculator.evaluate text = outcome.mapError .evaluation := by
  cases outcome with
  | ok result => exact (mapError_eq_ok _).mp same
  | error reason =>
      cases evaluated : calculator.evaluate text with
      | ok result =>
          rw [evaluated] at same
          cases same
      | error found =>
          rw [evaluated, mapError_error, mapError_error, Except.error.injEq] at same
          rw [CalculationError.unplaced_eq_evaluation.mp same]
          rfl

theorem value_eq_ok_iff {tokens : List Token} {result : Float} :
    calculator.value tokens = .ok result ↔ calculator.table.Knows tokens ∧
      ∃ term : Term, term.postorder = tokens ∧ term.value calculator.library = .ok result := by
  rw [value, mapError_eq_ok, Postfix.evaluate_eq_ok_iff]

/-- The characters make tokens, the postfix order of these is that of a term, and the term has this
value. -/
def Denotes (calculator : Calculator) (visible : List Char) (result : Float) : Prop :=
  ∃ tokens, ∃ term : Term, Reads calculator.table false (Lexeme.cut visible) tokens ∧
    Postfix.ofInfix calculator.table tokens = .ok term.postorder ∧
    term.value calculator.library = .ok result

theorem ofVisible_eq_ok_iff {visible : List Char} {result : Float} :
    calculator.ofVisible visible = .ok result ↔ calculator.Denotes visible result := by
  constructor
  · intro evaluated
    rw [ofVisible] at evaluated
    split at evaluated
    · contradiction
    · obtain ⟨tokens, made, evaluated⟩ := bind_eq_ok.mp evaluated
      obtain ⟨order, arranged, evaluated⟩ := bind_eq_ok.mp evaluated
      rw [mapError_eq_ok, Token.ofLexemes_eq_ok_iff] at made
      rw [mapError_eq_ok, mapError_eq_ok] at arranged
      obtain ⟨_, term, rfl, valued⟩ := value_eq_ok_iff.mp evaluated
      exact ⟨tokens, term, made, arranged, valued⟩
  · intro denotes
    obtain ⟨tokens, term, reads, arranged, valued⟩ := denotes
    have nonempty : tokens ≠ [] := by
      intro empty
      subst empty
      exact term.postorder_ne_nil (Except.ok.inj arranged).symm
    rw [ofVisible_of_reads reads nonempty, ofTokens, arranged]
    exact value_eq_ok_iff.mpr ⟨Postfix.ofInfix_knows arranged, term, rfl, valued⟩

theorem evaluate_eq_ok_iff {text : String} {result : Float} :
    calculator.evaluate text = .ok result ↔
      calculator.Denotes (Text.visible text.toList) result := by
  rw [← mapError_eq_ok CalculationError.unplaced, evaluate_unplaced, ofVisible_eq_ok_iff]

theorem ofTokens_of_bound {tokens : List Token} {tree : Expression}
    (known : calculator.table.Knows tokens) (spells : tree.Spells tokens)
    (bound : tree.Bound calculator.table) :
    calculator.ofTokens tokens =
      ((tree.term.value calculator.library).mapError .domain).mapError .evaluation := by
  have order := Postfix.ofInfix_of_read known (Assembly.read_of_bound spells bound)
  have knownOrder : calculator.table.Knows tree.term.postorder := by
    rwa [Expression.knows_postorder_term, spells.2]
  rw [ofTokens, order, mapError_ok, mapError_ok, ok_bind, value, Postfix.evaluate,
    Term.run_postorder knownOrder]
  cases tree.term.value calculator.library <;> rfl

end Calculator
end InfixCalculator
