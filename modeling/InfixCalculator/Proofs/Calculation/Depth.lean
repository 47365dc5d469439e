import InfixCalculator.Proofs.Calculation.Operands
import InfixCalculator.Proofs.Calculation.Positions
import InfixCalculator.Proofs.Infix
import InfixCalculator.Proofs.Postorder

namespace InfixCalculator

/-! Why an evaluation fails, by counting.

As long as no token fails, the stack holds as many values as there have been more operands than binary
operators. So the tokens tell which of them is the first to fail and why, up to the values, and how many
values are left if none fails. The conversion keeps both counts, so what a calculator says of the values
that are left can be counted in its expression (`Calculator.evaluate_failures`). -/

open Outcome

namespace Token

/-- How many more operands there are than binary operators. -/
def surplus (tokens : List Token) : Int := tokens.countP isOperand - tokens.countP isBinary

/-- The operator whose value a token puts onto the stack. -/
def producer? : Token → Option Operator
  | .operator operation => some operation
  | .number _ | .constant | .openParen | .closeParen => none

@[simp] theorem surplus_append (first second : List Token) :
    surplus (first ++ second) = surplus first + surplus second := by
  simp only [surplus, List.countP_append]
  omega

/-- Neither the order nor the parentheses count. -/
theorem surplus_of_perm {tokens order : List Token} (kept : order.Perm (tokens.filter (!·.isParen))) :
    surplus order = surplus tokens := by
  have plain {kind : Token → Bool} (solid : ∀ token, kind token = true → token.isParen = false) :
      order.countP kind = tokens.countP kind := by
    rw [kept.countP_eq, countP_filter_isParen solid]
  rw [surplus, surplus, plain fun _ => isParen_of_isOperand, plain fun _ => isParen_of_isBinary]

end Token

open Token (surplus)

theorem Term.surplus_postorder (term : Term) : surplus term.postorder = 1 := by
  rw [surplus, term.count_postorder]
  omega

theorem Term.surplus_postorders (terms : List Term) : surplus (postorders terms) = terms.length := by
  induction terms with
  | nil => rfl
  | cons term rest ih =>
      rw [postorders_cons, Token.surplus_append, ih, surplus_postorder, List.length_cons]
      omega

namespace Postfix

variable {library : MathLibrary} {table : OperatorTable} {front : List Token} {token : Token}
  {stack : List Float} {reason : EvaluationError}

/-- The tokens end with the postorder of a term that comes to this value, finite or not. -/
def EndsWithValue (library : MathLibrary) (tokens : List Token) (result : Float) : Prop :=
  ∃ before, ∃ term : Term, tokens = before ++ term.postorder ∧ term.result? library = some result

/-- The token is an operand, or an operator with an entry that finds its operands behind the front. -/
def Supplied (table : OperatorTable) (front : List Token) : Token → Prop
  | .number _ | .constant => True
  | .operator operation => (table.entry? operation).isSome ∧ operation.arity ≤ surplus front
  | .openParen | .closeParen => False

/-- How a token fails behind those in front of it. The later a check comes, the more a rule asks for. -/
inductive Fails (library : MathLibrary) (table : OperatorTable) (front : List Token) :
    Token → EvaluationError → Prop where
  | parenthesis {token : Token} (paren : token.isParen = true) :
      Fails library table front token .parenthesis
  | unknownOperator {operation : Operator} (unknown : table.entry? operation = none) :
      Fails library table front (.operator operation) (.unknownOperator operation)
  | missingOperand {operation : Operator} {found : Nat}
      (known : (table.entry? operation).isSome) (counted : surplus front = found)
      (few : found < operation.arity) :
      Fails library table front (.operator operation)
        (.missingOperand operation operation.arity found)
  | negative {x : Float} (supplied : Supplied table front (.operator .factorial))
      (operand : EndsWithValue library front x) (negative : x < 0) :
      Fails library table front (.operator .factorial) (.domain (.factorial (.negative x)))
  | fractional {x : Float} (supplied : Supplied table front (.operator .factorial))
      (operand : EndsWithValue library front x) (notNegative : ¬x < 0)
      (fractional : Binary64.isWhole x = false) :
      Fails library table front (.operator .factorial) (.domain (.factorial (.fractional x)))
  | notFinite {token : Token} {x : Float} (supplied : Supplied table front token)
      (value : EndsWithValue library (front ++ [token]) x) (infinite : x.isFinite = false) :
      Fails library table front token (.domain (.notFinite token.producer? x))

theorem EndsWithValue.unique {tokens : List Token} {x y : Float}
    (first : EndsWithValue library tokens x) (second : EndsWithValue library tokens y) : x = y := by
  obtain ⟨before, term, rfl, value⟩ := first
  obtain ⟨before', term', same, value'⟩ := second
  obtain ⟨rfl, _⟩ := Term.eq_of_append_postorder same
  exact Option.some.inj (value.symm.trans value')

theorem endsWithValue_factorial {y : Float} :
    EndsWithValue library (front ++ [.operator .factorial]) y ↔
      ∃ x, EndsWithValue library front x ∧ InfixCalculator.factorial x = .ok y := by
  constructor
  · rintro ⟨before, term, same, value⟩
    cases term with
    | factorial operand =>
        rw [Term.postorder, ← List.append_assoc] at same
        obtain ⟨rfl, _⟩ := List.append_inj' same rfl
        obtain ⟨x, operandValue, computed⟩ := Term.result?_factorial_eq_some.mp value
        exact ⟨x, ⟨before, operand, rfl, operandValue⟩, computed⟩
    | number | constant | function | binary => simp [Term.postorder, ← List.append_assoc] at same
  · rintro ⟨x, ⟨before, operand, rfl, operandValue⟩, computed⟩
    refine ⟨before, .factorial operand, by simp [Term.postorder], ?_⟩
    exact Term.result?_factorial_eq_some.mpr ⟨x, operandValue, computed⟩

theorem factorial_eq_error {x : Float} {refusal : FactorialError} :
    InfixCalculator.factorial x = .error refusal ↔
      (x < 0 ∧ refusal = .negative x) ∨
        (¬x < 0 ∧ Binary64.isWhole x = false ∧ refusal = .fractional x) := by
  unfold InfixCalculator.factorial
  by_cases negative : x < 0
  · rw [if_pos negative, Except.error.injEq]
    simp only [negative, true_and, not_true_eq_false, false_and, or_false, eq_comm]
  · rw [if_neg negative]
    by_cases fractional : Binary64.isWhole x = false
    · rw [if_pos fractional, Except.error.injEq]
      simp only [negative, fractional, false_and, not_false_eq_true, true_and, false_or, eq_comm]
    · rw [if_neg fractional]
      refine iff_of_false ?_ ?_
      · split <;> exact nofun
      · rintro (⟨below, _⟩ | ⟨_, whole, _⟩)
        · exact negative below
        · exact fractional whole

/-- What a run leaves on the stack are the values of terms whose postorders make up the tokens. -/
theorem terms_of_run (run : front.foldlM (step library table) [] = .ok stack) :
    ∃ terms, Term.Denote library terms stack ∧ Term.postorders terms = front := by
  obtain ⟨_, terms, denote, order⟩ := Term.run_denote .nil run
  exact ⟨terms, denote, order⟩

theorem surplus_of_run (run : front.foldlM (step library table) [] = .ok stack) :
    surplus front = stack.length := by
  obtain ⟨terms, denote, rfl⟩ := terms_of_run run
  rw [Term.surplus_postorders, denote.length_eq]

/-- An operand, or an operator that finds its operands, comes to a value and puts it onto the stack. Only
a factorial may refuse the value that it finds. -/
theorem step_supplied {terms : List Term} (denote : Term.Denote library terms stack)
    (supplied : Supplied table (Term.postorders terms) token) :
    (∃ x rest, EndsWithValue library (Term.postorders terms ++ [token]) x ∧
        step library table stack token = push token.producer? x rest) ∨
      (token = .operator .factorial ∧ ∃ x refusal, EndsWithValue library (Term.postorders terms) x ∧
        InfixCalculator.factorial x = .error refusal ∧
        step library table stack token = .error (.domain (.factorial refusal))) := by
  have result {term : Term} {x : Float} (valued : term.value library = .ok x) :
      term.result? library = some x := (Term.value_eq_ok_iff_result.mp valued).2
  cases token with
  | number x => exact .inl ⟨x, stack, ⟨_, .number x, rfl, rfl⟩, rfl⟩
  | constant => exact .inl ⟨circleConstant, stack, ⟨_, .constant, rfl, rfl⟩, rfl⟩
  | openParen | closeParen => exact supplied.elim
  | operator operation =>
      obtain ⟨known, enough⟩ := supplied
      obtain ⟨entry, found⟩ := Option.isSome_iff_exists.mp known
      rw [Term.surplus_postorders] at enough
      cases operation with
      | function named =>
          cases denote with
          | nil => cases enough
          | @cons argument x terms stack first denote =>
              refine .inl ⟨_, stack, ⟨Term.postorders terms, .function named argument, ?_, ?_⟩,
                step_function found x stack⟩
              · simp [Term.postorder]
              · exact Term.result?_function_eq_some.mpr ⟨x, result first, rfl⟩
      | factorial =>
          cases denote with
          | nil => cases enough
          | @cons operand x terms stack first denote =>
              have operand : EndsWithValue library (Term.postorders (operand :: terms)) x :=
                ⟨_, operand, Term.postorders_cons _ _, result first⟩
              rw [step_factorial found]
              cases computed : InfixCalculator.factorial x with
              | ok product =>
                  exact .inl ⟨product, stack, endsWithValue_factorial.mpr ⟨x, operand, computed⟩, rfl⟩
              | error refusal => exact .inr ⟨rfl, x, refusal, operand, computed, rfl⟩
      | binary sign =>
          cases denote with
          | nil => cases enough
          | @cons right y terms stack first denote =>
              cases denote with
              | nil => exact absurd (Int.ofNat_le.mp enough) (Nat.not_succ_le_self 1)
              | @cons left x terms stack second denote =>
                  refine .inl ⟨_, stack, ⟨Term.postorders terms, .binary sign left right, ?_, ?_⟩,
                    step_binary found x y stack⟩
                  · simp [Term.postorder]
                  · exact Term.result?_binary_eq_some.mpr
                      ⟨x, result second, y, result first, rfl⟩

theorem step_refused (run : front.foldlM (step library table) [] = .ok stack) {x : Float}
    {refusal : FactorialError} (supplied : Supplied table front (.operator .factorial))
    (operand : EndsWithValue library front x)
    (refused : InfixCalculator.factorial x = .error refusal) :
    step library table stack (.operator .factorial) = .error (.domain (.factorial refusal)) := by
  obtain ⟨terms, denote, rfl⟩ := terms_of_run run
  rcases step_supplied denote supplied with
    ⟨product, _, value, _⟩ | ⟨_, y, refusal', operand', refused', stepped⟩
  · obtain ⟨y, operand', computed⟩ := endsWithValue_factorial.mp value
    rw [operand'.unique operand, refused] at computed
    cases computed
  · rw [operand'.unique operand, refused, Except.error.injEq] at refused'
    rw [stepped, refused']

theorem isFinite_of_push {producer : Option Operator} {x : Float} {rest : List Float}
    (failed : push producer x rest = .error reason) :
    x.isFinite = false ∧ reason = .domain (.notFinite producer x) := by
  refine ⟨?_, push_eq_error failed⟩
  rw [push] at failed
  split at failed
  · cases failed
  · next infinite => simpa using infinite

/-- Behind tokens that have not failed, a step fails just if its token does. -/
theorem fails_iff_step (run : front.foldlM (step library table) [] = .ok stack) :
    Fails library table front token reason ↔ step library table stack token = .error reason := by
  have depth := surplus_of_run run
  constructor
  · intro fails
    cases fails with
    | parenthesis paren =>
        cases token with
        | openParen | closeParen => rfl
        | number | constant | operator => cases paren
    | unknownOperator unknown => simp only [step, unknown]
    | missingOperand known counted few =>
        obtain ⟨entry, found⟩ := Option.isSome_iff_exists.mp known
        obtain rfl := Int.ofNat_inj.mp (counted.symm.trans depth)
        simp only [step, found, apply_of_lt few]
    | negative supplied operand negative =>
        exact step_refused run supplied operand (factorial_eq_error.mpr (.inl ⟨negative, rfl⟩))
    | fractional supplied operand notNegative fractional =>
        exact step_refused run supplied operand
          (factorial_eq_error.mpr (.inr ⟨notNegative, fractional, rfl⟩))
    | notFinite supplied value infinite =>
        obtain ⟨terms, denote, rfl⟩ := terms_of_run run
        rcases step_supplied denote supplied with
          ⟨x, rest, value', stepped⟩ | ⟨rfl, x, refusal, operand, refused, _⟩
        · rw [stepped, value'.unique value, push, infinite]
          rfl
        · obtain ⟨y, operand', computed⟩ := endsWithValue_factorial.mp value
          rw [operand'.unique operand, refused] at computed
          cases computed
  · intro failed
    by_cases supplied : Supplied table front token
    · obtain ⟨terms, denote, rfl⟩ := terms_of_run run
      rcases step_supplied denote supplied with
        ⟨x, rest, value, stepped⟩ | ⟨rfl, x, refusal, operand, refused, stepped⟩
      · obtain ⟨infinite, rfl⟩ := isFinite_of_push (stepped.symm.trans failed)
        exact .notFinite supplied value infinite
      · obtain rfl := Except.error.inj (stepped.symm.trans failed)
        rcases factorial_eq_error.mp refused with ⟨negative, rfl⟩ | ⟨notNegative, fractional, rfl⟩
        · exact .negative supplied operand negative
        · exact .fractional supplied operand notNegative fractional
    · cases token with
      | number | constant => exact absurd trivial supplied
      | openParen | closeParen =>
          cases failed
          exact .parenthesis rfl
      | operator operation =>
          cases found : table.entry? operation with
          | none =>
              simp only [step, found, Except.error.injEq] at failed
              exact failed ▸ .unknownOperator found
          | some entry =>
              have known : (table.entry? operation).isSome := by rw [found]; rfl
              have few : stack.length < operation.arity := by
                refine Nat.lt_of_not_le fun enough => supplied ⟨known, ?_⟩
                rw [depth]
                exact Int.ofNat_le.mpr enough
              simp only [step, found, apply_of_lt few, Except.error.injEq] at failed
              exact failed ▸ .missingOperand known depth few

def Unfailing (library : MathLibrary) (table : OperatorTable) (tokens : List Token) : Prop :=
  ∀ index reason, ¬BrokenAt (Fails library table) tokens index reason

/-- Why tokens in postfix order have no value: the first token that fails, or else a number of values
other than one. -/
inductive Failure (library : MathLibrary) (table : OperatorTable) (tokens : List Token) :
    EvaluationError → Prop where
  | token {reason : EvaluationError} (first : First (BrokenAt (Fails library table) tokens) reason) :
      Failure library table tokens reason
  | valueCount {remaining : Nat} (unfailing : Unfailing library table tokens)
      (counted : surplus tokens = remaining) (several : remaining ≠ 1) :
      Failure library table tokens (.valueCount remaining)

variable {tokens : List Token}

theorem run_of_step (front : List Token) (token : Token) (stack next : List Float)
    (run : front.foldlM (step library table) [] = .ok stack)
    (stepped : step library table stack token = .ok next) :
    (front ++ [token]).foldlM (step library table) [] = .ok next := by
  rw [List.foldlM_append, run, ok_bind, List.foldlM_cons, stepped]
  rfl

theorem run_eq_error_iff : tokens.foldlM (step library table) [] = .error reason ↔
    First (BrokenAt (Fails library table) tokens) reason :=
  foldlM_eq_error_iff rfl run_of_step fun _ _ _ _ _ run => fails_iff_step run

theorem unfailing_iff_run :
    Unfailing library table tokens ↔ ∃ stack, tokens.foldlM (step library table) [] = .ok stack := by
  constructor
  · intro unfailing
    cases run : tokens.foldlM (step library table) [] with
    | ok stack => exact ⟨stack, rfl⟩
    | error reason =>
        obtain ⟨index, broken, _⟩ := run_eq_error_iff.mp run
        exact absurd broken (unfailing index reason)
  · rintro ⟨stack, run⟩
    have first := @foldlM_first _ _ _ (step library table) [] _ (Fails library table) tokens rfl
      run_of_step fun _ _ _ _ _ run => fails_iff_step run
    exact (first.1 stack run).2

theorem finish_of_length_ne (several : stack.length ≠ 1) :
    finish stack = .error (.valueCount stack.length) := by
  unfold finish
  split
  · exact absurd rfl several
  · rfl

theorem evaluate_eq_error_iff :
    evaluate library table tokens = .error reason ↔ Failure library table tokens reason := by
  constructor
  · intro failed
    rcases bind_eq_error.mp failed with run | ⟨stack, run, unfinished⟩
    · exact .token (run_eq_error_iff.mp run)
    · obtain ⟨remaining, rfl, several⟩ := finish_eq_error unfinished
      by_cases single : stack.length = 1
      · obtain ⟨value, rfl⟩ := List.length_eq_one_iff.mp single
        cases unfinished
      · rw [finish_of_length_ne single, Except.error.injEq, EvaluationError.valueCount.injEq] at unfinished
        exact .valueCount (unfailing_iff_run.mpr ⟨stack, run⟩) (unfinished ▸ surplus_of_run run) several
  · intro failure
    cases failure with
    | token first => exact bind_eq_error.mpr (.inl (run_eq_error_iff.mpr first))
    | valueCount unfailing counted several =>
        obtain ⟨stack, run⟩ := unfailing_iff_run.mp unfailing
        obtain rfl := Int.ofNat_inj.mp (counted.symm.trans (surplus_of_run run))
        exact bind_eq_error.mpr (.inr ⟨stack, run, finish_of_length_ne several⟩)

theorem exists_evaluate_iff : (∃ result, evaluate library table tokens = .ok result) ↔
    Unfailing library table tokens ∧ surplus tokens = 1 := by
  constructor
  · rintro ⟨result, evaluated⟩
    obtain ⟨stack, run, finished⟩ := bind_eq_ok.mp evaluated
    refine ⟨unfailing_iff_run.mpr ⟨stack, run⟩, ?_⟩
    by_cases single : stack.length = 1
    · rw [surplus_of_run run, single]
      rfl
    · rw [finish_of_length_ne single] at finished
      cases finished
  · rintro ⟨unfailing, counted⟩
    obtain ⟨stack, run⟩ := unfailing_iff_run.mp unfailing
    have single : stack.length = 1 := Int.ofNat_inj.mp ((surplus_of_run run).symm.trans counted)
    obtain ⟨result, rfl⟩ := List.length_eq_one_iff.mp single
    exact ⟨result, bind_eq_ok.mpr ⟨[result], run, rfl⟩⟩

end Postfix

namespace Calculator

variable {calculator : Calculator} {expression : String}

/-- The conversion keeps the counts of the expression. -/
theorem surplus_of_arrange {order : List Token} (arranged : calculator.arrange expression = .ok order) :
    ∃ tokens, Token.read calculator.table expression.toList = .ok tokens ∧
      surplus order = surplus tokens := by
  obtain ⟨tokens, made, ordered⟩ := arrange_eq_ok arranged
  refine ⟨tokens, ?_, Token.surplus_of_perm (Postfix.ofInfix_keeps ordered).1⟩
  rw [Token.read_trim, made]
  rfl

/-- Behind tokens that have not failed, the stack is as deep as the surplus of their operands over their
binary operators. Evaluation fails for the first token that fails by its rule, or for a surplus other
than one, and otherwise it has a value. The surplus of a calculation is that of its expression. -/
theorem evaluate_failures (library : MathLibrary) (table : OperatorTable) :
    (∀ (tokens : List Token) index stack,
      (tokens.take index).foldlM (Postfix.step library table) [] = .ok stack →
        surplus (tokens.take index) = stack.length) ∧
    (∀ tokens reason, Postfix.evaluate library table tokens = .error reason ↔
      Postfix.Failure library table tokens reason) ∧
    (∀ tokens, (∃ result, Postfix.evaluate library table tokens = .ok result) ↔
      Postfix.Unfailing library table tokens ∧ surplus tokens = 1) ∧
    (∀ expression remaining,
      (⟨table, library⟩ : Calculator).evaluate expression =
        .error (.evaluation (.valueCount remaining)) →
      ∃ tokens, Token.read table expression.toList = .ok tokens ∧ surplus tokens = remaining) ∧
    ∀ expression result, (⟨table, library⟩ : Calculator).evaluate expression = .ok result →
      ∃ tokens, Token.read table expression.toList = .ok tokens ∧ surplus tokens = 1 := by
  refine ⟨fun tokens index stack => Postfix.surplus_of_run,
    fun tokens reason => Postfix.evaluate_eq_error_iff, fun tokens => Postfix.exists_evaluate_iff, ?_, ?_⟩
  · intro expression remaining failed
    obtain ⟨order, arranged, failed⟩ := evaluate_eq_evaluation failed
    obtain ⟨tokens, made, same⟩ := surplus_of_arrange arranged
    refine ⟨tokens, made, same.symm.trans ?_⟩
    cases Postfix.evaluate_eq_error_iff.mp failed with
    | token first =>
        obtain ⟨_, ⟨_, _, fails⟩, _⟩ := first
        cases fails
    | valueCount _ counted _ => exact counted
  · intro expression result evaluated
    obtain ⟨order, arranged, valued⟩ := bind_eq_ok.mp evaluated
    obtain ⟨tokens, made, same⟩ := surplus_of_arrange arranged
    rw [value, mapError_eq_ok] at valued
    exact ⟨tokens, made, same.symm.trans (Postfix.exists_evaluate_iff.mp ⟨result, valued⟩).2⟩

end Calculator
end InfixCalculator
