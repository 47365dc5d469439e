import InfixCalculator.Postfix.Evaluation
import InfixCalculator.Proofs.Outcome
import Mathlib.Data.List.Forall2

namespace InfixCalculator

/-! What tokens in postfix order compute.

A term is the tree of operands and operators that is left of an expression without its parentheses.
Evaluation accepts the postorders of terms and nothing else (`Postfix.evaluate_eq_ok_iff`), and its
outcome is the value of the term, or the error of the first subterm that has none
(`Term.run_postorder`). -/

inductive Term where
  | number (value : Float)
  | constant
  | function (named : ElementaryFunction) (argument : Term)
  | factorial (operand : Term)
  | binary (sign : BinaryOperator) (left right : Term)

/-- The table has an entry for every operator among the tokens. -/
def OperatorTable.Knows (table : OperatorTable) (tokens : List Token) : Prop :=
  ∀ operation, .operator operation ∈ tokens → (table.entry? operation).isSome

namespace OperatorTable

variable {table : OperatorTable}

@[simp] theorem knows_nil : table.Knows [] := by
  intro operation member
  cases member

@[simp] theorem knows_append {first second : List Token} :
    table.Knows (first ++ second) ↔ table.Knows first ∧ table.Knows second := by
  constructor
  · intro known
    exact ⟨fun operation member => known operation (List.mem_append_left _ member),
      fun operation member => known operation (List.mem_append_right _ member)⟩
  · intro known operation member
    obtain ⟨knownFirst, knownSecond⟩ := known
    rcases List.mem_append.mp member with member | member
    · exact knownFirst operation member
    · exact knownSecond operation member

@[simp] theorem knows_operator {operation : Operator} {rest : List Token} :
    table.Knows (.operator operation :: rest) ↔
      (∃ entry, table.entry? operation = some entry) ∧ table.Knows rest := by
  rw [← List.singleton_append, knows_append]
  simp [Knows, Option.isSome_iff_exists]

theorem knows_cons {token : Token} {rest : List Token}
    (operand : ∀ operation, token ≠ .operator operation) :
    table.Knows (token :: rest) ↔ table.Knows rest := by
  simp only [Knows, List.mem_cons]
  constructor
  · intro known operation member
    exact known operation (.inr member)
  · intro known operation member
    rcases member with same | member
    · exact absurd same.symm (operand operation)
    · exact known operation member

end OperatorTable

namespace Term

def postorder : Term → List Token
  | .number value => [.number value]
  | .constant => [.constant]
  | .function named argument => argument.postorder ++ [.operator (.function named)]
  | .factorial operand => operand.postorder ++ [.operator .factorial]
  | .binary sign left right =>
      left.postorder ++ right.postorder ++ [.operator (.binary sign)]

def finite (producer : Option Operator) (value : Float) : Except DomainError Float :=
  if value.isFinite then .ok value else .error (.notFinite producer value)

/-- The value by recursion, left operand first, if all subterms have finite values. -/
def value (library : MathLibrary) : Term → Except DomainError Float
  | .number value => finite none value
  | .constant => finite none circleConstant
  | .function named argument => do
      let x ← argument.value library
      finite (some (.function named)) (library.function named x)
  | .factorial operand => do
      let x ← operand.value library
      let product ← (InfixCalculator.factorial x).mapError .factorial
      finite (some .factorial) product
  | .binary sign left right => do
      let x ← left.value library
      let y ← right.value library
      finite (some (.binary sign)) (library.binary sign x y)

end Term

namespace Postfix

variable {library : MathLibrary} {table : OperatorTable}

theorem push_eq (producer : Option Operator) (value : Float) (stack : List Float) :
    push producer value stack =
      ((Term.finite producer value).mapError .domain).map (· :: stack) := by
  unfold push Term.finite
  split <;> rfl

theorem step_function {named : ElementaryFunction} {entry : OperatorEntry}
    (known : table.entry? (.function named) = some entry) (x : Float) (stack : List Float) :
    step library table (x :: stack) (.operator (.function named)) =
      push (some (.function named)) (library.function named x) stack := by
  simp only [step, known, apply]

theorem step_binary {sign : BinaryOperator} {entry : OperatorEntry}
    (known : table.entry? (.binary sign) = some entry) (x y : Float) (stack : List Float) :
    step library table (y :: x :: stack) (.operator (.binary sign)) =
      push (some (.binary sign)) (library.binary sign x y) stack := by
  simp only [step, known, apply]

theorem step_factorial {entry : OperatorEntry}
    (known : table.entry? .factorial = some entry) (x : Float) (stack : List Float) :
    step library table (x :: stack) (.operator .factorial) =
      (((InfixCalculator.factorial x).mapError .factorial).mapError .domain) >>= fun product =>
        push (some .factorial) product stack := by
  simp only [step, known, apply]
  cases InfixCalculator.factorial x <;> rfl

end Postfix

namespace Term

open Outcome

variable {library : MathLibrary} {table : OperatorTable}

/-- A postorder puts the value of its term onto any stack, or fails with the term's own error. -/
theorem run_postorder {term : Term} (known : table.Knows term.postorder) (stack : List Float) :
    term.postorder.foldlM (Postfix.step library table) stack =
      ((term.value library).mapError .domain).map (· :: stack) := by
  induction term generalizing stack with
  | number value => exact Postfix.push_eq none value stack ▸ bind_pure _
  | constant => exact Postfix.push_eq none circleConstant stack ▸ bind_pure _
  | function named argument ih =>
      simp only [postorder, OperatorTable.knows_append, OperatorTable.knows_operator] at known
      obtain ⟨argumentKnown, ⟨entry, found⟩, _⟩ := known
      rw [postorder, List.foldlM_append, ih argumentKnown, value]
      cases argument.value library with
      | error reason => rfl
      | ok x => simp [Postfix.step_function found, Postfix.push_eq]
  | factorial operand ih =>
      simp only [postorder, OperatorTable.knows_append, OperatorTable.knows_operator] at known
      obtain ⟨operandKnown, ⟨entry, found⟩, _⟩ := known
      rw [postorder, List.foldlM_append, ih operandKnown, value]
      cases operand.value library with
      | error reason => rfl
      | ok x =>
          simp only [mapError_ok, map_ok, ok_bind, List.foldlM_cons, List.foldlM_nil, bind_pure,
            Postfix.step_factorial found]
          cases InfixCalculator.factorial x with
          | error reason => rfl
          | ok product => simp [Postfix.push_eq]
  | binary sign left right leftIH rightIH =>
      simp only [postorder, OperatorTable.knows_append, OperatorTable.knows_operator] at known
      obtain ⟨⟨leftKnown, rightKnown⟩, ⟨entry, found⟩, _⟩ := known
      rw [postorder, List.foldlM_append, List.foldlM_append, leftIH leftKnown, value]
      cases left.value library with
      | error reason => rfl
      | ok x =>
          simp only [mapError_ok, map_ok, ok_bind, rightIH rightKnown]
          cases right.value library with
          | error reason => rfl
          | ok y => simp [Postfix.step_binary found, Postfix.push_eq]

theorem finite_eq_ok {producer : Option Operator} {value result : Float} :
    finite producer value = .ok result ↔ value.isFinite = true ∧ value = result := by
  unfold finite
  split <;> simp_all

theorem value_isFinite {term : Term} {result : Float} (valued : term.value library = .ok result) :
    result.isFinite = true := by
  cases term with
  | number value =>
      obtain ⟨isFinite, rfl⟩ := finite_eq_ok.mp valued
      exact isFinite
  | constant =>
      obtain ⟨isFinite, rfl⟩ := finite_eq_ok.mp valued
      exact isFinite
  | function named argument =>
      obtain ⟨x, _, last⟩ := bind_eq_ok.mp valued
      obtain ⟨isFinite, rfl⟩ := finite_eq_ok.mp last
      exact isFinite
  | factorial operand =>
      obtain ⟨x, _, rest⟩ := bind_eq_ok.mp valued
      obtain ⟨product, _, last⟩ := bind_eq_ok.mp rest
      obtain ⟨isFinite, rfl⟩ := finite_eq_ok.mp last
      exact isFinite
  | binary sign left right =>
      obtain ⟨x, _, rest⟩ := bind_eq_ok.mp valued
      obtain ⟨y, _, last⟩ := bind_eq_ok.mp rest
      obtain ⟨isFinite, rfl⟩ := finite_eq_ok.mp last
      exact isFinite

/-- The values on a stack are those of terms, the latest first. -/
def Denote (library : MathLibrary) : List Term → List Float → Prop :=
  List.Forall₂ fun term result => term.value library = .ok result

def postorders (terms : List Term) : List Token := terms.reverse.flatMap postorder

@[simp] theorem postorders_cons (term : Term) (terms : List Term) :
    postorders (term :: terms) = postorders terms ++ term.postorder := by
  simp [postorders]

theorem push_eq_ok {producer : Option Operator} {value : Float} {stack after : List Float}
    (pushed : Postfix.push producer value stack = .ok after) :
    finite producer value = .ok value ∧ after = value :: stack := by
  unfold Postfix.push at pushed
  split at pushed
  · next isFinite =>
      cases pushed
      exact ⟨finite_eq_ok.mpr ⟨isFinite, rfl⟩, rfl⟩
  · contradiction

/-- A step that succeeds makes one term of those that the stack stands for. -/
theorem step_denote {terms : List Term} {stack after : List Float} {token : Token}
    (denote : Denote library terms stack)
    (stepped : Postfix.step library table stack token = .ok after) :
    table.Knows [token] ∧ ∃ terms', Denote library terms' after ∧
      postorders terms' = postorders terms ++ [token] := by
  cases token with
  | number value =>
      obtain ⟨valued, rfl⟩ := push_eq_ok stepped
      exact ⟨by simp [OperatorTable.knows_cons], .number value :: terms, .cons valued denote,
        by simp [postorder]⟩
  | constant =>
      obtain ⟨valued, rfl⟩ := push_eq_ok stepped
      exact ⟨by simp [OperatorTable.knows_cons], .constant :: terms, .cons valued denote,
        by simp [postorder]⟩
  | openParen => cases stepped
  | closeParen => cases stepped
  | operator operation =>
      cases found : table.entry? operation with
      | none => simp [Postfix.step, found] at stepped
      | some entry =>
          refine ⟨by simp [found], ?_⟩
          cases operation with
          | function named =>
              cases denote with
              | nil => simp [Postfix.step, found, Postfix.apply] at stepped
              | @cons argument x terms stack first denote =>
                  rw [Postfix.step_function found] at stepped
                  obtain ⟨valued, rfl⟩ := push_eq_ok stepped
                  exact ⟨.function named argument :: terms,
                    .cons (by simp only [value, first, ok_bind, valued]) denote,
                    by simp [postorder]⟩
          | factorial =>
              cases denote with
              | nil => simp [Postfix.step, found, Postfix.apply] at stepped
              | @cons operand x terms stack first denote =>
                  rw [Postfix.step_factorial found] at stepped
                  obtain ⟨product, computed, pushed⟩ := bind_eq_ok.mp stepped
                  obtain ⟨valued, rfl⟩ := push_eq_ok pushed
                  rw [mapError_eq_ok] at computed
                  exact ⟨.factorial operand :: terms,
                    .cons (by simp only [value, first, computed, ok_bind, valued]) denote,
                    by simp [postorder]⟩
          | binary sign =>
              cases denote with
              | nil => simp [Postfix.step, found, Postfix.apply] at stepped
              | @cons right y terms stack first denote =>
                  cases denote with
                  | nil => simp [Postfix.step, found, Postfix.apply] at stepped
                  | @cons left x terms stack second denote =>
                      rw [Postfix.step_binary found] at stepped
                      obtain ⟨valued, rfl⟩ := push_eq_ok stepped
                      exact ⟨.binary sign left right :: terms,
                        .cons (by simp only [value, first, second, ok_bind, valued]) denote,
                        by simp [postorder]⟩

theorem run_denote {tokens : List Token} {terms : List Term} {stack after : List Float}
    (denote : Denote library terms stack)
    (run : tokens.foldlM (Postfix.step library table) stack = .ok after) :
    table.Knows tokens ∧ ∃ terms', Denote library terms' after ∧
      postorders terms' = postorders terms ++ tokens := by
  induction tokens generalizing terms stack with
  | nil =>
      cases run
      exact ⟨OperatorTable.knows_nil, terms, denote, (List.append_nil _).symm⟩
  | cons token rest ih =>
      obtain ⟨middle, stepped, run⟩ := foldlM_cons_eq_ok.mp run
      obtain ⟨tokenKnown, middleTerms, middleDenote, middleOrder⟩ := step_denote denote stepped
      obtain ⟨restKnown, terms', finalDenote, finalOrder⟩ := ih middleDenote run
      refine ⟨?_, terms', finalDenote, by simp [finalOrder, middleOrder]⟩
      rw [← List.singleton_append, OperatorTable.knows_append]
      exact ⟨tokenKnown, restKnown⟩

end Term

/-- Evaluation accepts exactly the postorders of terms, with the values of the terms. -/
theorem Postfix.evaluate_eq_ok_iff {library : MathLibrary} {table : OperatorTable}
    {tokens : List Token} {result : Float} :
    Postfix.evaluate library table tokens = .ok result ↔
      table.Knows tokens ∧ ∃ term : Term, term.postorder = tokens ∧
        term.value library = .ok result := by
  constructor
  · intro evaluated
    obtain ⟨stack, run, finished⟩ := Outcome.bind_eq_ok.mp evaluated
    obtain ⟨known, terms, denote, order⟩ := Term.run_denote .nil run
    refine ⟨known, ?_⟩
    cases denote with
    | nil => cases finished
    | cons first rest =>
        cases rest with
        | nil =>
            cases finished
            exact ⟨_, by simpa [Term.postorders] using order, first⟩
        | cons => cases finished
  · intro denoted
    obtain ⟨known, term, rfl, valued⟩ := denoted
    rw [Postfix.evaluate, Term.run_postorder known, valued]
    rfl

end InfixCalculator
