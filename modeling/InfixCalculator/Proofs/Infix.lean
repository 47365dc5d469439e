import InfixCalculator.Proofs.Calculation
import InfixCalculator.Proofs.Lexing

namespace InfixCalculator

/-! Infix notation, and what passes for it.

In infix notation operands and binary operators alternate. The conversion does not check this: a text
that breaks it is taken if what is missing evens out, an operand for every operator
(`Calculator.evaluate_of_malformed`). -/

inductive Phrase where
  | operand | expression

/-- The texts in infix notation, whatever the precedences. -/
inductive Infix : Phrase → List Char → Prop where
  | number {s : List Char} (numeral : IsNumeral s) : Infix .operand s
  | negative {s : List Char} (numeral : IsNumeral s) : Infix .operand ('-' :: s)
  | constant : Infix .operand ['p']
  | negativeConstant : Infix .operand ['-', 'p']
  | group {s : List Char} (inner : Infix .expression s) : Infix .operand ('(' :: s ++ [')'])
  | function {s : List Char} (named : ElementaryFunction) (argument : Infix .operand s) :
      Infix .operand (named.symbol :: s)
  | factorial {s : List Char} (operand : Infix .operand s) : Infix .operand (s ++ ['!'])
  | single {s : List Char} (only : Infix .operand s) : Infix .expression s
  | chain {s t : List Char} (first : Infix .expression s) (sign : BinaryOperator)
      (last : Infix .operand t) : Infix .expression (s ++ sign.symbol :: t)

theorem Infix.last_ne_add {phrase : Phrase} {s : List Char} (derived : Infix phrase s) :
    ∃ first last, s = first ++ [last] ∧ last ≠ '+' := by
  have ends {s : List Char} (numeral : IsNumeral s) :
      ∃ first last, s = first ++ [last] ∧ last ≠ '+' := by
    refine ⟨s.dropLast, s.getLast numeral.ne_nil, (List.dropLast_append_getLast _).symm, ?_⟩
    have last := numeral.isDigit_or_point (List.getLast_mem numeral.ne_nil)
    intro add
    rw [add] at last
    exact absurd last (by decide)
  induction derived with
  | number numeral => exact ends numeral
  | negative numeral =>
      obtain ⟨first, last, rfl, ne⟩ := ends numeral
      exact ⟨'-' :: first, last, rfl, ne⟩
  | constant => exact ⟨[], 'p', rfl, by decide⟩
  | negativeConstant => exact ⟨['-'], 'p', rfl, by decide⟩
  | @group s inner _ => exact ⟨'(' :: s, ')', rfl, by decide⟩
  | function named argument ih =>
      obtain ⟨first, last, rfl, ne⟩ := ih
      exact ⟨named.symbol :: first, last, rfl, ne⟩
  | @factorial s operand _ => exact ⟨s, '!', rfl, by decide⟩
  | single only ih => exact ih
  | @chain s t first sign last _ ih =>
      obtain ⟨middle, end', rfl, ne⟩ := ih
      exact ⟨s ++ sign.symbol :: middle, end', by simp, ne⟩

theorem not_infix_append_add (phrase : Phrase) (s : List Char) : ¬Infix phrase (s ++ ['+']) := by
  intro derived
  obtain ⟨first, last, same, ne⟩ := derived.last_ne_add
  obtain ⟨_, lastSame⟩ := List.append_inj' same rfl
  cases lastSame
  exact ne rfl

namespace Token

/-- Whether an operand begins with the token. -/
def beginsOperand : Token → Bool
  | .number _ | .constant | .openParen | .operator (.function _) => true
  | .closeParen | .operator _ => false

def isOperand : Token → Bool
  | .number _ | .constant => true
  | .openParen | .closeParen | .operator _ => false

def isBinary : Token → Bool
  | .operator (.binary _) => true
  | .number _ | .constant | .openParen | .closeParen | .operator _ => false

/-- The places where an operand begins right behind another one. -/
def missingOperators : Bool → List Token → Nat
  | _, [] => 0
  | afterOperand, token :: rest =>
      (afterOperand && token.beginsOperand).toNat + missingOperators token.completesOperand rest

/-- The places where an operand ought to have ended and has not. -/
def missingOperands : Bool → List Token → Nat
  | afterOperand, [] => (!afterOperand).toNat
  | afterOperand, token :: rest =>
      (!afterOperand && !token.beginsOperand).toNat + missingOperands token.completesOperand rest

theorem count_missing (afterOperand : Bool) (tokens : List Token) :
    tokens.countP isOperand + missingOperands afterOperand tokens + afterOperand.toNat =
      tokens.countP isBinary + missingOperators afterOperand tokens + 1 := by
  induction tokens generalizing afterOperand with
  | nil => cases afterOperand <;> rfl
  | cons token rest ih =>
      have later := ih token.completesOperand
      simp only [List.countP_cons, missingOperands, missingOperators]
      cases token with
      | operator operation =>
          cases operation <;> cases afterOperand <;>
            simp_all [isOperand, isBinary, beginsOperand, completesOperand] <;> omega
      | number | constant | openParen | closeParen =>
          cases afterOperand <;>
            simp_all [isOperand, isBinary, beginsOperand, completesOperand] <;> omega

theorem isParen_of_isOperand {token : Token} (operand : token.isOperand = true) :
    token.isParen = false := by
  cases token with
  | number | constant => rfl
  | operator | openParen | closeParen => cases operand

theorem isParen_of_isBinary {token : Token} (binary : token.isBinary = true) :
    token.isParen = false := by
  cases token with
  | operator => rfl
  | number | constant | openParen | closeParen => cases binary

theorem countP_filter_isParen {tokens : List Token} {kind : Token → Bool}
    (solid : ∀ token, kind token = true → token.isParen = false) :
    (tokens.filter (!·.isParen)).countP kind = tokens.countP kind := by
  rw [List.countP_filter]
  refine List.countP_congr fun token _ => ?_
  simpa using solid token

end Token

theorem Term.count_postorder (term : Term) :
    term.postorder.countP Token.isOperand = term.postorder.countP Token.isBinary + 1 := by
  induction term with
  | number | constant => rfl
  | function _ argument ih | factorial argument ih =>
      simp [postorder, Token.isOperand, Token.isBinary, ih]
  | binary sign left right leftIH rightIH =>
      simp [postorder, Token.isOperand, Token.isBinary, leftIH, rightIH]
      omega

/-- What is missing evens out in tokens that have the postorder of a term. -/
theorem Token.missing_eq {table : OperatorTable} {tokens : List Token} {term : Term}
    (arranged : Postfix.ofInfix table tokens = .ok term.postorder) :
    missingOperators false tokens = missingOperands false tokens := by
  obtain ⟨kept, _⟩ := Postfix.ofInfix_keeps arranged
  have count := count_missing false tokens
  have operands : tokens.countP isOperand = term.postorder.countP isOperand := by
    rw [kept.countP_eq, countP_filter_isParen fun _ => isParen_of_isOperand]
  have binaries : tokens.countP isBinary = term.postorder.countP isBinary := by
    rw [kept.countP_eq, countP_filter_isParen fun _ => isParen_of_isBinary]
  rw [operands, binaries, term.count_postorder, Bool.toNat_false] at count
  omega

/-- The text before an operand that makes an expression with it. -/
def Awaits (s : List Char) : Prop := ∀ t, Infix .operand t → Infix .expression (s ++ t)

/-- The beginning of an expression up to an operator, or to the end of an operand. -/
def Begins : Bool → List Char → Prop
  | false, s => Awaits s
  | true, s => ∃ before operand, s = before ++ operand ∧ Awaits before ∧ Infix .operand operand

namespace Begins

variable {s t : List Char}

theorem nil : Begins false [] := fun _ operand => .single operand

theorem operand (begins : Begins false s) (operand : Infix .operand t) : Begins true (s ++ t) :=
  ⟨s, t, rfl, begins, operand⟩

theorem expression (begins : Begins true s) : Infix .expression s := by
  obtain ⟨before, operand, rfl, awaits, derived⟩ := begins
  exact awaits operand derived

theorem function (begins : Begins false s) (named : ElementaryFunction) :
    Begins false (s ++ [named.symbol]) := by
  intro t operand
  rw [List.append_assoc]
  exact begins _ (.function named operand)

theorem binary (begins : Begins true s) (sign : BinaryOperator) :
    Begins false (s ++ [sign.symbol]) := by
  intro t operand
  rw [List.append_assoc]
  exact .chain begins.expression sign operand

theorem factorial (begins : Begins true s) : Begins true (s ++ ['!']) := by
  obtain ⟨before, operand, rfl, awaits, derived⟩ := begins
  exact ⟨before, operand ++ ['!'], List.append_assoc .., awaits, .factorial derived⟩

theorem group (outer : Begins false s) (inner : Begins true t) :
    Begins true (s ++ ('(' :: t ++ [')'])) :=
  outer.operand (.group inner.expression)

end Begins

/-- Puts a text into groups that are open, the innermost first, each with what stands before it. -/
def enclosed : List (List Char) → List Char → List Char
  | [], s => s
  | outer :: rest, s => enclosed rest (outer ++ '(' :: s)

structure Begun (afterOperand : Bool) (outer : List (List Char)) (s : List Char) : Prop where
  awaiting : ∀ before ∈ outer, Awaits before
  begins : Begins afterOperand s

namespace Begun

variable {table : OperatorTable} {lexeme : Lexeme} {outer : List (List Char)} {s : List Char}

theorem operator {operation : Operator}
    (begun : Begun (!(Token.operator operation).beginsOperand) outer s) :
    Begun (Token.operator operation).completesOperand outer (s ++ [operation.symbol]) := by
  obtain ⟨awaiting, begins⟩ := begun
  cases operation with
  | function named => exact ⟨awaiting, begins.function named⟩
  | binary sign => exact ⟨awaiting, begins.binary sign⟩
  | factorial => exact ⟨awaiting, begins.factorial⟩

theorem resolved {token : Token} {depth : Nat}
    (begun : Begun (!token.beginsOperand) outer s)
    (valid : lexeme.Valid)
    (resolved : Reading.resolve table 0 lexeme = .ok token)
    (nested : token.nest outer.length = some depth) :
    ∃ outer' s', outer'.length = depth ∧ Begun token.completesOperand outer' s' ∧
      ∀ more, enclosed outer (s ++ (lexeme.spelling ++ more)) = enclosed outer' (s' ++ more) := by
  cases lexeme with
  | numeral spelling =>
      cases resolved
      exact ⟨outer, s ++ spelling, Option.some.inj nested,
        ⟨begun.awaiting, begun.begins.operand (.number valid)⟩,
        fun more => by rw [List.append_assoc]; rfl⟩
  | constant =>
      cases resolved
      exact ⟨outer, s ++ ['p'], Option.some.inj nested,
        ⟨begun.awaiting, begun.begins.operand .constant⟩,
        fun more => by rw [List.append_assoc]; rfl⟩
  | minus =>
      cases resolved
      exact ⟨outer, s ++ ['-'], Option.some.inj nested, begun.operator,
        fun more => by rw [List.append_assoc]; rfl⟩
  | openParen =>
      cases resolved
      refine ⟨s :: outer, [], Option.some.inj nested, ⟨?_, .nil⟩, fun more => rfl⟩
      rw [List.forall_mem_cons]
      exact ⟨begun.begins, begun.awaiting⟩
  | closeParen =>
      cases resolved
      cases outer with
      | nil => cases nested
      | cons before outer =>
          obtain ⟨awaiting, begins⟩ := begun
          rw [List.forall_mem_cons] at awaiting
          exact ⟨outer, before ++ ('(' :: s ++ [')']), Option.some.inj nested,
            ⟨awaiting.2, .group awaiting.1 begins⟩, fun more => by simp [enclosed, Lexeme.spelling]⟩
  | symbol character =>
      obtain ⟨entry, found, rfl⟩ := Reading.resolve_symbol_eq_ok resolved
      obtain rfl : entry.operator.symbol = character := OperatorTable.lookup?_symbol found
      exact ⟨outer, s ++ [entry.operator.symbol], Option.some.inj nested, begun.operator,
        fun more => by rw [List.append_assoc]; rfl⟩
  | stray character => exact absurd resolved Reading.resolve_stray_ne_ok

theorem signed {token number : Token} (begun : Begun false outer s)
    (valid : lexeme.Valid)
    (resolved : Reading.resolve table 0 lexeme = .ok token)
    (negated : token.negated? = some number) :
    Begun true outer (s ++ '-' :: lexeme.spelling) := by
  refine ⟨begun.awaiting, begun.begins.operand ?_⟩
  cases lexeme with
  | numeral spelling => exact .negative valid
  | constant => exact .negativeConstant
  | minus | openParen | closeParen =>
      cases resolved
      cases negated
  | symbol character =>
      obtain ⟨entry, found, rfl⟩ := Reading.resolve_symbol_eq_ok resolved
      cases negated
  | stray character => exact absurd resolved Reading.resolve_stray_ne_ok

end Begun

/-- A text is in infix notation if nothing is missing in its tokens and their parentheses are
balanced. -/
theorem infix_of_reads {table : OperatorTable} {afterOperand : Bool} {lexemes : List Lexeme}
    {tokens : List Token} (reads : Reads table afterOperand lexemes tokens)
    (valid : ∀ lexeme ∈ lexemes, lexeme.Valid)
    (operators : Token.missingOperators afterOperand tokens = 0)
    (operands : Token.missingOperands afterOperand tokens = 0)
    {outer : List (List Char)} (balanced : tokens.foldlM Token.nest outer.length = some 0)
    {s : List Char} (begun : Begun afterOperand outer s) :
    Infix .expression (enclosed outer (s ++ lexemes.flatMap Lexeme.spelling)) := by
  induction reads generalizing outer s with
  | @done afterOperand =>
      cases afterOperand with
      | false => cases operands
      | true =>
          obtain rfl : outer = [] := List.length_eq_zero_iff.mp (Option.some.inj balanced)
          simpa [enclosed] using begun.begins.expression
  | @token afterOperand lexeme token rest tokens resolved subtracts more ih =>
      simp only [Token.missingOperators, Token.missingOperands, Nat.add_eq_zero_iff]
        at operators operands
      have placed : afterOperand = !token.beginsOperand := by
        cases afterOperand <;> cases placed : token.beginsOperand <;> simp_all
      rw [List.forall_mem_cons] at valid
      rw [List.foldlM_cons] at balanced
      obtain ⟨depth, nested, balanced⟩ := Option.bind_eq_some_iff.mp balanced
      obtain ⟨outer', s', rfl, begun', spelled⟩ :=
        Begun.resolved (placed ▸ begun) valid.1 resolved nested
      rw [List.flatMap_cons, spelled]
      exact ih valid.2 operators.2 operands.2 balanced begun'
  | @signed lexeme token number rest tokens resolved negated more ih =>
      have completes := Token.completesOperand_negated negated
      simp only [Token.missingOperators, Token.missingOperands, Nat.add_eq_zero_iff, completes]
        at operators operands
      have same : Token.nest outer.length number = some outer.length := by
        cases token <;> simp only [Token.negated?, Option.some.injEq, reduceCtorEq] at negated <;>
          subst negated <;> rfl
      simp only [List.forall_mem_cons] at valid
      rw [List.foldlM_cons, same] at balanced
      have spelled := ih valid.2.2 operators.2 operands.2 balanced
        (begun.signed valid.2.1 resolved negated)
      simpa [Lexeme.spelling] using spelled

theorem infix_of_balanced {table : OperatorTable} {text : List Char} {tokens : List Token}
    (reads : Reads table false (Lexeme.cut text) tokens)
    (operators : Token.missingOperators false tokens = 0)
    (operands : Token.missingOperands false tokens = 0)
    (balanced : tokens.foldlM Token.nest 0 = some 0) : Infix .expression text := by
  have derived := @infix_of_reads _ _ _ _ reads (Lexeme.valid_cut text) operators operands []
    balanced [] ⟨by simp, .nil⟩
  rwa [Lexeme.spelling_cut] at derived

/-- A text that is not in infix notation has a value if its tokens nevertheless have the postorder of a
term for their postfix order, and then what is missing evens out: as many operands as operators. -/
theorem Calculator.evaluate_of_malformed {calculator : Calculator} {text : String}
    (malformed : ¬Infix .expression (Text.visible text.toList)) (result : Float) :
    calculator.evaluate text = .ok result ↔ ∃ tokens, ∃ term : Term,
      (Token.read calculator.table text.toList = .ok tokens ∧
        Postfix.ofInfix calculator.table tokens = .ok term.postorder ∧
        term.value calculator.library = .ok result) ∧
      0 < Token.missingOperators false tokens ∧
      Token.missingOperators false tokens = Token.missingOperands false tokens := by
  rw [evaluate_eq_ok_iff]
  constructor
  · intro denotes
    obtain ⟨tokens, term, reads, arranged, valued⟩ := denotes
    have even := Token.missing_eq arranged
    refine ⟨tokens, term, ⟨Token.read_eq_ok_iff.mpr reads, arranged, valued⟩,
      Nat.pos_of_ne_zero fun none => ?_, even⟩
    exact malformed (infix_of_balanced reads none (even ▸ none) (Postfix.ofInfix_keeps arranged).2)
  · intro evens
    obtain ⟨tokens, term, ⟨read, arranged, valued⟩, _⟩ := evens
    exact ⟨tokens, term, Token.read_eq_ok_iff.mp read, arranged, valued⟩

/-- Two operands side by side and an operator behind them are taken for a sum. -/
theorem Calculator.evaluate_operator_behind :
    standard.evaluate "1(2)+" = .ok 3 ∧ ¬Infix .expression (Text.visible "1(2)+".toList) := by
  have visible : Text.visible "1(2)+".toList = ['1', '(', '2', ')'] ++ ['+'] := by decide +kernel
  rw [visible]
  exact ⟨by decide +kernel, not_infix_append_add _ _⟩

theorem Calculator.missing_operator_behind :
    (¬Infix .expression (Text.visible "1(2)+".toList) ∧ standard.evaluate "1(2)+" = .ok 3) ∧
      ∃ tokens, ∃ term : Term, (Token.read OperatorTable.standard "1(2)+".toList = .ok tokens ∧
          Postfix.ofInfix OperatorTable.standard tokens = .ok term.postorder ∧
          term.value MathLibrary.native = .ok 3) ∧
        0 < Token.missingOperators false tokens ∧
        Token.missingOperators false tokens = Token.missingOperands false tokens := by
  have visible : Text.visible "1(2)+".toList = ['1', '(', '2', ')'] ++ ['+'] := by decide +kernel
  have malformed : ¬Infix .expression (Text.visible "1(2)+".toList) := by
    rw [visible]
    exact not_infix_append_add _ _
  have evaluated : standard.evaluate "1(2)+" = .ok 3 := by decide +kernel
  exact ⟨⟨malformed, evaluated⟩, (evaluate_of_malformed malformed 3).mp evaluated⟩

end InfixCalculator
