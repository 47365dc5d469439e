import InfixCalculator.Proofs.Term

namespace InfixCalculator

/-! Expressions as trees, and which of the trees that spell the same tokens an operator table means.

The spelling of a tree says nothing of precedence: `1 + 2 * 3` spells two trees. The one that is meant
is `Bound`: on each side of a binary operator, and behind a function without parentheses, stands
nothing that the table would take away from there. -/

inductive Expression where
  | number (value : Float)
  | constant
  | group (inner : Expression)
  /-- A function with its argument in parentheses. -/
  | call (named : ElementaryFunction) (argument : Expression)
  | factorial (operand : Expression)
  /-- A function before an operand that opens with no parenthesis. -/
  | prefixed (named : ElementaryFunction) (operand : Expression)
  | infixed (sign : BinaryOperator) (left right : Expression)

/-- Whether an operator that is held back is let go when another comes after it. -/
def OperatorTable.bindsBefore (table : OperatorTable) (first second : Operator) : Bool :=
  match table.entry? first, table.entry? second with
  | some held, some incoming => held.bindsBefore incoming
  | _, _ => false

theorem OperatorTable.bindsBefore_eq {table : OperatorTable} {first second : Operator}
    {held incoming : OperatorEntry} (firstKnown : table.entry? first = some held)
    (secondKnown : table.entry? second = some incoming) :
    table.bindsBefore first second = held.bindsBefore incoming := by
  simp only [bindsBefore, firstKnown, secondKnown]

namespace Expression

def tokens : Expression → List Token
  | .number value => [.number value]
  | .constant => [.constant]
  | .group inner => .openParen :: inner.tokens ++ [.closeParen]
  | .call named argument =>
      .operator (.function named) :: .openParen :: argument.tokens ++ [.closeParen]
  | .factorial operand => operand.tokens ++ [.operator .factorial]
  | .prefixed named operand => .operator (.function named) :: operand.tokens
  | .infixed sign left right => left.tokens ++ .operator (.binary sign) :: right.tokens

def term : Expression → Term
  | .number value => .number value
  | .constant => .constant
  | .group inner => inner.term
  | .call named argument | .prefixed named argument => .function named argument.term
  | .factorial operand => .factorial operand.term
  | .infixed sign left right => .binary sign left.term right.term

/-- Whether nothing that follows can go between the parts of an expression. -/
def closed : Expression → Bool
  | .prefixed _ _ | .infixed _ _ _ => false
  | .number _ | .constant | .group _ | .call _ _ | .factorial _ => true

/-- A factorial sign stands behind a closed operand; what looks like a call is one. -/
def WellSpelled : Expression → Prop
  | .number _ | .constant => True
  | .group inner | .call _ inner => inner.WellSpelled
  | .factorial operand => operand.closed = true ∧ operand.WellSpelled
  | .prefixed _ operand => operand.tokens.head? ≠ some .openParen ∧ operand.WellSpelled
  | .infixed _ left right => left.WellSpelled ∧ right.WellSpelled

def Spells (tree : Expression) (tokens : List Token) : Prop :=
  tree.WellSpelled ∧ tree.tokens = tokens

/-- The operators that are open to the right, the outermost first. -/
def rightSpine : Expression → List Operator
  | .prefixed named operand => .function named :: operand.rightSpine
  | .infixed sign _ right => .binary sign :: right.rightSpine
  | .number _ | .constant | .group _ | .call _ _ | .factorial _ => []

/-- The operators that are open to the left, the outermost first. -/
def leftSpine : Expression → List Operator
  | .infixed sign left _ => .binary sign :: left.leftSpine
  | .number _ | .constant | .group _ | .call _ _ | .factorial _ | .prefixed _ _ => []

/-- Each operator has as its operands what the table gives it. -/
def Bound (table : OperatorTable) : Expression → Prop
  | .number _ | .constant => True
  | .group inner | .call _ inner | .factorial inner => inner.Bound table
  | .prefixed named operand =>
      (∀ later ∈ operand.leftSpine, table.bindsBefore (.function named) later = false) ∧
        operand.Bound table
  | .infixed sign left right =>
      (∀ earlier ∈ left.rightSpine, table.bindsBefore earlier (.binary sign) = true) ∧
        (∀ later ∈ right.leftSpine, table.bindsBefore (.binary sign) later = false) ∧
        left.Bound table ∧ right.Bound table

theorem tokens_ne_nil (tree : Expression) : tree.tokens ≠ [] := by
  cases tree <;> simp [tokens]

theorem head?_tokens_append (tree : Expression) (rest : List Token) :
    (tree.tokens ++ rest).head? = tree.tokens.head? :=
  List.head?_append_of_ne_nil _ tree.tokens_ne_nil

theorem rightSpine_of_closed {tree : Expression} (closed : tree.closed = true) :
    tree.rightSpine = [] := by
  cases tree <;> first | rfl | contradiction

theorem leftSpine_of_closed {tree : Expression} (closed : tree.closed = true) :
    tree.leftSpine = [] := by
  cases tree <;> first | rfl | contradiction

theorem mem_postorder_term {tree : Expression} {operation : Operator} :
    .operator operation ∈ tree.term.postorder ↔ .operator operation ∈ tree.tokens := by
  induction tree with
  | number | constant => rfl
  | group inner ih => simp [term, tokens, ih]
  | call named argument ih => simp [term, tokens, Term.postorder, ih, or_comm]
  | factorial operand ih => simp [term, tokens, Term.postorder, ih]
  | prefixed named operand ih => simp [term, tokens, Term.postorder, ih, or_comm]
  | infixed sign left right leftIH rightIH =>
      simp [term, tokens, Term.postorder, leftIH, rightIH, or_comm, or_left_comm]

theorem knows_postorder_term {table : OperatorTable} {tree : Expression} :
    table.Knows tree.term.postorder ↔ table.Knows tree.tokens := by
  simp only [OperatorTable.Knows, mem_postorder_term]

end Expression
end InfixCalculator
