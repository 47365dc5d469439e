import InfixCalculator.Proofs.Expression

namespace InfixCalculator.Expression

/-! Regrouping a tree for an operator table.

Any tree can be regrouped into a bound one with the same tokens. An operand that comes last is put
below the innermost operator of the right spine that keeps it; trees are joined operand by operand,
from left to right. -/

/-- Whether an operator takes the whole of the tree before it as its left operand. -/
def yields (table : OperatorTable) (sign : BinaryOperator) (tree : Expression) : Bool :=
  tree.rightSpine.all fun earlier => table.bindsBefore earlier (.binary sign)

/-- Puts an operator and its right operand behind a tree. -/
def extend (table : OperatorTable) (sign : BinaryOperator) : Expression → Expression → Expression
  | .prefixed named operand, last =>
      if (Expression.prefixed named operand).yields table sign then
        .infixed sign (.prefixed named operand) last
      else .prefixed named (operand.extend table sign last)
  | .infixed outer left right, last =>
      if (Expression.infixed outer left right).yields table sign then
        .infixed sign (.infixed outer left right) last
      else .infixed outer left (right.extend table sign last)
  | tree, last => .infixed sign tree last

def join (table : OperatorTable) (first : Expression) (sign : BinaryOperator) :
    Expression → Expression
  | .infixed later left right => join table (join table first sign left) later right
  | tree => first.extend table sign tree

def attach (table : OperatorTable) (named : ElementaryFunction) : Expression → Expression
  | .infixed later left right => join table (attach table named left) later right
  | tree => .prefixed named tree

def regroup (table : OperatorTable) : Expression → Expression
  | .number value => .number value
  | .constant => .constant
  | .group inner => .group (inner.regroup table)
  | .call named argument => .call named (argument.regroup table)
  | .factorial operand => .factorial (operand.regroup table)
  | .prefixed named operand => attach table named (operand.regroup table)
  | .infixed sign left right => join table (left.regroup table) sign (right.regroup table)

variable {table : OperatorTable} {sign : BinaryOperator}

theorem extend_of_yields {tree last : Expression} (all : tree.yields table sign = true) :
    tree.extend table sign last = .infixed sign tree last := by
  cases tree <;> simp only [extend, all, if_true]

theorem leftSpine_extend {tree last : Expression} (kept : tree.yields table sign = false) :
    (tree.extend table sign last).leftSpine = tree.leftSpine := by
  cases tree with
  | prefixed named operand => simp only [extend, kept, Bool.false_eq_true, if_false, leftSpine]
  | infixed outer left right => simp only [extend, kept, Bool.false_eq_true, if_false, leftSpine]
  | number | constant | group | call | factorial => cases kept

@[simp] theorem tokens_extend (tree last : Expression) :
    (tree.extend table sign last).tokens =
      tree.tokens ++ .operator (.binary sign) :: last.tokens := by
  fun_induction extend table sign tree last <;> simp_all [tokens]

theorem wellSpelled_extend {tree last : Expression} (treeSpelled : tree.WellSpelled)
    (lastSpelled : last.WellSpelled) : (tree.extend table sign last).WellSpelled := by
  fun_induction extend table sign tree last with
  | case1 | case3 | case5 => exact ⟨treeSpelled, lastSpelled⟩
  | case2 named operand last _ ih =>
      refine ⟨?_, ih treeSpelled.2 lastSpelled⟩
      rw [tokens_extend, head?_tokens_append]
      exact treeSpelled.1
  | case4 outer left right last _ ih => exact ⟨treeSpelled.1, ih treeSpelled.2 lastSpelled⟩

/-- An operator whose right operand grows by `sign` and more keeps it: the spine of the operand
begins as before, or with `sign`, which is not let in above the operator. -/
theorem keeps_extend {operator : Operator} {operand last : Expression}
    (keeps : ∀ later ∈ operand.leftSpine, table.bindsBefore operator later = false)
    (holds : (table.bindsBefore operator (.binary sign) && operand.yields table sign) = false) :
    ∀ later ∈ (operand.extend table sign last).leftSpine,
      table.bindsBefore operator later = false := by
  cases all : operand.yields table sign with
  | true =>
      rw [extend_of_yields all]
      rw [all, Bool.and_true] at holds
      simp only [leftSpine, List.mem_cons, forall_eq_or_imp]
      exact ⟨holds, keeps⟩
  | false => rwa [leftSpine_extend all]

theorem bound_infixed_of_yields {tree last : Expression} (treeBound : tree.Bound table)
    (all : tree.yields table sign = true) (lastBound : last.Bound table)
    (lastOpen : last.leftSpine = []) : (Expression.infixed sign tree last).Bound table :=
  ⟨List.all_eq_true.mp all, by simp [lastOpen], treeBound, lastBound⟩

theorem bound_extend {tree last : Expression} (treeBound : tree.Bound table)
    (lastBound : last.Bound table) (lastOpen : last.leftSpine = []) :
    (tree.extend table sign last).Bound table := by
  fun_induction extend table sign tree last with
  | case1 named operand last all => exact bound_infixed_of_yields treeBound all lastBound lastOpen
  | case2 named operand last kept ih =>
      obtain ⟨keeps, operandBound⟩ := treeBound
      exact ⟨keeps_extend keeps (by simpa [yields, rightSpine] using kept),
        ih operandBound lastBound lastOpen⟩
  | case3 outer left right last all => exact bound_infixed_of_yields treeBound all lastBound lastOpen
  | case4 outer left right last kept ih =>
      obtain ⟨released, keeps, leftBound, rightBound⟩ := treeBound
      exact ⟨released, keeps_extend keeps (by simpa [yields, rightSpine] using kept), leftBound,
        ih rightBound lastBound lastOpen⟩
  | case5 tree last notPrefixed notInfixed =>
      refine bound_infixed_of_yields treeBound ?_ lastBound lastOpen
      cases tree with
      | prefixed named operand => exact absurd rfl (notPrefixed named operand)
      | infixed outer left right => exact absurd rfl (notInfixed outer left right)
      | number | constant | group | call | factorial => rfl

@[simp] theorem tokens_join (first second : Expression) :
    (join table first sign second).tokens =
      first.tokens ++ .operator (.binary sign) :: second.tokens := by
  fun_induction join table first sign second <;> simp_all [tokens]

theorem wellSpelled_join {first second : Expression} (firstSpelled : first.WellSpelled)
    (secondSpelled : second.WellSpelled) : (join table first sign second).WellSpelled := by
  fun_induction join table first sign second with
  | case1 first sign later left right leftIH rightIH =>
      exact rightIH (leftIH firstSpelled secondSpelled.1) secondSpelled.2
  | case2 first sign tree => exact wellSpelled_extend firstSpelled secondSpelled

theorem bound_join {first second : Expression} (firstBound : first.Bound table)
    (secondBound : second.Bound table) : (join table first sign second).Bound table := by
  fun_induction join table first sign second with
  | case1 first sign later left right leftIH rightIH =>
      obtain ⟨_, _, leftBound, rightBound⟩ := secondBound
      exact rightIH (leftIH firstBound leftBound) rightBound
  | case2 first sign tree notInfixed =>
      apply bound_extend firstBound secondBound
      cases tree with
      | infixed later left right => exact absurd rfl (notInfixed later left right)
      | number | constant | group | call | factorial | prefixed => rfl

@[simp] theorem tokens_attach (named : ElementaryFunction) (tree : Expression) :
    (attach table named tree).tokens = .operator (.function named) :: tree.tokens := by
  fun_induction attach table named tree <;> simp_all [tokens]

theorem wellSpelled_attach {named : ElementaryFunction} {tree : Expression}
    (spelled : tree.WellSpelled) (apart : tree.tokens.head? ≠ some .openParen) :
    (attach table named tree).WellSpelled := by
  fun_induction attach table named tree with
  | case1 later left right ih =>
      rw [tokens, head?_tokens_append] at apart
      exact wellSpelled_join (ih spelled.1 apart) spelled.2
  | case2 tree => exact ⟨apart, spelled⟩

theorem bound_attach {named : ElementaryFunction} {tree : Expression} (bound : tree.Bound table) :
    (attach table named tree).Bound table := by
  fun_induction attach table named tree with
  | case1 later left right ih =>
      obtain ⟨_, _, leftBound, rightBound⟩ := bound
      exact bound_join (ih leftBound) rightBound
  | case2 tree notInfixed =>
      refine ⟨?_, bound⟩
      cases tree with
      | infixed later left right => exact absurd rfl (notInfixed later left right)
      | number | constant | group | call | factorial | prefixed => simp [leftSpine]

@[simp] theorem tokens_regroup (tree : Expression) : (tree.regroup table).tokens = tree.tokens := by
  induction tree <;> simp_all [regroup, tokens]

theorem closed_regroup {tree : Expression} (closed : tree.closed = true) :
    (tree.regroup table).closed = true := by
  cases tree <;> first | rfl | contradiction

theorem wellSpelled_regroup {tree : Expression} (spelled : tree.WellSpelled) :
    (tree.regroup table).WellSpelled := by
  induction tree with
  | number | constant => trivial
  | group inner ih | call named inner ih => exact ih spelled
  | factorial operand ih => exact ⟨closed_regroup spelled.1, ih spelled.2⟩
  | prefixed named operand ih =>
      exact wellSpelled_attach (ih spelled.2) (by simpa using spelled.1)
  | infixed sign left right leftIH rightIH =>
      exact wellSpelled_join (leftIH spelled.1) (rightIH spelled.2)

theorem bound_regroup (tree : Expression) : (tree.regroup table).Bound table := by
  induction tree with
  | number | constant => trivial
  | group inner ih | call named inner ih | factorial inner ih => exact ih
  | prefixed named operand ih => exact bound_attach ih
  | infixed sign left right leftIH rightIH => exact bound_join leftIH rightIH

end InfixCalculator.Expression
