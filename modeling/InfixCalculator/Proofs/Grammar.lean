import InfixCalculator.Proofs.Calculation
import InfixCalculator.Proofs.Lexing

namespace InfixCalculator

/-! The standard notation by a grammar in layers.

Each layer of the grammar has its own operators, so a derivation shows how a text groups without a word
of precedence: equal precedences make two layers if their operators group to different sides. A
calculation with the standard table is the recursion over any derivation of its text
(`Calculator.evaluate_of_derivation`). -/

open Outcome

/-- The layers, from the loosest. -/
inductive Layer where
  | sum | product | root | power | application | operand | atom
deriving DecidableEq

def Layer.rank : Layer → Nat
  | .sum => 0
  | .product => 1
  | .root => 2
  | .power => 3
  | .application => 4
  | .operand => 5
  | .atom => 6

def Operator.layer : Operator → Layer
  | .binary .add | .binary .subtract => .sum
  | .binary .multiply | .binary .divide => .product
  | .binary .root => .root
  | .binary .power => .power
  | .function _ => .application
  | .factorial => .operand

/-- With the standard precedences the tighter layer binds before, and chains group to the left but for
those of powers. -/
theorem OperatorTable.bindsBefore_standard (first : Operator) (sign : BinaryOperator) :
    standard.bindsBefore first (.binary sign) =
      decide ((Operator.binary sign).layer.rank < first.layer.rank ∨
        (Operator.binary sign).layer.rank = first.layer.rank ∧ sign ≠ .power) := by
  cases first with
  | function named => cases named <;> cases sign <;> rfl
  | binary earlier => cases earlier <;> cases sign <;> rfl
  | factorial => cases sign <;> rfl

/-- The derivations of the texts of each layer. -/
inductive Derivation : Layer → List Char → Type where
  | sum {s t : List Char} (sign : BinaryOperator) (layer : sign = .add ∨ sign = .subtract)
      (left : Derivation .sum s) (right : Derivation .product t) :
      Derivation .sum (s ++ sign.symbol :: t)
  | ofProduct {s : List Char} (only : Derivation .product s) : Derivation .sum s
  | product {s t : List Char} (sign : BinaryOperator) (layer : sign = .multiply ∨ sign = .divide)
      (left : Derivation .product s) (right : Derivation .root t) :
      Derivation .product (s ++ sign.symbol :: t)
  | ofRoot {s : List Char} (only : Derivation .root s) : Derivation .product s
  | root {s t : List Char} (left : Derivation .root s) (right : Derivation .power t) :
      Derivation .root (s ++ 'r' :: t)
  | ofPower {s : List Char} (only : Derivation .power s) : Derivation .root s
  | power {s t : List Char} (left : Derivation .application s) (right : Derivation .power t) :
      Derivation .power (s ++ '^' :: t)
  | ofApplication {s : List Char} (only : Derivation .application s) : Derivation .power s
  | application {s : List Char} (named : ElementaryFunction)
      (argument : Derivation .application s) (apart : s.head? ≠ some '(') :
      Derivation .application (named.symbol :: s)
  | ofOperand {s : List Char} (only : Derivation .operand s) : Derivation .application s
  | factorial {s : List Char} (operand : Derivation .operand s) : Derivation .operand (s ++ ['!'])
  | call {s : List Char} (named : ElementaryFunction) (argument : Derivation .sum s) :
      Derivation .operand (named.symbol :: '(' :: s ++ [')'])
  | ofAtom {s : List Char} (only : Derivation .atom s) : Derivation .operand s
  | number {s : List Char} (numeral : IsNumeral s) : Derivation .atom s
  | negative {s : List Char} (numeral : IsNumeral s) : Derivation .atom ('-' :: s)
  | constant : Derivation .atom ['p']
  | negativeConstant : Derivation .atom ['-', 'p']
  | group {s : List Char} (inner : Derivation .sum s) : Derivation .atom ('(' :: s ++ [')'])

namespace Expression

/-- No operator that is open on a side of the tree is looser than the layer. -/
structure Within (layer : Layer) (tree : Expression) : Prop where
  left : ∀ sign, .binary sign ∈ tree.leftSpine → layer.rank ≤ (Operator.binary sign).layer.rank
  right : ∀ operator ∈ tree.rightSpine, layer.rank ≤ operator.layer.rank

theorem binary_of_mem_leftSpine {tree : Expression} {operator : Operator}
    (member : operator ∈ tree.leftSpine) : ∃ sign, operator = .binary sign := by
  induction tree with
  | infixed sign left right leftIH _ =>
      rcases List.mem_cons.mp member with rfl | member
      · exact ⟨sign, rfl⟩
      · exact leftIH member
  | number | constant | group | call | factorial | prefixed => cases member

namespace Within

variable {layer looser : Layer} {tree left right : Expression}

theorem mono (within : tree.Within layer) (loose : looser.rank ≤ layer.rank) : tree.Within looser :=
  ⟨fun sign member => Nat.le_trans loose (within.left sign member),
    fun operator member => Nat.le_trans loose (within.right operator member)⟩

theorem of_closed (closed : tree.closed = true) : tree.Within layer :=
  ⟨by simp [leftSpine_of_closed closed], by simp [rightSpine_of_closed closed]⟩

theorem prefixed (within : tree.Within layer) (named : ElementaryFunction)
    (own : layer.rank ≤ Layer.application.rank) : (Expression.prefixed named tree).Within layer := by
  refine ⟨by simp [leftSpine], ?_⟩
  intro operator member
  rcases List.mem_cons.mp member with rfl | member
  · exact own
  · exact within.right operator member

theorem infixed {sign : BinaryOperator} (onLeft : left.Within layer) (onRight : right.Within layer)
    (own : layer.rank ≤ (Operator.binary sign).layer.rank) :
    (Expression.infixed sign left right).Within layer := by
  constructor
  · intro other member
    rcases List.mem_cons.mp member with same | member
    · cases same
      exact own
    · exact onLeft.left other member
  · intro operator member
    rcases List.mem_cons.mp member with rfl | member
    · exact own
    · exact onRight.right operator member

theorem released {sign : BinaryOperator} (within : tree.Within layer)
    (loose : (Operator.binary sign).layer.rank < layer.rank ∨
      (Operator.binary sign).layer.rank = layer.rank ∧ sign ≠ .power) :
    ∀ earlier ∈ tree.rightSpine,
      OperatorTable.standard.bindsBefore earlier (.binary sign) = true := by
  intro earlier member
  have tight := within.right earlier member
  rw [OperatorTable.bindsBefore_standard, decide_eq_true_eq]
  rcases loose with loose | ⟨same, chains⟩
  · exact .inl (Nat.lt_of_lt_of_le loose tight)
  · rw [same]
    exact (Nat.lt_or_eq_of_le tight).imp_right fun equal => ⟨equal, chains⟩

theorem kept {operator : Operator} (within : tree.Within layer)
    (loose : operator.layer.rank < layer.rank ∨
      operator.layer.rank = layer.rank ∧ Layer.power.rank ≤ layer.rank) :
    ∀ later ∈ tree.leftSpine, OperatorTable.standard.bindsBefore operator later = false := by
  intro later member
  obtain ⟨sign, rfl⟩ := binary_of_mem_leftSpine member
  have tight := within.left sign member
  have power : Layer.power.rank ≤ (Operator.binary sign).layer.rank → sign = .power := by
    cases sign <;> decide
  rw [OperatorTable.bindsBefore_standard, decide_eq_false_iff_not]
  intro before
  rcases before with tighter | ⟨same, chains⟩
  · omega
  · exact chains (power (by omega))

end Within

end Expression

namespace Derivation

open Term (finite)

/-- The value by recursion over the derivation, left operand first, or the error of the first part
that has no finite value. -/
def value (library : MathLibrary) {layer : Layer} {s : List Char} :
    Derivation layer s → Except DomainError Float
  | .sum sign _ left right => do
      let x ← left.value library
      let y ← right.value library
      finite (some (.binary sign)) (library.binary sign x y)
  | .product sign _ left right => do
      let x ← left.value library
      let y ← right.value library
      finite (some (.binary sign)) (library.binary sign x y)
  | .root left right => do
      let x ← left.value library
      let y ← right.value library
      finite (some (.binary .root)) (library.root x y)
  | .power left right => do
      let x ← left.value library
      let y ← right.value library
      finite (some (.binary .power)) (library.power x y)
  | .application named argument _ | .call named argument => do
      let x ← argument.value library
      finite (some (.function named)) (library.function named x)
  | .factorial operand => do
      let x ← operand.value library
      let product ← (InfixCalculator.factorial x).mapError .factorial
      finite (some .factorial) product
  | .ofProduct only | .ofRoot only | .ofPower only | .ofApplication only | .ofOperand only
  | .ofAtom only => only.value library
  | .group inner => inner.value library
  | @number s _ => finite none (Numeral.read s)
  | @negative s _ => finite none (-Numeral.read s)
  | .constant => finite none circleConstant
  | .negativeConstant => finite none (-circleConstant)

def tree {layer : Layer} {s : List Char} : Derivation layer s → Expression
  | .sum sign _ left right | .product sign _ left right => .infixed sign left.tree right.tree
  | .root left right => .infixed .root left.tree right.tree
  | .power left right => .infixed .power left.tree right.tree
  | .application named argument _ => .prefixed named argument.tree
  | .call named argument => .call named argument.tree
  | .factorial operand => .factorial operand.tree
  | .ofProduct only | .ofRoot only | .ofPower only | .ofApplication only | .ofOperand only
  | .ofAtom only => only.tree
  | .group inner => .group inner.tree
  | @number s _ => .number (Numeral.read s)
  | @negative s _ => .number (-Numeral.read s)
  | .constant => .constant
  | .negativeConstant => .number (-circleConstant)

variable {layer : Layer} {s : List Char}

theorem value_eq (library : MathLibrary) (derivation : Derivation layer s) :
    derivation.value library = derivation.tree.term.value library := by
  induction derivation with
  | sum sign _ left right leftIH rightIH | product sign _ left right leftIH rightIH =>
      simp only [value, tree, Expression.term, Term.value, leftIH, rightIH]
  | root left right leftIH rightIH | power left right leftIH rightIH =>
      simp only [value, tree, Expression.term, Term.value, leftIH, rightIH, MathLibrary.binary]
  | application named argument _ ih | call named argument ih =>
      simp only [value, tree, Expression.term, Term.value, ih]
  | factorial operand ih => simp only [value, tree, Expression.term, Term.value, ih]
  | ofProduct only ih | ofRoot only ih | ofPower only ih | ofApplication only ih
  | ofOperand only ih | ofAtom only ih | group inner ih => exact ih
  | number | negative | constant | negativeConstant => rfl

theorem closed_tree (derivation : Derivation layer s) (tight : Layer.operand.rank ≤ layer.rank) :
    derivation.tree.closed = true := by
  induction derivation with
  | sum | ofProduct | product | ofRoot | root | ofPower | power | ofApplication | application
  | ofOperand => contradiction
  | ofAtom only ih => exact ih (by decide)
  | factorial | call | number | negative | constant | negativeConstant | group => rfl

theorem within_tree (derivation : Derivation layer s) : derivation.tree.Within layer := by
  induction derivation with
  | sum sign _ left right leftIH rightIH =>
      exact leftIH.infixed (rightIH.mono (by decide)) (Nat.zero_le _)
  | product sign layer left right leftIH rightIH =>
      exact leftIH.infixed (rightIH.mono (by decide)) (by rcases layer with rfl | rfl <;> decide)
  | root left right leftIH rightIH => exact leftIH.infixed (rightIH.mono (by decide)) (by decide)
  | power left right leftIH rightIH => exact (leftIH.mono (by decide)).infixed rightIH (by decide)
  | application named argument _ ih => exact ih.prefixed named (by decide)
  | ofProduct only ih | ofRoot only ih | ofPower only ih | ofApplication only ih
  | ofOperand only ih | ofAtom only ih => exact ih.mono (by decide)
  | factorial | call | number | negative | constant | negativeConstant | group =>
      exact .of_closed rfl

theorem bound_tree (derivation : Derivation layer s) : derivation.tree.Bound .standard := by
  induction derivation with
  | sum sign layer left right leftIH rightIH =>
      have own : (Operator.binary sign).layer = .sum := by rcases layer with rfl | rfl <;> rfl
      have chains : sign ≠ .power := by rcases layer with rfl | rfl <;> decide
      exact ⟨left.within_tree.released (.inr ⟨by rw [own], chains⟩),
        right.within_tree.kept (.inl (by rw [own]; decide)), leftIH, rightIH⟩
  | product sign layer left right leftIH rightIH =>
      have own : (Operator.binary sign).layer = .product := by rcases layer with rfl | rfl <;> rfl
      have chains : sign ≠ .power := by rcases layer with rfl | rfl <;> decide
      exact ⟨left.within_tree.released (.inr ⟨by rw [own], chains⟩),
        right.within_tree.kept (.inl (by rw [own]; decide)), leftIH, rightIH⟩
  | root left right leftIH rightIH =>
      exact ⟨left.within_tree.released (.inr ⟨rfl, by decide⟩),
        right.within_tree.kept (.inl (by decide)), leftIH, rightIH⟩
  | power left right leftIH rightIH =>
      exact ⟨left.within_tree.released (.inl (by decide)),
        right.within_tree.kept (.inr ⟨rfl, by decide⟩), leftIH, rightIH⟩
  | application named argument _ ih =>
      exact ⟨argument.within_tree.kept (.inr ⟨rfl, by decide⟩), ih⟩
  | ofProduct only ih | ofRoot only ih | ofPower only ih | ofApplication only ih
  | ofOperand only ih | ofAtom only ih | factorial only ih | call _ only ih | group only ih =>
      exact ih
  | number | negative | constant | negativeConstant => trivial

theorem head?_of_openParen (derivation : Derivation layer s)
    (opens : derivation.tree.tokens.head? = some .openParen) : s.head? = some '(' := by
  induction derivation with
  | sum _ _ left right leftIH _ | product _ _ left right leftIH _ | root left right leftIH _
  | power left right leftIH _ | factorial left leftIH =>
      rw [tree, Expression.tokens, Expression.head?_tokens_append] at opens
      rw [List.head?_append, leftIH opens]
      rfl
  | ofProduct only ih | ofRoot only ih | ofPower only ih | ofApplication only ih
  | ofOperand only ih | ofAtom only ih => exact ih opens
  | group => rfl
  | application | call | number | negative | constant | negativeConstant => cases opens

theorem wellSpelled_tree (derivation : Derivation layer s) : derivation.tree.WellSpelled := by
  induction derivation with
  | sum _ _ left right leftIH rightIH | product _ _ left right leftIH rightIH
  | root left right leftIH rightIH | power left right leftIH rightIH => exact ⟨leftIH, rightIH⟩
  | application named argument apart ih => exact ⟨mt argument.head?_of_openParen apart, ih⟩
  | factorial operand ih => exact ⟨operand.closed_tree (by decide), ih⟩
  | ofProduct only ih | ofRoot only ih | ofPower only ih | ofApplication only ih
  | ofOperand only ih | ofAtom only ih | call _ only ih | group only ih => exact ih
  | number | negative | constant | negativeConstant => trivial

end Derivation

theorem OperatorTable.entry?_standard (operation : Operator) :
    (standard.entry? operation).isSome = true := by
  cases operation with
  | function named => cases named <;> rfl
  | binary sign => cases sign <;> rfl
  | factorial => rfl

theorem OperatorTable.knows_standard (tokens : List Token) : standard.Knows tokens :=
  fun operation _ => entry?_standard operation

namespace ReadAs

variable {s t : List Char} {first second : List Token}

theorem infixed (left : ReadAs .standard s first) (sign : BinaryOperator)
    (right : ReadAs .standard t second) :
    ReadAs .standard (s ++ sign.symbol :: t) (first ++ .operator (.binary sign) :: second) := by
  intro rest more ends reads
  rw [List.append_assoc, List.append_assoc]
  exact left _ _ (endsNumeral_symbol (.binary sign) _)
    (.operator (.binary sign) (fun _ => OperatorTable.entry?_standard _) (fun _ => rfl)
      (right _ _ ends reads))

theorem prefixed (named : ElementaryFunction) (argument : ReadAs .standard s first) :
    ReadAs .standard (named.symbol :: s) (.operator (.function named) :: first) := by
  intro rest more ends reads
  exact .operator (.function named) (fun _ => OperatorTable.entry?_standard _) (by simp)
    (argument _ _ ends reads)

theorem factorial (operand : ReadAs .standard s first) :
    ReadAs .standard (s ++ ['!']) (first ++ [.operator .factorial]) := by
  intro rest more ends reads
  rw [List.append_assoc, List.append_assoc]
  exact operand _ _ (endsNumeral_symbol .factorial rest)
    (.operator .factorial (fun _ => OperatorTable.entry?_standard _) (by simp) reads)

end ReadAs

theorem Derivation.readAs_tree {layer : Layer} {s : List Char} (derivation : Derivation layer s) :
    ReadAs .standard s derivation.tree.tokens := by
  induction derivation with
  | sum sign _ left right leftIH rightIH | product sign _ left right leftIH rightIH =>
      exact leftIH.infixed sign rightIH
  | root left right leftIH rightIH => exact leftIH.infixed .root rightIH
  | power left right leftIH rightIH => exact leftIH.infixed .power rightIH
  | application named argument _ ih => exact ih.prefixed named
  | factorial operand ih => exact ih.factorial
  | call named argument ih => exact ih.group.prefixed named
  | ofProduct only ih | ofRoot only ih | ofPower only ih | ofApplication only ih
  | ofOperand only ih | ofAtom only ih => exact ih
  | number numeral => exact .number numeral
  | negative numeral => exact .negative numeral
  | constant => exact .constant
  | negativeConstant => exact .negativeConstant
  | group inner ih => exact ih.group

/-- The value of a text is the value of any of its derivations, and an error that of its first part
without a finite value. -/
theorem Calculator.evaluate_of_derivation (library : MathLibrary) {text : String}
    (derivation : Derivation .sum (Text.visible text.toList)) :
    (⟨.standard, library⟩ : Calculator).evaluate text =
      ((derivation.value library).mapError .domain).mapError .evaluation := by
  have reads := derivation.readAs_tree [] [] endsNumeral_nil (by rw [Lexeme.cut]; exact .done)
  rw [List.append_nil, List.append_nil] at reads
  apply evaluate_of_unplaced
  rw [evaluate_unplaced, ofVisible_of_reads reads derivation.tree.tokens_ne_nil, derivation.value_eq]
  exact ofTokens_of_bound (OperatorTable.knows_standard _) ⟨derivation.wellSpelled_tree, rfl⟩
    derivation.bound_tree

/-- The value of a text with blanks, by a derivation of it. -/
theorem Calculator.evaluate_difference :
    ∃ derivation : Derivation .sum ['2', '*', '-', '3', '-', '4', '!', '/', '8'],
      derivation.value .native = .ok (-9) ∧
        (⟨.standard, .native⟩ : Calculator).evaluate " 2 * -3 - 4! / 8" = .ok (-9) := by
  let operand {s : List Char} (only : Derivation .operand s) : Derivation .root s :=
    .ofPower (.ofApplication (.ofOperand only))
  let left : Derivation .product ['2', '*', '-', '3'] :=
    .product .multiply (.inl rfl) (.ofRoot (operand (.ofAtom (.number (.digit rfl)))))
      (operand (.ofAtom (.negative (.digit rfl))))
  let right : Derivation .product ['4', '!', '/', '8'] :=
    .product .divide (.inr rfl) (.ofRoot (operand (.factorial (.ofAtom (.number (.digit rfl))))))
      (operand (.ofAtom (.number (.digit rfl))))
  let derivation : Derivation .sum ['2', '*', '-', '3', '-', '4', '!', '/', '8'] :=
    .sum .subtract (.inr rfl) (.ofProduct left) right
  have value : derivation.value .native = .ok (-9) := by decide +kernel
  have visible : Text.visible " 2 * -3 - 4! / 8".toList =
      ['2', '*', '-', '3', '-', '4', '!', '/', '8'] := by decide +kernel
  have evaluated : ∀ {s : List Char} (derivation : Derivation .sum s),
      Text.visible " 2 * -3 - 4! / 8".toList = s → (⟨.standard, .native⟩ : Calculator).evaluate
        " 2 * -3 - 4! / 8" = ((derivation.value .native).mapError .domain).mapError .evaluation := by
    intro s derivation same
    subst same
    exact evaluate_of_derivation .native derivation
  refine ⟨derivation, value, ?_⟩
  rw [evaluated derivation visible, value]
  rfl

end InfixCalculator
