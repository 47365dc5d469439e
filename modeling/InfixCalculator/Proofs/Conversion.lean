import InfixCalculator.Postfix.Conversion
import InfixCalculator.Proofs.Expression.Assembly
import InfixCalculator.Proofs.Expression.Regrouping

namespace InfixCalculator

/-! The conversion to postfix order against trees.

The conversion holds back what an assembly has as frames, and it has let go of the postorders of what
stands to the left of them (`Follows`). So it puts tokens into the postorder of the bound tree that they
spell. -/

def ConversionError.unplaced : ConversionError → ConversionError
  | .unopenedParen _ => .unopenedParen 0
  | .unclosedParen => .unclosedParen
  | .unknownOperator operator _ => .unknownOperator operator 0

namespace Postfix

open Outcome

variable {table : OperatorTable}

/-- A step that does not count the tokens. -/
def Arrangement.advance (table : OperatorTable) (state : Arrangement) (token : Token) :
    Except ConversionError Arrangement :=
  Arrangement.step table state (token, 0)

theorem Arrangement.advance_eq (state : Arrangement) (item : Token × Nat) :
    advance table state item.1 = (step table state item).mapError .unplaced := by
  obtain ⟨token, index⟩ := item
  cases token with
  | number | constant | openParen => rfl
  | closeParen =>
      simp only [advance, step]
      split <;> rfl
  | operator operation =>
      simp only [advance, step]
      split <;> rfl

theorem Arrangement.finish_unplaced (output : List Token) (stack : List Held) :
    (finish output stack).mapError .unplaced = finish output stack := by
  fun_induction finish output stack with
  | case1 | case2 => rfl
  | case3 output top rest ih => exact ih

theorem ofInfix_unplaced (table : OperatorTable) (tokens : List Token) :
    (ofInfix table tokens).mapError .unplaced =
      tokens.foldlM (Arrangement.advance table) Arrangement.start >>= fun state =>
        Arrangement.finish state.output state.stack := by
  have folded := foldlM_mapped (Arrangement.step table) (Arrangement.advance table) id Prod.fst
    ConversionError.unplaced
    (fun state item => by rw [map_id]; exact Arrangement.advance_eq state item) tokens.zipIdx
    Arrangement.start
  rw [List.zipIdx_map_fst, map_id] at folded
  change tokens.foldlM _ Arrangement.start = _ at folded
  rw [ofInfix, mapError_bind, folded]
  simp only [Arrangement.finish_unplaced]

theorem placement_of_found {operation : Operator} {entry : OperatorEntry}
    (found : table.entry? operation = some entry) : entry.placement = operation.placement := by
  rw [OperatorEntry.placement, OperatorTable.entry?_operator found]

namespace Arrangement

variable {state : Arrangement} {entry : OperatorEntry}

theorem advance_function {named : ElementaryFunction}
    (found : table.entry? (.function named) = some entry) :
    advance table state (.operator (.function named)) = .ok (state.hold (.operator entry)) := by
  have before : entry.placement = .before := placement_of_found found
  simp only [advance, step, found, addOperator, before]

theorem advance_binary {sign : BinaryOperator} (found : table.entry? (.binary sign) = some entry) :
    advance table state (.operator (.binary sign)) =
      .ok ((releaseFor entry state.output state.stack).hold (.operator entry)) := by
  have between : entry.placement = .between := placement_of_found found
  simp only [advance, step, found, addOperator, between]

theorem advance_factorial (found : table.entry? .factorial = some entry) :
    advance table state (.operator .factorial) = .ok (state.emit (.operator .factorial)) := by
  have after : entry.placement = .after := placement_of_found found
  simp only [advance, step, found, addOperator, after, OperatorTable.entry?_operator found]

theorem advance_closeParen {closed : Arrangement}
    (found : closeGroup state.output state.stack = some closed) :
    advance table state .closeParen = .ok closed.releaseFunction := by
  simp only [advance, step, found]

/-- The steps that succeed. -/
inductive Advances (table : OperatorTable) (state : Arrangement) : Token → Arrangement → Prop where
  | number (value : Float) : Advances table state (.number value) (state.emit (.number value))
  | constant : Advances table state .constant (state.emit .constant)
  | openParen : Advances table state .openParen (state.hold .openParen)
  | closeParen {closed : Arrangement}
      (found : closeGroup state.output state.stack = some closed) :
      Advances table state .closeParen closed.releaseFunction
  | function {named : ElementaryFunction} {entry : OperatorEntry}
      (found : table.entry? (.function named) = some entry) :
      Advances table state (.operator (.function named)) (state.hold (.operator entry))
  | factorial {entry : OperatorEntry} (found : table.entry? .factorial = some entry) :
      Advances table state (.operator .factorial) (state.emit (.operator .factorial))
  | binary {sign : BinaryOperator} {entry : OperatorEntry}
      (found : table.entry? (.binary sign) = some entry) :
      Advances table state (.operator (.binary sign))
        ((releaseFor entry state.output state.stack).hold (.operator entry))

theorem advance_eq_ok_iff {token : Token} {next : Arrangement} :
    advance table state token = .ok next ↔ Advances table state token next := by
  constructor
  · intro advanced
    cases token with
    | number value =>
        cases advanced
        exact .number value
    | constant =>
        cases advanced
        exact .constant
    | openParen =>
        cases advanced
        exact .openParen
    | closeParen =>
        cases found : closeGroup state.output state.stack with
        | none => simp [advance, step, found] at advanced
        | some closed =>
            rw [advance_closeParen found] at advanced
            cases advanced
            exact .closeParen found
    | operator operation =>
        cases found : table.entry? operation with
        | none => simp [advance, step, found] at advanced
        | some entry =>
            cases operation with
            | function named =>
                rw [advance_function found] at advanced
                cases advanced
                exact .function found
            | factorial =>
                rw [advance_factorial found] at advanced
                cases advanced
                exact .factorial found
            | binary sign =>
                rw [advance_binary found] at advanced
                cases advanced
                exact .binary found
  · intro advances
    cases advances with
    | number | constant | openParen => rfl
    | closeParen found => exact advance_closeParen found
    | function found => exact advance_function found
    | factorial found => exact advance_factorial found
    | binary found => exact advance_binary found

end Arrangement

/-- What a frame is while it is held back. -/
inductive Stands (table : OperatorTable) : Frame → Held → Prop where
  | group : Stands table .group .openParen
  | prefixed {named : ElementaryFunction} {entry : OperatorEntry}
      (found : table.entry? (.function named) = some entry) :
      Stands table (.prefixed named) (.operator entry)
  | infixed {left : Expression} {sign : BinaryOperator} {entry : OperatorEntry}
      (found : table.entry? (.binary sign) = some entry) :
      Stands table (.infixed left sign) (.operator entry)

/-- The tokens of a complete tree that have been let go, the latest first. -/
def letGo (tree : Expression) : List Token := tree.term.postorder.reverse

def letGoBefore : Frame → List Token
  | .infixed left _ => letGo left
  | .group | .prefixed _ => []

/-- An arrangement in which the trees of an assembly have been let go and its frames are held. -/
structure Follows (table : OperatorTable) (state : Assembly) (arrangement : Arrangement) : Prop where
  stands : List.Forall₂ (Stands table) state.frames arrangement.stack
  output : arrangement.output = state.operand.elim [] letGo ++ state.frames.flatMap letGoBefore

@[simp] theorem letGo_function (named : ElementaryFunction) (operand : Expression) :
    letGo (.prefixed named operand) = .operator (.function named) :: letGo operand := by
  simp [letGo, Expression.term, Term.postorder]

@[simp] theorem letGo_infixed (sign : BinaryOperator) (left right : Expression) :
    letGo (.infixed sign left right) =
      .operator (.binary sign) :: (letGo right ++ letGo left) := by
  simp [letGo, Expression.term, Term.postorder]

open Assembly (enclose)

theorem releaseFor_of_stands {sign : BinaryOperator} {incoming : OperatorEntry}
    (known : table.entry? (.binary sign) = some incoming) {frames : List Frame}
    {stack : List Held} (stands : List.Forall₂ (Stands table) frames stack)
    (operand : Expression) :
    let enclosed := enclose (table.bindsBefore · (.binary sign)) operand frames
    ∃ rest, List.Forall₂ (Stands table) enclosed.2 rest ∧
      Arrangement.releaseFor incoming (letGo operand ++ frames.flatMap letGoBefore) stack =
        ⟨letGo enclosed.1 ++ enclosed.2.flatMap letGoBefore, rest⟩ := by
  induction stands generalizing operand with
  | nil => exact ⟨[], .nil, rfl⟩
  | @cons frame held frames stack first stands ih =>
      cases first with
      | group => exact ⟨.openParen :: stack, .cons .group stands, rfl⟩
      | @prefixed named entry found =>
          simp only [enclose, Arrangement.releaseFor, OperatorTable.bindsBefore_eq found known]
          cases entry.bindsBefore incoming with
          | true =>
              simpa [OperatorTable.entry?_operator found, letGoBefore] using
                ih (.prefixed named operand)
          | false => exact ⟨.operator entry :: stack, .cons (.prefixed found) stands, rfl⟩
      | @infixed left outer entry found =>
          simp only [enclose, Arrangement.releaseFor, OperatorTable.bindsBefore_eq found known]
          cases entry.bindsBefore incoming with
          | true =>
              simpa [OperatorTable.entry?_operator found, letGoBefore] using
                ih (.infixed outer left operand)
          | false => exact ⟨.operator entry :: stack, .cons (.infixed found) stands, rfl⟩

theorem closeGroup_of_stands {frames outer : List Frame} {stack : List Held}
    (stands : List.Forall₂ (Stands table) frames stack) {operand inner : Expression}
    (enclosed : enclose (fun _ => true) operand frames = (inner, .group :: outer)) :
    ∃ rest, List.Forall₂ (Stands table) outer rest ∧
      Arrangement.closeGroup (letGo operand ++ frames.flatMap letGoBefore) stack =
        some ⟨letGo inner ++ outer.flatMap letGoBefore, rest⟩ := by
  induction stands generalizing operand with
  | nil => cases enclosed
  | @cons frame held frames stack first stands ih =>
      cases first with
      | group =>
          cases enclosed
          exact ⟨stack, stands, rfl⟩
      | @prefixed named entry found =>
          simpa [OperatorTable.entry?_operator found, letGoBefore, Arrangement.closeGroup] using
            ih enclosed
      | @infixed left sign entry found =>
          simpa [OperatorTable.entry?_operator found, letGoBefore, Arrangement.closeGroup] using
            ih enclosed

theorem finish_of_stands {frames : List Frame} {stack : List Held}
    (stands : List.Forall₂ (Stands table) frames stack) {operand tree : Expression}
    (enclosed : enclose (fun _ => true) operand frames = (tree, [])) :
    Arrangement.finish (letGo operand ++ frames.flatMap letGoBefore) stack =
      .ok tree.term.postorder := by
  induction stands generalizing operand with
  | nil =>
      cases enclosed
      simp [Arrangement.finish, letGo]
  | @cons frame held frames stack first stands ih =>
      cases first with
      | group => cases enclosed
      | @prefixed named entry found =>
          simpa [OperatorTable.entry?_operator found, letGoBefore, Arrangement.finish] using
            ih enclosed
      | @infixed left sign entry found =>
          simpa [OperatorTable.entry?_operator found, letGoBefore, Arrangement.finish] using
            ih enclosed

theorem releaseFunction_of_stands {outer : List Frame} {rest : List Held}
    (stands : List.Forall₂ (Stands table) outer rest) {inner : Expression} {after : Assembly}
    (left : Assembly.leave inner (.group :: outer) = some after) :
    Follows table after
      (Arrangement.releaseFunction ⟨letGo inner ++ outer.flatMap letGoBefore, rest⟩) := by
  cases stands with
  | nil =>
      cases left
      exact ⟨.nil, rfl⟩
  | @cons frame held outer rest first stands =>
      cases first with
      | group =>
          cases left
          exact ⟨.cons .group stands, rfl⟩
      | @prefixed named entry found =>
          cases left
          have before : entry.placement = .before := placement_of_found found
          simp only [Arrangement.releaseFunction, before, if_true,
            OperatorTable.entry?_operator found]
          exact ⟨stands, by simp [letGo, Expression.term, Term.postorder, letGoBefore]⟩
      | @infixed left sign entry found =>
          cases left
          have between : entry.placement = .between := placement_of_found found
          simp only [Arrangement.releaseFunction, between, reduceCtorEq, if_false]
          exact ⟨.cons (.infixed found) stands, rfl⟩

theorem advance_follows {state after : Assembly} {arrangement : Arrangement} {token : Token}
    (follows : Follows table state arrangement) (known : table.Knows [token])
    (stepped : state.step table token = some after) :
    ∃ next, Arrangement.advance table arrangement token = .ok next ∧ Follows table after next := by
  obtain ⟨frames, operand⟩ := state
  obtain ⟨output, stack⟩ := arrangement
  obtain ⟨stands, rfl⟩ := follows
  cases operand with
  | none =>
      cases token with
      | number value =>
          cases stepped
          exact ⟨_, rfl, stands, rfl⟩
      | constant =>
          cases stepped
          exact ⟨_, rfl, stands, rfl⟩
      | openParen =>
          cases stepped
          exact ⟨_, rfl, .cons .group stands, rfl⟩
      | closeParen => cases stepped
      | operator operation =>
          obtain ⟨⟨entry, found⟩, _⟩ := OperatorTable.knows_operator.mp known
          cases operation with
          | function named =>
              cases stepped
              exact ⟨_, Arrangement.advance_function found, .cons (.prefixed found) stands, rfl⟩
          | binary sign => cases stepped
          | factorial => cases stepped
  | some operand =>
      cases token with
      | number value => cases stepped
      | constant => cases stepped
      | openParen => cases stepped
      | closeParen =>
          simp only [Assembly.step] at stepped
          generalize enclosed : enclose (fun _ => true) operand frames = parts at stepped
          obtain ⟨inner, frames'⟩ := parts
          obtain ⟨outer, rfl⟩ := Assembly.group_of_leave stepped
          obtain ⟨rest, restStands, closed⟩ := closeGroup_of_stands stands enclosed
          exact ⟨_, Arrangement.advance_closeParen closed,
            releaseFunction_of_stands restStands stepped⟩
      | operator operation =>
          obtain ⟨⟨entry, found⟩, _⟩ := OperatorTable.knows_operator.mp known
          cases operation with
          | function named => cases stepped
          | binary sign =>
              cases stepped
              obtain ⟨rest, restStands, released⟩ := releaseFor_of_stands found stands operand
              refine ⟨_, Arrangement.advance_binary found, ?_⟩
              simp only [Option.elim_some, released]
              exact ⟨.cons (.infixed found) restStands, by simp [Arrangement.hold, letGoBefore]⟩
          | factorial =>
              cases stepped
              exact ⟨_, Arrangement.advance_factorial found, stands,
                by simp [Arrangement.emit, letGo, Expression.term, Term.postorder]⟩

theorem run_follows {tokens : List Token} {state after : Assembly} {arrangement : Arrangement}
    (follows : Follows table state arrangement) (known : table.Knows tokens)
    (run : tokens.foldlM (Assembly.step table) state = some after) :
    ∃ next, tokens.foldlM (Arrangement.advance table) arrangement = .ok next ∧
      Follows table after next := by
  induction tokens generalizing state arrangement with
  | nil =>
      cases run
      exact ⟨arrangement, rfl, follows⟩
  | cons token rest ih =>
      rw [← List.singleton_append, OperatorTable.knows_append] at known
      rw [List.foldlM_cons, Option.bind_eq_bind, Option.bind_eq_some_iff] at run
      obtain ⟨middle, stepped, run⟩ := run
      obtain ⟨next, advanced, nextFollows⟩ := advance_follows follows known.1 stepped
      obtain ⟨last, rested, lastFollows⟩ := ih nextFollows known.2 run
      exact ⟨last, by rw [List.foldlM_cons, advanced, ok_bind, rested], lastFollows⟩

/-- The postfix order of tokens is the postorder of the tree that is read from them. -/
theorem ofInfix_of_read {tokens : List Token} {tree : Expression} (known : table.Knows tokens)
    (read : Assembly.read table tokens = some tree) :
    ofInfix table tokens = .ok tree.term.postorder := by
  obtain ⟨⟨frames, operand⟩, run, finished⟩ := Option.bind_eq_some_iff.mp read
  obtain ⟨arrangement, advanced, stands, output⟩ :=
    run_follows (⟨.nil, rfl⟩ : Follows table .start .start) known run
  rw [← mapError_eq_ok ConversionError.unplaced, ofInfix_unplaced, advanced, ok_bind,
    output]
  cases operand with
  | none => cases finished
  | some operand =>
      simp only [Assembly.finish] at finished
      split at finished
      · next tree' enclosed =>
          cases finished
          exact finish_of_stands stands enclosed
      · contradiction

/-- Whatever the precedences and associativities, tokens that spell a tree spell one bound tree, and
its postorder is their postfix order. -/
theorem ofInfix_of_spelled {tokens : List Token} (spelled : ∃ tree : Expression, tree.Spells tokens)
    (known : table.Knows tokens) :
    (∃! tree : Expression, tree.Spells tokens ∧ tree.Bound table) ∧
      ∀ tree : Expression, tree.Spells tokens → tree.Bound table →
        ofInfix table tokens = .ok tree.term.postorder := by
  obtain ⟨tree, wellSpelled, rfl⟩ := spelled
  constructor
  · have spells : (tree.regroup table).Spells tree.tokens :=
      ⟨Expression.wellSpelled_regroup wellSpelled, Expression.tokens_regroup tree⟩
    have read := Assembly.read_of_bound spells (Expression.bound_regroup tree)
    refine ⟨tree.regroup table, ⟨spells, Expression.bound_regroup tree⟩, ?_⟩
    intro other both
    obtain ⟨otherSpells, otherBound⟩ := both
    have otherRead := Assembly.read_of_bound otherSpells otherBound
    rw [read] at otherRead
    exact (Option.some.inj otherRead).symm
  · intro other otherSpells otherBound
    exact ofInfix_of_read known (Assembly.read_of_bound otherSpells otherBound)

/-- A table in which a sine takes a whole sum as its operand. -/
def looseSine : OperatorTable := OperatorTable.standard.insert ⟨.function .sin, 1, .right, "sin"⟩

/-- `2 * S 3 + 4` is the double of a sine for such a table. -/
theorem ofInfix_looseSine :
    let tokens : List Token := [.number 2, .operator (.binary .multiply), .operator (.function .sin),
      .number 3, .operator (.binary .add), .number 4]
    let tree : Expression := .infixed .multiply (.number 2)
      (.prefixed .sin (.infixed .add (.number 3) (.number 4)))
    (tree.Spells tokens ∧ looseSine.Knows tokens ∧ tree.Bound looseSine) ∧
      (∃! tree : Expression, tree.Spells tokens ∧ tree.Bound looseSine) ∧
      ofInfix looseSine tokens = .ok tree.term.postorder := by
  intro tokens tree
  have spells : tree.Spells tokens := ⟨⟨trivial, by simp [Expression.tokens], trivial, trivial⟩, rfl⟩
  have known : looseSine.Knows tokens := by
    simp only [tokens, OperatorTable.knows_operator, OperatorTable.knows_cons, ne_eq, reduceCtorEq,
      not_false_eq_true, implies_true, OperatorTable.knows_nil, and_true]
    exact ⟨⟨_, rfl⟩, ⟨_, rfl⟩, ⟨_, rfl⟩⟩
  have bound : tree.Bound looseSine := by
    refine ⟨?_, ?_, trivial, ?_, ?_, ?_, trivial, trivial⟩ <;>
      simp only [Expression.rightSpine, Expression.leftSpine] <;> decide
  obtain ⟨unique, order⟩ := ofInfix_of_spelled ⟨tree, spells⟩ known
  exact ⟨⟨spells, known, bound⟩, unique, order tree spells bound⟩

end Postfix
end InfixCalculator
