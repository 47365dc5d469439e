import InfixCalculator.Proofs.Calculation.Operators
import Mathlib.Data.Nat.Basic
import Mathlib.Order.Compare
import Mathlib.Order.Monotone.Basic

namespace InfixCalculator

/-! What a calculation depends on in its table.

A table is asked which operators it knows, and of an operator that is held back and one that comes
between operands, which binds first. So two tables that answer alike for the operators of a text take
the text to the same tokens and the same value, or fail alike
(`Calculator.evaluate_eq_of_bindAlike`). -/

open Outcome

namespace OperatorTable

/-- Two tables have these entries for one operator that is spelled by one of the symbols. -/
structure Entered (symbols : List Char) (first second : OperatorTable)
    (entry entry' : OperatorEntry) : Prop where
  occurs : entry.symbol ∈ symbols
  found : first.entry? entry.operator = some entry
  found' : second.entry? entry.operator = some entry'

/-- Two tables know the same of the operators with these symbols. Those that stand between operands
associate alike, and what may be held back when one of them comes has a higher, a lower or the same
precedence in both tables. -/
structure BindAlike (symbols : List Char) (first second : OperatorTable) : Prop where
  known : ∀ operation : Operator, operation.symbol ∈ symbols →
    ((first.entry? operation).isSome ↔ (second.entry? operation).isSome)
  associativity : ∀ entry entry', Entered symbols first second entry entry' →
    entry.placement = .between → entry.associativity = entry'.associativity
  precedence : ∀ held held' incoming incoming', Entered symbols first second held held' →
    Entered symbols first second incoming incoming' → held.placement ≠ .after →
    incoming.placement = .between →
    compare held.precedence incoming.precedence = compare held'.precedence incoming'.precedence

variable {symbols : List Char} {first second : OperatorTable} {entry entry' : OperatorEntry}

theorem Entered.operator_eq (entered : Entered symbols first second entry entry') :
    entry'.operator = entry.operator := entry?_operator entered.found'

theorem Entered.placement_eq (entered : Entered symbols first second entry entry') :
    entry'.placement = entry.placement := by
  rw [OperatorEntry.placement, entered.operator_eq, OperatorEntry.placement]

namespace BindAlike

theorem entered (alike : BindAlike symbols first second) {operation : Operator}
    (occurs : operation.symbol ∈ symbols) :
    (first.entry? operation = none ∧ second.entry? operation = none) ∨
      ∃ entry entry', first.entry? operation = some entry ∧
        second.entry? operation = some entry' ∧ Entered symbols first second entry entry' := by
  have known := alike.known operation occurs
  cases found : first.entry? operation with
  | none =>
      rw [found] at known
      exact .inl ⟨rfl, by simpa using known⟩
  | some entry =>
      rw [found] at known
      obtain ⟨entry', found'⟩ := Option.isSome_iff_exists.mp (known.mp rfl)
      have same := entry?_operator found
      subst same
      exact .inr ⟨entry, entry', rfl, found', occurs, found, found'⟩

/-- Only the order of the precedences counts, and how the incoming operator associates. -/
theorem bindsBefore_eq (alike : BindAlike symbols first second)
    {held held' incoming incoming' : OperatorEntry}
    (heldBoth : Entered symbols first second held held') (waits : held.placement ≠ .after)
    (incomingBoth : Entered symbols first second incoming incoming')
    (between : incoming.placement = .between) :
    held.bindsBefore incoming = held'.bindsBefore incoming' := by
  have order := alike.precedence held held' incoming incoming' heldBoth incomingBoth waits between
  have lower : incoming.precedence < held.precedence ↔ incoming'.precedence < held'.precedence := by
    rw [← compare_gt_iff_gt, order, compare_gt_iff_gt]
  have equal : held.precedence = incoming.precedence ↔ held'.precedence = incoming'.precedence := by
    rw [← compare_eq_iff_eq, order, compare_eq_iff_eq]
  have grouping := alike.associativity incoming incoming' incomingBoth between
  rw [Bool.eq_iff_iff]
  simp only [OperatorEntry.bindsBefore, Bool.or_eq_true, Bool.and_eq_true, decide_eq_true_eq,
    beq_iff_eq, lower, equal, grouping]

/-- Names, the order of the entries, how functions associate, all about the factorial, other operators
and the size of the gaps between precedences do not matter. -/
theorem of_renumbered {renumber : Nat → Nat} (increasing : StrictMono renumber)
    (known : ∀ operation : Operator, operation.symbol ∈ symbols →
      ((first.entry? operation).isSome ↔ (second.entry? operation).isSome))
    (renumbered : ∀ entry entry', Entered symbols first second entry entry' →
      entry.placement ≠ .after → entry'.precedence = renumber entry.precedence)
    (associates : ∀ entry entry', Entered symbols first second entry entry' →
      entry.placement = .between → entry.associativity = entry'.associativity) :
    BindAlike symbols first second := by
  refine ⟨known, associates, ?_⟩
  intro held held' incoming incoming' heldBoth incomingBoth waits between
  have notAfter : incoming.placement ≠ .after := by simp [between]
  rw [renumbered held held' heldBoth waits, renumbered incoming incoming' incomingBoth notAfter]
  rw [← cmp_eq_compare, ← cmp_eq_compare]
  exact (increasing.cmp_map_eq held.precedence incoming.precedence).symm

theorem lookup?_operator (alike : BindAlike symbols first second) {character : Char}
    (occurs : character ∈ symbols) :
    (first.lookup? character).map OperatorEntry.operator =
      (second.lookup? character).map OperatorEntry.operator := by
  -- A character that is the symbol of no operator is found in no table.
  have none_of {table : OperatorTable} (none : ∀ operation : Operator, operation.symbol ≠ character) :
      table.lookup? character = .none := by
    cases found : table.lookup? character with
    | none => rfl
    | some entry => exact absurd (lookup?_symbol found) (none entry.operator)
  by_cases spelled : ∃ operation : Operator, operation.symbol = character
  · obtain ⟨operation, rfl⟩ := spelled
    rw [lookup?_symbol_eq, lookup?_symbol_eq]
    rcases alike.entered occurs with ⟨none, none'⟩ | ⟨entry, entry', found, found', both⟩
    · rw [none, none']
    · rw [found, found', Option.map_some, Option.map_some, both.operator_eq]
  · rw [not_exists] at spelled
    rw [none_of spelled, none_of spelled]

end BindAlike
end OperatorTable

open OperatorTable (Entered BindAlike)

theorem Text.visible_subset (text : List Char) : visible text ⊆ text := List.filter_subset_self _

theorem Lexeme.spelling_subset_of_mem {text : List Char} {item : Lexeme × Nat}
    (member : item ∈ ofText text) : item.1.spelling ⊆ Text.visible text := by
  have cutMember : item.1 ∈ cut (Text.visible text) := by
    rw [← map_fst_ofText]
    exact List.mem_map_of_mem member
  intro c spelled
  rw [← spelling_cut (Text.visible text)]
  exact List.mem_flatMap_of_mem cutMember spelled

/-- The symbol of an operator that is read stands in the lexemes. -/
theorem Reads.symbol_mem {table : OperatorTable} {afterOperand : Bool} {lexemes : List Lexeme}
    {tokens : List Token} (reads : Reads table afterOperand lexemes tokens) {operation : Operator}
    (member : .operator operation ∈ tokens) : operation.symbol ∈ lexemes.flatMap Lexeme.spelling := by
  induction reads with
  | done => cases member
  | @token afterOperand lexeme token rest tokens resolved subtracts more ih =>
      rw [List.flatMap_cons, List.mem_append]
      rcases List.mem_cons.mp member with rfl | member
      · left
        cases lexeme with
        | numeral | constant | openParen | closeParen => cases resolved
        | minus =>
            cases resolved
            exact List.mem_singleton.mpr rfl
        | symbol character =>
            obtain ⟨entry, found, same⟩ := Reading.resolve_symbol_eq_ok resolved
            rw [Token.operator.inj same]
            exact List.mem_singleton.mpr (OperatorTable.lookup?_symbol found)
        | stray character => exact absurd resolved Reading.resolve_stray_ne_ok
      · exact .inr (ih member)
  | @signed lexeme token number rest tokens resolved negated more ih =>
      simp only [List.flatMap_cons, List.mem_append]
      rcases List.mem_cons.mp member with rfl | member
      · cases token <;> cases negated
      · exact .inr (.inr (ih member))

theorem Token.symbol_mem_of_read {table : OperatorTable} {text : List Char} {tokens : List Token}
    (made : read table text = .ok tokens) {operation : Operator}
    (member : .operator operation ∈ tokens) : operation.symbol ∈ Text.visible text := by
  have spelled := (read_eq_ok_iff.mp made).symbol_mem member
  rwa [Lexeme.spelling_cut] at spelled

section TwoTables

variable {symbols : List Char} {first second : OperatorTable}

theorem Reading.step_congr (alike : BindAlike symbols first second) {item : Lexeme × Nat}
    (occurs : item.1.spelling ⊆ symbols) (state : Reading) :
    step first state item = step second state item := by
  obtain ⟨lexeme, position⟩ := item
  have resolves : resolve first position lexeme = resolve second position lexeme := by
    cases lexeme with
    | numeral | constant | minus | openParen | closeParen | stray => rfl
    | symbol character =>
        have same := alike.lookup?_operator (occurs (List.mem_singleton.mpr rfl))
        simp only [resolve]
        cases found : first.lookup? character with
        | none =>
            rw [found, Option.map_none, eq_comm, Option.map_eq_none_iff] at same
            rw [same]
        | some entry =>
            rw [found, Option.map_some, eq_comm, Option.map_eq_some_iff] at same
            obtain ⟨entry', found', operator⟩ := same
            simp only [found', operator]
  rw [step, step, resolves]

theorem Token.read_congr {text : List Char} (alike : BindAlike symbols first second)
    (occurs : Text.visible text ⊆ symbols) : read first text = read second text := by
  rw [read, read, foldlM_congr fun item member state =>
    Reading.step_congr alike (List.Subset.trans (Lexeme.spelling_subset_of_mem member) occurs) state]

namespace Postfix

/-- What the two tables hold back for one token. -/
inductive HeldAlike (symbols : List Char) (first second : OperatorTable) : Held → Held → Prop where
  | openParen : HeldAlike symbols first second .openParen .openParen
  | operator {entry entry' : OperatorEntry} (both : Entered symbols first second entry entry')
      (waits : entry.placement ≠ .after) :
      HeldAlike symbols first second (.operator entry) (.operator entry')

namespace Arrangement

/-- Arrangements that have let go of the same, and hold back the same but for the entries. -/
structure Alike (symbols : List Char) (first second : OperatorTable) (state state' : Arrangement) :
    Prop where
  output : state.output = state'.output
  stack : List.Forall₂ (HeldAlike symbols first second) state.stack state'.stack

variable {state state' : Arrangement} {stack stack' : List Held} {entry entry' : OperatorEntry}

theorem Alike.emit (states : Alike symbols first second state state') (token : Token) :
    Alike symbols first second (state.emit token) (state'.emit token) :=
  ⟨congrArg (token :: ·) states.output, states.stack⟩

theorem Alike.hold {held held' : Held} (states : Alike symbols first second state state')
    (both : HeldAlike symbols first second held held') :
    Alike symbols first second (state.hold held) (state'.hold held') :=
  ⟨states.output, .cons both states.stack⟩

theorem releaseFor_alike (alike : BindAlike symbols first second)
    (incoming : Entered symbols first second entry entry') (between : entry.placement = .between)
    (matching : List.Forall₂ (HeldAlike symbols first second) stack stack') (output : List Token) :
    Alike symbols first second (releaseFor entry output stack) (releaseFor entry' output stack') := by
  induction matching generalizing output with
  | nil => exact ⟨rfl, .nil⟩
  | @cons held held' rest rest' both matching ih =>
      cases both with
      | openParen => exact ⟨rfl, .cons .openParen matching⟩
      | operator both waits =>
          rw [releaseFor, releaseFor, ← alike.bindsBefore_eq both waits incoming between,
            both.operator_eq]
          split
          · exact ih _
          · exact ⟨rfl, .cons (.operator both waits) matching⟩

theorem closeGroup_alike (matching : List.Forall₂ (HeldAlike symbols first second) stack stack')
    (output : List Token) :
    (closeGroup output stack = none ∧ closeGroup output stack' = none) ∨
      ∃ closed closed', closeGroup output stack = some closed ∧
        closeGroup output stack' = some closed' ∧ Alike symbols first second closed closed' := by
  induction matching generalizing output with
  | nil => exact .inl ⟨rfl, rfl⟩
  | @cons held held' rest rest' both matching ih =>
      cases both with
      | openParen => exact .inr ⟨⟨output, rest⟩, ⟨output, rest'⟩, rfl, rfl, rfl, matching⟩
      | operator both waits =>
          rw [closeGroup, closeGroup, both.operator_eq]
          exact ih _

theorem Alike.releaseFunction (states : Alike symbols first second state state') :
    Alike symbols first second state.releaseFunction state'.releaseFunction := by
  obtain ⟨output, stack⟩ := state
  obtain ⟨output', stack'⟩ := state'
  obtain ⟨rfl, matching⟩ := states
  cases matching with
  | nil => exact ⟨rfl, .nil⟩
  | cons both matching =>
      cases both with
      | openParen => exact ⟨rfl, .cons .openParen matching⟩
      | operator both waits =>
          simp only [Arrangement.releaseFunction, both.operator_eq, both.placement_eq]
          split
          · exact ⟨rfl, matching⟩
          · exact ⟨rfl, .cons (.operator both waits) matching⟩

theorem Alike.addOperator (alike : BindAlike symbols first second)
    (both : Entered symbols first second entry entry')
    (states : Alike symbols first second state state') :
    Alike symbols first second (state.addOperator entry) (state'.addOperator entry') := by
  rw [Arrangement.addOperator, Arrangement.addOperator, both.placement_eq, both.operator_eq]
  cases placed : entry.placement with
  | before => exact states.hold (.operator both (by simp [placed]))
  | after => exact states.emit _
  | between =>
      rw [← states.output]
      exact (releaseFor_alike alike both placed states.stack _).hold
        (.operator both (by simp [placed]))

theorem step_alike (alike : BindAlike symbols first second) {item : Token × Nat}
    (occurs : ∀ operation, item.1 = .operator operation → operation.symbol ∈ symbols)
    (states : Alike symbols first second state state') :
    Agree (Alike symbols first second) (step first state item) (step second state' item) := by
  obtain ⟨token, index⟩ := item
  cases token with
  | number value => exact .ok (states.emit _)
  | constant => exact .ok (states.emit _)
  | openParen => exact .ok (states.hold .openParen)
  | closeParen =>
      simp only [step, ← states.output]
      rcases closeGroup_alike states.stack state.output with
        ⟨none, none'⟩ | ⟨closed, closed', found, found', alike⟩
      · rw [none, none']
        exact .error _
      · rw [found, found']
        exact .ok alike.releaseFunction
  | operator operation =>
      simp only [step]
      rcases alike.entered (occurs operation rfl) with
        ⟨none, none'⟩ | ⟨entry, entry', found, found', both⟩
      · rw [none, none']
        exact .error _
      · rw [found, found']
        exact .ok (states.addOperator alike both)

theorem finish_alike (matching : List.Forall₂ (HeldAlike symbols first second) stack stack')
    (output : List Token) : finish output stack = finish output stack' := by
  induction matching generalizing output with
  | nil => rfl
  | cons both matching ih =>
      cases both with
      | openParen => rfl
      | operator both waits =>
          rw [finish, finish, both.operator_eq]
          exact ih _

end Arrangement

theorem ofInfix_congr {tokens : List Token} (alike : BindAlike symbols first second)
    (occurs : ∀ operation, .operator operation ∈ tokens → operation.symbol ∈ symbols) :
    ofInfix first tokens = ofInfix second tokens := by
  have follow : ∀ item ∈ tokens.zipIdx, ∀ state state',
      Arrangement.Alike symbols first second state state' →
      Agree (Arrangement.Alike symbols first second) (Arrangement.step first state item)
        (Arrangement.step second state' item) := by
    intro item member state state' states
    refine Arrangement.step_alike alike ?_ states
    intro operation same
    exact occurs operation (same ▸ List.fst_mem_of_mem_zipIdx member)
  have start : Arrangement.Alike symbols first second .start .start := ⟨rfl, .nil⟩
  refine ((Agree.foldlM_of_mem follow start).bind ?_).eq_of_eq
  intro state state' states
  rw [← states.output, Arrangement.finish_alike states.stack]
  exact Agree.refl _

/-- Evaluation asks a table only which operators it knows. -/
theorem evaluate_congr {library : MathLibrary} {tokens : List Token}
    (known : ∀ operation, .operator operation ∈ tokens →
      ((first.entry? operation).isSome ↔ (second.entry? operation).isSome)) :
    evaluate library first tokens = evaluate library second tokens := by
  rw [evaluate, evaluate, foldlM_congr]
  intro token member stack
  cases token with
  | number | constant | openParen | closeParen => rfl
  | operator operation =>
      have same := known operation member
      simp only [step]
      cases found : first.entry? operation <;> cases found' : second.entry? operation
      · rfl
      · simp [found, found'] at same
      · simp [found, found'] at same
      · rfl

end Postfix

namespace Calculator

theorem arrange_congr {text : String} (library : MathLibrary)
    (alike : BindAlike text.toList first second) :
    (⟨first, library⟩ : Calculator).arrange text =
      (⟨second, library⟩ : Calculator).arrange text := by
  have visible : Text.visible (Text.trim text.toList) ⊆ text.toList := by
    rw [Text.visible_trim]
    exact Text.visible_subset _
  simp only [arrange, ← Token.read_congr alike visible]
  split
  · rfl
  · cases made : Token.read first (Text.trim text.toList) with
    | error reason => rfl
    | ok tokens =>
        have occurs : ∀ operation, .operator operation ∈ tokens → operation.symbol ∈ text.toList :=
          fun operation member => visible (Token.symbol_mem_of_read made member)
        rw [mapError_ok, ok_bind, ok_bind, Postfix.ofInfix_congr alike occurs]

theorem symbol_mem_of_arrange {calculator : Calculator} {text : String} {order : List Token}
    (arranged : calculator.arrange text = .ok order) {operation : Operator}
    (member : .operator operation ∈ order) : operation.symbol ∈ text.toList := by
  obtain ⟨tokens, made, arranged⟩ := arrange_eq_ok arranged
  have kept := (Postfix.ofInfix_keeps arranged).1.mem_iff.mp member
  have spelled := Token.symbol_mem_of_read made (List.mem_filter.mp kept).1
  rw [Text.visible_trim] at spelled
  exact Text.visible_subset _ spelled

/-- Calculators whose tables bind the operators of a text alike agree on the text, in its postfix order
as in its value, and in the error if it has none. -/
theorem evaluate_eq_of_bindAlike {text : String} (library : MathLibrary)
    (alike : BindAlike text.toList first second) :
    (⟨first, library⟩ : Calculator).arrange text = (⟨second, library⟩ : Calculator).arrange text ∧
      (⟨first, library⟩ : Calculator).evaluate text =
        (⟨second, library⟩ : Calculator).evaluate text := by
  have arranges := arrange_congr library alike
  refine ⟨arranges, ?_⟩
  rw [evaluate, evaluate, ← arranges]
  cases arranged : (⟨first, library⟩ : Calculator).arrange text with
  | error reason => rfl
  | ok order =>
      rw [ok_bind, ok_bind, value, value, Postfix.evaluate_congr]
      intro operation member
      exact alike.known operation (symbol_mem_of_arrange arranged member)

end Calculator
end TwoTables

/-- The entry with a precedence that leaves gaps, without its name, and with another associativity
where none is asked for. -/
def OperatorEntry.spread (entry : OperatorEntry) : OperatorEntry :=
  match entry.placement with
  | .before => ⟨entry.operator, 40 * entry.precedence + 7, .left, ""⟩
  | .between => ⟨entry.operator, 40 * entry.precedence + 7, entry.associativity, ""⟩
  | .after => ⟨entry.operator, 0, .right, ""⟩

/-- The standard operators backwards, without multiplication. -/
def OperatorTable.sparse : OperatorTable :=
  ofList ((standardEntries.filter (·.symbol != '*')).reverse.map OperatorEntry.spread)

theorem Calculator.evaluate_sparse :
    BindAlike "2^3!r2-S4/5".toList .standard .sparse ∧
      standard.arrange "2^3!r2-S4/5" = (⟨.sparse, .native⟩ : Calculator).arrange "2^3!r2-S4/5" ∧
      standard.evaluate "2^3!r2-S4/5" = (⟨.sparse, .native⟩ : Calculator).evaluate "2^3!r2-S4/5" := by
  have entries : ∀ operation : Operator, operation.symbol ∈ "2^3!r2-S4/5".toList →
      OperatorTable.sparse.entry? operation =
        (OperatorTable.standard.entry? operation).map OperatorEntry.spread := by
    intro operation occurs
    cases operation with
    | function named => cases named <;> rfl
    | binary sign =>
        cases sign with
        | multiply => exact absurd occurs (by decide)
        | add | subtract | divide | power | root => rfl
    | factorial => rfl
  have spread {entry entry' : OperatorEntry}
      (both : Entered "2^3!r2-S4/5".toList .standard .sparse entry entry') :
      entry' = entry.spread := by
    have found' := both.found'
    rw [entries entry.operator both.occurs, both.found] at found'
    exact (Option.some.inj found').symm
  have increasing : StrictMono fun precedence : Nat => 40 * precedence + 7 := by
    intro low high less
    dsimp only
    omega
  have alike : BindAlike "2^3!r2-S4/5".toList .standard .sparse := by
    refine .of_renumbered increasing ?_ ?_ ?_
    · intro operation occurs
      rw [entries operation occurs, Option.isSome_map]
    · intro entry entry' both waits
      rw [spread both, OperatorEntry.spread]
      cases placed : entry.placement with
      | before | between => rfl
      | after => exact absurd placed waits
    · intro entry entry' both between
      rw [spread both, OperatorEntry.spread, between]
  exact ⟨alike, evaluate_eq_of_bindAlike .native alike⟩

end InfixCalculator
