import InfixCalculator.Proofs.Conversion.Contents
import InfixCalculator.Proofs.Outcome.First

namespace InfixCalculator.Postfix

/-! The first fault of an expression.

A token is at fault if it is an operator that the table lacks or a closing parenthesis that closes
none, and the conversion stops at the first such token. Parentheses that are left open count only if
there is none (`ofInfix_faults`). -/

open Outcome

variable {table : OperatorTable}

/-- The fault of the token at an index, and the error that it makes. -/
inductive Fault (table : OperatorTable) (tokens : List Token) (index : Nat) :
    ConversionError → Prop where
  | unknownOperator {operation : Operator} (here : tokens[index]? = some (.operator operation))
      (unknown : table.entry? operation = none) :
      Fault table tokens index (.unknownOperator operation index)
  | unopenedParen (here : tokens[index]? = some .closeParen)
      (unopened : (tokens.take (index + 1)).count .openParen <
        (tokens.take (index + 1)).count .closeParen) :
      Fault table tokens index (.unopenedParen index)

def Faultless (table : OperatorTable) (tokens : List Token) : Prop :=
  ∀ index reason, ¬Fault table tokens index reason

/-- The error is that of the fault with the least index. -/
def FirstFault (table : OperatorTable) (tokens : List Token) (reason : ConversionError) : Prop :=
  ∃ index, Fault table tokens index reason ∧
    ∀ earlier < index, ∀ other, ¬Fault table tokens earlier other

namespace Fault

variable {tokens : List Token} {index : Nat} {reason other : ConversionError}

theorem lt_length (fault : Fault table tokens index reason) : index < tokens.length := by
  cases fault with
  | unknownOperator here | unopenedParen here => exact (List.getElem?_eq_some_iff.mp here).1

theorem unique (first : Fault table tokens index reason) (second : Fault table tokens index other) :
    reason = other := by
  cases first with
  | unknownOperator here =>
      cases second with
      | unknownOperator here' => simp_all
      | unopenedParen here' => simp_all
  | unopenedParen here =>
      cases second with
      | unknownOperator here' => simp_all
      | unopenedParen => rfl

/-- A fault depends on the tokens up to its index only. -/
theorem of_take {others : List Token} (taken : tokens.take (index + 1) = others.take (index + 1))
    (fault : Fault table tokens index reason) : Fault table others index reason := by
  have same : tokens[index]? = others[index]? := by
    rw [← List.getElem?_take_of_lt (Nat.lt_succ_self index), taken,
      List.getElem?_take_of_lt (Nat.lt_succ_self index)]
  cases fault with
  | unknownOperator here unknown => exact .unknownOperator (same ▸ here) unknown
  | unopenedParen here unopened => exact .unopenedParen (same ▸ here) (taken ▸ unopened)

theorem append_iff (before : index < tokens.length) (more : List Token) :
    Fault table (tokens ++ more) index reason ↔ Fault table tokens index reason := by
  have taken : (tokens ++ more).take (index + 1) = tokens.take (index + 1) :=
    List.take_append_of_le_length before
  exact ⟨of_take taken, of_take taken.symm⟩

end Fault

variable {tokens : List Token} {reason other : ConversionError}

theorem FirstFault.unique (first : FirstFault table tokens reason)
    (second : FirstFault table tokens other) : reason = other :=
  First.unique first second fun _ _ _ => Fault.unique

theorem FirstFault.append (first : FirstFault table tokens reason) (more : List Token) :
    FirstFault table (tokens ++ more) reason := by
  obtain ⟨index, fault, least⟩ := first
  have before := fault.lt_length
  refine ⟨index, (Fault.append_iff before more).mpr fault, ?_⟩
  intro earlier less other fault'
  exact least earlier less other ((Fault.append_iff (by omega) more).mp fault')

namespace Arrangement

variable {state next : Arrangement} {token : Token} {index : Nat}

theorem step_eq_ok_iff : step table state (token, index) = .ok next ↔
    Advances table state token next := by
  rw [← advance_eq_ok_iff, advance_eq state (token, index), mapError_eq_ok]

theorem closeGroup_eq_none_iff {output : List Token} {stack : List Held} :
    closeGroup output stack = none ↔ (⟨output, stack⟩ : Arrangement).depth = 0 := by
  induction stack generalizing output with
  | nil => simp [closeGroup, depth]
  | cons held rest ih =>
      cases held with
      | openParen => simp [closeGroup, depth]
      | operator top => rw [closeGroup, ih, depth_release]

/-- The two steps that fail. -/
theorem step_eq_error_iff : step table state (token, index) = .error reason ↔
    (∃ operation, token = .operator operation ∧ table.entry? operation = none ∧
        reason = .unknownOperator operation index) ∨
      (token = .closeParen ∧ state.depth = 0 ∧ reason = .unopenedParen index) := by
  cases token with
  | number | constant | openParen => simp [step]
  | closeParen =>
      have unopened := @closeGroup_eq_none_iff state.output state.stack
      cases found : closeGroup state.output state.stack with
      | none => simp [step, found, unopened.mp found, eq_comm]
      | some closed =>
          have opened : ¬state.depth = 0 := fun empty => by simp [unopened.mpr empty] at found
          simp [step, found, opened]
  | operator operation =>
      cases found : table.entry? operation with
      | none => simp [step, found, eq_comm]
      | some entry => simp [step, found]

/-- Every operator held back has the entry that the table has for it. -/
def Resolved (table : OperatorTable) (state : Arrangement) : Prop :=
  ∀ entry, .operator entry ∈ state.stack → table.entry? entry.operator = some entry

theorem Resolved.release (resolved : state.Resolved table) (releases : Releases state next) :
    next.Resolved table :=
  fun entry member => resolved entry (releases.suffix.subset member)

theorem Resolved.hold (resolved : state.Resolved table) {operation : Operator}
    {entry : OperatorEntry} (found : table.entry? operation = some entry) :
    (state.hold (.operator entry)).Resolved table := by
  intro other member
  rcases List.mem_cons.mp member with same | member
  · cases same
    rw [OperatorTable.entry?_operator found, found]
  · exact resolved other member

theorem resolved_hold_openParen : (state.hold .openParen).Resolved table ↔ state.Resolved table := by
  simp [Resolved, Arrangement.hold]

theorem Resolved.advance (resolved : state.Resolved table)
    (advances : Advances table state token next) : next.Resolved table := by
  cases advances with
  | number | constant | factorial => exact resolved
  | openParen => exact resolved_hold_openParen.mpr resolved
  | closeParen found =>
      have closed := resolved_hold_openParen.mp (resolved.release (releases_closeGroup found))
      exact closed.release (releases_releaseFunction _)
  | function found => exact resolved.hold found
  | binary found => exact (resolved.release (releases_releaseFor _ _ _)).hold found

theorem nest_count {depth after : Nat} (nested : token.nest depth = some after) :
    after + [token].count .closeParen = depth + [token].count .openParen := by
  cases token with
  | number | constant | operator =>
      cases nested
      rfl
  | openParen =>
      cases nested
      rfl
  | closeParen =>
      cases depth with
      | zero => cases nested
      | succ depth =>
          cases nested
          rfl

/-- As the parentheses held are those that are open, a step fails just if its token is at fault. -/
theorem fault_last_iff (counted : state.depth + tokens.count .closeParen = tokens.count .openParen) :
    Fault table (tokens ++ [token]) tokens.length reason ↔
      step table state (token, tokens.length) = .error reason := by
  have here : (tokens ++ [token])[tokens.length]? = some token := List.getElem?_concat_length
  have whole : (tokens ++ [token]).take (tokens.length + 1) = tokens ++ [token] :=
    List.take_of_length_le (by simp)
  -- A closing parenthesis that is the last token closes none just if none is held.
  have opens : [Token.closeParen].count .openParen = 0 := rfl
  have closes : [Token.closeParen].count .closeParen = 1 := rfl
  rw [step_eq_error_iff]
  constructor
  · intro fault
    cases fault with
    | unknownOperator here' unknown =>
        rw [here, Option.some.injEq] at here'
        exact .inl ⟨_, here', unknown, rfl⟩
    | unopenedParen here' unopened =>
        rw [here, Option.some.injEq] at here'
        subst here'
        rw [whole, List.count_append, List.count_append, opens, closes] at unopened
        exact .inr ⟨rfl, by omega, rfl⟩
  · rintro (⟨operation, rfl, unknown, rfl⟩ | ⟨rfl, empty, rfl⟩)
    · exact .unknownOperator here unknown
    · refine .unopenedParen here ?_
      rw [whole, List.count_append, List.count_append, opens, closes]
      omega

theorem run_concat (tokens : List Token) (token : Token) :
    (tokens ++ [token]).zipIdx.foldlM (step table) start =
      tokens.zipIdx.foldlM (step table) start >>= fun state =>
        step table state (token, tokens.length) := by
  simp [List.zipIdx_append, List.foldlM_append]

/-- A run that succeeds has met no fault, and it holds the parentheses that are open. -/
theorem run_faultless (run : tokens.zipIdx.foldlM (step table) start = .ok state) :
    Faultless table tokens ∧
      state.depth + tokens.count .closeParen = tokens.count .openParen ∧ state.Resolved table := by
  -- The tokens are taken off the end, where the index of a step is the number of tokens before it.
  induction tokens using List.reverseRecOn generalizing state with
  | nil =>
      cases run
      exact ⟨fun index reason fault => by simpa using fault.lt_length, rfl, by simp [Resolved, start]⟩
  | append_singleton tokens token ih =>
      rw [run_concat] at run
      obtain ⟨before, run, stepped⟩ := bind_eq_ok.mp run
      obtain ⟨faultless, counted, resolved⟩ := ih run
      have advances := step_eq_ok_iff.mp stepped
      have nested := nest_count (advance_keeps advances).2
      refine ⟨?_, ?_, resolved.advance advances⟩
      · intro index reason fault
        have length := fault.lt_length
        rw [List.length_append, List.length_singleton] at length
        rcases Nat.lt_or_eq_of_le (Nat.le_of_lt_succ length) with less | rfl
        · exact faultless index reason ((Fault.append_iff less [token]).mp fault)
        · rw [fault_last_iff counted, stepped] at fault
          cases fault
      · rw [List.count_append, List.count_append]
        omega

/-- A run that fails blames the first fault. -/
theorem run_firstFault (run : tokens.zipIdx.foldlM (step table) start = .error reason) :
    FirstFault table tokens reason := by
  induction tokens using List.reverseRecOn with
  | nil => cases run
  | append_singleton tokens token ih =>
      rw [run_concat] at run
      rcases bind_eq_error.mp run with failed | ⟨before, run, failed⟩
      · exact (ih failed).append [token]
      · obtain ⟨faultless, counted, _⟩ := run_faultless run
        refine ⟨tokens.length, (fault_last_iff counted).mpr failed, ?_⟩
        intro earlier less other fault
        exact faultless earlier other ((Fault.append_iff less [token]).mp fault)

theorem finish_eq_error {output : List Token} {stack : List Held}
    (failed : finish output stack = .error reason) :
    reason = .unclosedParen ∧ 0 < (⟨output, stack⟩ : Arrangement).depth := by
  induction stack generalizing output with
  | nil => cases failed
  | cons held rest ih =>
      cases held with
      | openParen =>
          cases failed
          exact ⟨rfl, by simp [depth]⟩
      | operator top =>
          rw [← depth_release]
          exact ih failed

end Arrangement

theorem faultless_of_ofInfix {order : List Token} (arranged : ofInfix table tokens = .ok order) :
    Faultless table tokens ∧ tokens.count .openParen = tokens.count .closeParen := by
  obtain ⟨state, run, finished⟩ := bind_eq_ok.mp arranged
  obtain ⟨faultless, counted, _⟩ := Arrangement.run_faultless run
  have closed : state.depth = 0 := (Arrangement.finish_keeps finished).2
  exact ⟨faultless, by omega⟩

/-- Why a conversion fails: the first fault, or else parentheses that are left open. -/
inductive Blames (table : OperatorTable) (tokens : List Token) : ConversionError → Prop where
  | fault {reason : ConversionError} (first : FirstFault table tokens reason) :
      Blames table tokens reason
  | unclosedParen (faultless : Faultless table tokens)
      (unclosed : tokens.count .closeParen < tokens.count .openParen) :
      Blames table tokens .unclosedParen

theorem blames_of_ofInfix (failed : ofInfix table tokens = .error reason) :
    Blames table tokens reason := by
  rcases bind_eq_error.mp failed with run | ⟨state, run, unfinished⟩
  · exact .fault (Arrangement.run_firstFault run)
  · obtain ⟨faultless, counted, _⟩ := Arrangement.run_faultless run
    obtain ⟨rfl, opened⟩ := Arrangement.finish_eq_error unfinished
    change 0 < state.depth at opened
    exact .unclosedParen faultless (by omega)

theorem FirstFault.not_faultless (first : FirstFault table tokens reason) :
    ¬Faultless table tokens := by
  obtain ⟨index, fault, _⟩ := first
  exact fun faultless => faultless index reason fault

theorem Blames.unique (first : Blames table tokens reason) (second : Blames table tokens other) :
    reason = other := by
  cases first with
  | fault first =>
      cases second with
      | fault second => exact first.unique second
      | unclosedParen faultless => exact absurd faultless first.not_faultless
  | unclosedParen faultless =>
      cases second with
      | fault second => exact absurd faultless second.not_faultless
      | unclosedParen => rfl

theorem Blames.not_balanced (blames : Blames table tokens reason) :
    ¬(Faultless table tokens ∧ tokens.count .openParen = tokens.count .closeParen) := by
  rintro ⟨faultless, balanced⟩
  cases blames with
  | fault first => exact first.not_faultless faultless
  | unclosedParen _ unclosed => omega

/-- A conversion fails for the first fault, or for parentheses left open if there is no fault, and
succeeds otherwise. What it holds back at any time is in the table. -/
theorem ofInfix_faults (table : OperatorTable) (tokens : List Token) :
    (∀ reason, ofInfix table tokens = .error reason ↔ Blames table tokens reason) ∧
      ((∃ order, ofInfix table tokens = .ok order) ↔
        Faultless table tokens ∧ tokens.count .openParen = tokens.count .closeParen) ∧
      ∀ index state, (tokens.take index).zipIdx.foldlM (Arrangement.step table) .start = .ok state →
        state.Resolved table := by
  have converse {reason} (blames : Blames table tokens reason) :
      ofInfix table tokens = .error reason := by
    cases outcome : ofInfix table tokens with
    | error reason' => rw [(blames_of_ofInfix outcome).unique blames]
    | ok order => exact absurd (faultless_of_ofInfix outcome) blames.not_balanced
  refine ⟨fun reason => ⟨blames_of_ofInfix, converse⟩, ⟨?_, ?_⟩, ?_⟩
  · rintro ⟨order, arranged⟩
    exact faultless_of_ofInfix arranged
  · intro balanced
    cases outcome : ofInfix table tokens with
    | ok order => exact ⟨order, rfl⟩
    | error reason => exact absurd balanced (blames_of_ofInfix outcome).not_balanced
  · intro index state run
    exact (Arrangement.run_faultless run).2.2

end InfixCalculator.Postfix
