import InfixCalculator.Proofs.Conversion

namespace InfixCalculator

/-! What the conversion keeps.

Each token is let go once: what has been let go and what is held are together the tokens so far,
without the parentheses, and the parentheses held are those still to be closed. So a postfix order has
just the operands and operators of its tokens, and their parentheses are balanced (`ofInfix_keeps`). -/

def Token.isParen : Token → Bool
  | .openParen | .closeParen => true
  | .number _ | .constant | .operator _ => false

/-- The parentheses that are to be closed after a token, if it closes none that was not opened. -/
def Token.nest : Nat → Token → Option Nat
  | depth, .openParen => some (depth + 1)
  | 0, .closeParen => none
  | depth + 1, .closeParen => some depth
  | depth, _ => some depth

namespace Postfix

open Outcome

variable {table : OperatorTable}

def Held.token? : Held → Option Token
  | .openParen => none
  | .operator entry => some (.operator entry.operator)

namespace Arrangement

variable {state next : Arrangement} {token : Token}

/-- What is held and what has been let go, without the parentheses. -/
def contents (state : Arrangement) : List Token :=
  state.stack.filterMap Held.token? ++ state.output

def depth (state : Arrangement) : Nat := state.stack.count .openParen

/-- Some operators are let go from the top of the stack, one after the other. -/
inductive Releases : Arrangement → Arrangement → Prop where
  | done (state : Arrangement) : Releases state state
  | release {top : OperatorEntry} {output : List Token} {rest : List Held} {next : Arrangement}
      (more : Releases ⟨.operator top.operator :: output, rest⟩ next) :
      Releases ⟨output, .operator top :: rest⟩ next

theorem releases_releaseFor (incoming : OperatorEntry) (output : List Token) (stack : List Held) :
    Releases ⟨output, stack⟩ (releaseFor incoming output stack) := by
  fun_induction releaseFor incoming output stack with
  | case1 | case2 | case4 => exact .done _
  | case3 output top rest binds ih => exact .release ih

theorem releases_closeGroup {output : List Token} {stack : List Held} {closed : Arrangement}
    (found : closeGroup output stack = some closed) :
    Releases ⟨output, stack⟩ (closed.hold .openParen) := by
  fun_induction closeGroup output stack with
  | case1 => cases found
  | case2 output rest =>
      cases found
      exact .done _
  | case3 output top rest ih => exact .release (ih found)

theorem releases_releaseFunction (state : Arrangement) : Releases state state.releaseFunction := by
  obtain ⟨output, stack⟩ := state
  unfold releaseFunction
  split
  · next top rest held =>
      cases held
      split
      · exact .release (.done _)
      · exact .done _
  · exact .done _

theorem releases_finish {output order : List Token} {stack : List Held}
    (finished : finish output stack = .ok order) : Releases ⟨output, stack⟩ ⟨order.reverse, []⟩ := by
  fun_induction finish output stack with
  | case1 output =>
      cases finished
      rw [List.reverse_reverse]
      exact .done _
  | case2 => cases finished
  | case3 output top rest ih => exact .release (ih finished)

theorem depth_release (top : OperatorEntry) (output : List Token) (rest : List Held) :
    (⟨.operator top.operator :: output, rest⟩ : Arrangement).depth =
      (⟨output, .operator top :: rest⟩ : Arrangement).depth := by
  simp [depth]

theorem Releases.keeps (releases : Releases state next) :
    next.contents.Perm state.contents ∧ next.depth = state.depth := by
  induction releases with
  | done => exact ⟨.refl _, rfl⟩
  | @release top output rest next more ih =>
      obtain ⟨contents, depth⟩ := ih
      refine ⟨contents.trans ?_, depth.trans (depth_release top output rest)⟩
      simp only [Arrangement.contents, List.filterMap_cons, Held.token?, List.cons_append]
      exact List.perm_middle

theorem Releases.suffix (releases : Releases state next) : next.stack <:+ state.stack := by
  induction releases with
  | done => exact List.suffix_refl _
  | release more ih => exact ih.trans (List.suffix_cons _ _)

theorem closeGroup_keeps {output : List Token} {stack : List Held} {closed : Arrangement}
    (found : closeGroup output stack = some closed) :
    closed.contents.Perm (⟨output, stack⟩ : Arrangement).contents ∧
      (⟨output, stack⟩ : Arrangement).depth = closed.depth + 1 := by
  obtain ⟨contents, depth⟩ := (releases_closeGroup found).keeps
  exact ⟨contents, depth.symm.trans (by simp [Arrangement.depth, hold])⟩

theorem emit_keeps (state : Arrangement) (token : Token) :
    (state.emit token).contents.Perm (token :: state.contents) ∧
      (state.emit token).depth = state.depth :=
  ⟨List.perm_middle, rfl⟩

theorem hold_keeps (state : Arrangement) {entry : OperatorEntry} {operation : Operator}
    (found : table.entry? operation = some entry) :
    (state.hold (.operator entry)).contents.Perm (.operator operation :: state.contents) ∧
      (state.hold (.operator entry)).depth = state.depth := by
  rw [← OperatorTable.entry?_operator found]
  exact ⟨.refl _, by simp [depth, hold]⟩

/-- A step adds the token, unless it is a parenthesis, and follows the nesting. -/
theorem advance_keeps (advances : Advances table state token next) :
    next.contents.Perm ([token].filter (!·.isParen) ++ state.contents) ∧
      token.nest state.depth = some next.depth := by
  cases advances with
  | number value =>
      obtain ⟨contents, depth⟩ := emit_keeps state (.number value)
      exact ⟨contents, congrArg some depth.symm⟩
  | constant =>
      obtain ⟨contents, depth⟩ := emit_keeps state .constant
      exact ⟨contents, congrArg some depth.symm⟩
  | openParen => exact ⟨.refl _, by simp [Token.nest, depth, hold]⟩
  | @closeParen closed found =>
      obtain ⟨contents, depth⟩ := closeGroup_keeps found
      obtain ⟨contents', depth'⟩ := (releases_releaseFunction closed).keeps
      refine ⟨contents'.trans contents, ?_⟩
      change Token.nest (⟨state.output, state.stack⟩ : Arrangement).depth .closeParen = _
      rw [depth, depth']
      rfl
  | function found =>
      obtain ⟨contents, depth⟩ := hold_keeps state found
      exact ⟨contents, congrArg some depth.symm⟩
  | factorial found =>
      obtain ⟨contents, depth⟩ := emit_keeps state (.operator .factorial)
      exact ⟨contents, congrArg some depth.symm⟩
  | @binary sign entry found =>
      obtain ⟨contents, depth⟩ := (releases_releaseFor entry state.output state.stack).keeps
      obtain ⟨contents', depth'⟩ := hold_keeps (releaseFor entry state.output state.stack) found
      exact ⟨contents'.trans (contents.cons _), congrArg some (depth.symm.trans depth'.symm)⟩

theorem advance_knows (advances : Advances table state token next) : table.Knows [token] := by
  cases advances with
  | number | constant | openParen | closeParen => simp [OperatorTable.knows_cons]
  | function found | factorial found | binary found => simp [found]

theorem run_keeps {tokens : List Token} (run : tokens.foldlM (advance table) state = .ok next) :
    next.contents.Perm (tokens.filter (!·.isParen) ++ state.contents) ∧
      tokens.foldlM Token.nest state.depth = some next.depth := by
  induction tokens generalizing state with
  | nil =>
      cases run
      exact ⟨.refl _, rfl⟩
  | cons token rest ih =>
      obtain ⟨middle, advanced, run⟩ := foldlM_cons_eq_ok.mp run
      obtain ⟨contents, depth⟩ := advance_keeps (advance_eq_ok_iff.mp advanced)
      obtain ⟨contents', depth'⟩ := ih run
      constructor
      · refine contents'.trans ((contents.append_left _).trans ?_)
        have split : (token :: rest).filter (!·.isParen) =
            [token].filter (!·.isParen) ++ rest.filter (!·.isParen) := List.filter_append [token] rest
        rw [split, ← List.append_assoc]
        exact List.perm_append_comm.append_right _
      · rw [List.foldlM_cons, depth]
        exact depth'

theorem finish_keeps {output order : List Token} {stack : List Held}
    (finished : finish output stack = .ok order) :
    order.Perm (⟨output, stack⟩ : Arrangement).contents ∧
      (⟨output, stack⟩ : Arrangement).depth = 0 := by
  obtain ⟨contents, depth⟩ := (releases_finish finished).keeps
  exact ⟨(List.reverse_perm order).symm.trans contents, depth.symm⟩

end Arrangement

theorem Arrangement.run_knows {tokens : List Token} {state next : Arrangement}
    (run : tokens.foldlM (advance table) state = .ok next) : table.Knows tokens := by
  induction tokens generalizing state with
  | nil => exact OperatorTable.knows_nil
  | cons token rest ih =>
      obtain ⟨middle, advanced, run⟩ := foldlM_cons_eq_ok.mp run
      rw [← List.singleton_append, OperatorTable.knows_append]
      exact ⟨advance_knows (advance_eq_ok_iff.mp advanced), ih run⟩

/-- A postfix order has the tokens without the parentheses, and these are balanced. -/
theorem ofInfix_keeps {tokens order : List Token} (arranged : ofInfix table tokens = .ok order) :
    order.Perm (tokens.filter (!·.isParen)) ∧ tokens.foldlM Token.nest 0 = some 0 := by
  rw [← mapError_eq_ok ConversionError.unplaced, ofInfix_unplaced] at arranged
  obtain ⟨last, run, finished⟩ := bind_eq_ok.mp arranged
  obtain ⟨contents, depth⟩ := Arrangement.run_keeps run
  obtain ⟨contents', depth'⟩ := Arrangement.finish_keeps finished
  exact ⟨contents'.trans (contents.trans (by simp [Arrangement.contents, Arrangement.start])),
    depth.trans (congrArg some depth')⟩

theorem ofInfix_knows {tokens order : List Token} (arranged : ofInfix table tokens = .ok order) :
    table.Knows order := by
  obtain ⟨kept, _⟩ := ofInfix_keeps arranged
  rw [← mapError_eq_ok ConversionError.unplaced, ofInfix_unplaced] at arranged
  obtain ⟨last, run, _⟩ := bind_eq_ok.mp arranged
  intro operation member
  exact Arrangement.run_knows run operation (List.mem_filter.mp (kept.mem_iff.mp member)).1

end Postfix
end InfixCalculator
