import InfixCalculator.Proofs.Calculation
import InfixCalculator.Proofs.ReadBack

namespace InfixCalculator

/-! What stands in parentheses.

Each stage takes a group by itself. A sign does not reach into it, an operator before it is not let go
within it, and what was let go before it stays as it is. So a group can be replaced by its value,
whatever stands around it (`Calculator.evaluate_group`). -/

open Outcome

def Lexeme.parenthesized (inner : List Lexeme) : List Lexeme :=
  .openParen :: inner ++ [.closeParen]

def Token.parenthesized (inner : List Token) : List Token :=
  .openParen :: inner ++ [.closeParen]

namespace Reading

variable {table : OperatorTable} {base base' : List Token} {state state' : Reading}

/-- Two states with the same latest tokens on different earlier ones. -/
def Alike (base base' : List Token) (state state' : Reading) : Prop :=
  ∃ later sign, state = ⟨later ++ base, sign⟩ ∧ state' = ⟨later ++ base', sign⟩

theorem Alike.advance {latest : Token} (lexeme : Lexeme)
    (alike : Alike (latest :: base) (latest :: base') state state') :
    Agree (Alike (latest :: base) (latest :: base')) (advance table state lexeme)
      (advance table state' lexeme) := by
  have before : state.afterOperand = state'.afterOperand := by
    obtain ⟨later, sign, rfl, rfl⟩ := alike
    cases later <;> rfl
  obtain ⟨later, sign, rfl, rfl⟩ := alike
  rw [Reading.advance, Reading.advance, step, step, ← before]
  split
  · exact .ok ⟨later, some 0, rfl, rfl⟩
  · cases resolve table 0 lexeme with
    | error reason => exact .error reason
    | ok token =>
        cases sign with
        | none => exact .ok ⟨token :: later, none, rfl, rfl⟩
        | some position =>
            simp only [add]
            cases token.negated? with
            | none => exact .error _
            | some number => exact .ok ⟨number :: later, none, rfl, rfl⟩

theorem run_group {inner : List Lexeme} {tokens : List Token}
    (reads : Reads table false inner tokens) (earlier : List Token) :
    (Lexeme.parenthesized inner).foldlM (Reading.advance table) ⟨earlier, none⟩ =
      .ok ⟨.closeParen :: (tokens.reverse ++ .openParen :: earlier), none⟩ := by
  have opened : Reading.advance table ⟨earlier, none⟩ .openParen =
      .ok ⟨.openParen :: earlier, none⟩ := advance_token (by simp)
  have inside := run_of_reads reads
    (show afterOperand ⟨.openParen :: earlier, none⟩ = false from rfl)
  have closed : Reading.advance table ⟨tokens.reverse ++ .openParen :: earlier, none⟩ .closeParen =
      .ok ⟨.closeParen :: (tokens.reverse ++ .openParen :: earlier), none⟩ := advance_token (by simp)
  rw [Lexeme.parenthesized, List.foldlM_append, List.foldlM_cons, opened, ok_bind, inside, ok_bind,
    List.foldlM_cons, closed]
  rfl

theorem run_group_signed (inner : List Lexeme) (earlier : List Token) (position : Nat) :
    (Lexeme.parenthesized inner).foldlM (Reading.advance table) ⟨earlier, some position⟩ =
      .error (.misplacedSign .openParen position) := by
  rw [Lexeme.parenthesized, List.cons_append, List.foldlM_cons, advance_signed]
  rfl

end Reading

/-- Tokens that are alike but for what stands in one group. -/
def Around (inner inner' tokens tokens' : List Token) : Prop :=
  ∃ before after, tokens = before ++ Token.parenthesized inner ++ after ∧
    tokens' = before ++ Token.parenthesized inner' ++ after

theorem Token.ofLexemes_group {table : OperatorTable} {inner inner' : List Lexeme}
    {tokens tokens' : List Token} (reads : Reads table false inner tokens)
    (reads' : Reads table false inner' tokens') (before after : List Lexeme) :
    Agree (Around tokens tokens')
      (ofLexemes table (before ++ Lexeme.parenthesized inner ++ after))
      (ofLexemes table (before ++ Lexeme.parenthesized inner' ++ after)) := by
  rw [ofLexemes, ofLexemes, List.foldlM_append, List.foldlM_append, List.foldlM_append,
    List.foldlM_append]
  cases before.foldlM (Reading.advance table) Reading.start with
  | error reason => exact .error reason
  | ok state =>
      obtain ⟨earlier, sign⟩ := state
      cases sign with
      | some position =>
          rw [ok_bind, Reading.run_group_signed, ok_bind, Reading.run_group_signed]
          exact .error _
      | none =>
          rw [ok_bind, Reading.run_group reads, ok_bind, ok_bind, Reading.run_group reads', ok_bind]
          have follow := fun state state' lexeme => @Reading.Alike.advance table
            (tokens.reverse ++ .openParen :: earlier) (tokens'.reverse ++ .openParen :: earlier)
            state state' .closeParen lexeme
          refine (Agree.foldlM follow after ⟨[], none, rfl, rfl⟩).bind ?_
          intro left right alike
          obtain ⟨later, sign, rfl, rfl⟩ := alike
          cases sign with
          | some position => exact .error _
          | none => exact .ok ⟨earlier.reverse, later.reverse, by simp [Token.parenthesized],
              by simp [Token.parenthesized]⟩

namespace Postfix.Arrangement

variable {table : OperatorTable} {state : Arrangement}

/-- The state with these tokens let go before. -/
def onto (base : List Token) (state : Arrangement) : Arrangement :=
  ⟨state.output ++ base, state.stack⟩

/-- The state with these held below an opening parenthesis. -/
def above (below : List Held) (state : Arrangement) : Arrangement :=
  ⟨state.output, state.stack ++ .openParen :: below⟩

theorem releaseFor_onto (incoming : OperatorEntry) (base output : List Token) (stack : List Held) :
    releaseFor incoming (output ++ base) stack = (releaseFor incoming output stack).onto base := by
  induction stack generalizing output with
  | nil => rfl
  | cons held rest ih =>
      cases held with
      | openParen => rfl
      | operator top =>
          simp only [releaseFor]
          split
          · exact ih (.operator top.operator :: output)
          · rfl

theorem closeGroup_onto (base output : List Token) (stack : List Held) :
    closeGroup (output ++ base) stack = (closeGroup output stack).map (onto base) := by
  induction stack generalizing output with
  | nil => rfl
  | cons held rest ih =>
      cases held with
      | openParen => rfl
      | operator top => exact ih (.operator top.operator :: output)

theorem releaseFunction_onto (base : List Token) (state : Arrangement) :
    (state.onto base).releaseFunction = state.releaseFunction.onto base := by
  obtain ⟨output, stack⟩ := state
  cases stack with
  | nil => rfl
  | cons held rest =>
      cases held with
      | openParen => rfl
      | operator top =>
          simp only [onto, releaseFunction]
          split <;> rfl

theorem finish_onto (base output : List Token) (stack : List Held) :
    finish (output ++ base) stack = (finish output stack).map (base.reverse ++ ·) := by
  induction stack generalizing output with
  | nil => simp [finish]
  | cons held rest ih =>
      cases held with
      | openParen => rfl
      | operator top => exact ih (.operator top.operator :: output)

/-- What has been let go has no part in a step. -/
theorem advance_onto (base : List Token) (state : Arrangement) (token : Token) :
    advance table (state.onto base) token = (advance table state token).map (onto base) := by
  obtain ⟨output, stack⟩ := state
  cases token with
  | number | constant | openParen => rfl
  | closeParen =>
      simp only [advance, step, onto, closeGroup_onto]
      cases closeGroup output stack with
      | none => rfl
      | some closed => exact congrArg Except.ok (releaseFunction_onto base closed)
  | operator operation =>
      cases found : table.entry? operation with
      | none => simp only [advance, step, found, map_error]
      | some entry =>
          cases operation with
          | function named => rw [advance_function found, advance_function found]; rfl
          | factorial => rw [advance_factorial found, advance_factorial found]; rfl
          | binary sign =>
              rw [advance_binary found, advance_binary found]
              simp only [onto, releaseFor_onto, map_ok]
              rfl

theorem run_onto (base : List Token) (state : Arrangement) (tokens : List Token) :
    tokens.foldlM (advance table) (state.onto base) =
      (tokens.foldlM (advance table) state).map (onto base) := by
  have folded := foldlM_mapped (advance table) (advance table) (onto base) id id
    (fun state token => by rw [mapError_id]; exact advance_onto base state token) tokens state
  rwa [List.map_id, mapError_id] at folded

theorem releaseFor_above (incoming : OperatorEntry) (below : List Held) (output : List Token)
    (stack : List Held) :
    releaseFor incoming output (stack ++ .openParen :: below) =
      (releaseFor incoming output stack).above below := by
  induction stack generalizing output with
  | nil => rfl
  | cons held rest ih =>
      cases held with
      | openParen => rfl
      | operator top =>
          simp only [List.cons_append, releaseFor]
          split
          · exact ih (.operator top.operator :: output)
          · rfl

theorem closeGroup_above (below : List Held) {output : List Token} {stack : List Held}
    {closed : Arrangement} (found : closeGroup output stack = some closed) :
    closeGroup output (stack ++ .openParen :: below) = some (closed.above below) := by
  induction stack generalizing output with
  | nil => cases found
  | cons held rest ih =>
      cases held with
      | openParen =>
          cases found
          rfl
      | operator top => exact ih found

theorem releaseFunction_above (below : List Held) (state : Arrangement) :
    (state.above below).releaseFunction = state.releaseFunction.above below := by
  obtain ⟨output, stack⟩ := state
  cases stack with
  | nil => rfl
  | cons held rest =>
      cases held with
      | openParen => rfl
      | operator top =>
          simp only [above, List.cons_append, releaseFunction]
          split <;> rfl

/-- What is held below an opening parenthesis has no part in a step that succeeds without it. -/
theorem advance_above (below : List Held) {next : Arrangement} {token : Token}
    (advances : Advances table state token next) :
    Advances table (state.above below) token (next.above below) := by
  cases advances with
  | number value => exact .number value
  | constant => exact .constant
  | openParen => exact .openParen
  | @closeParen closed found =>
      rw [← releaseFunction_above]
      exact .closeParen (closeGroup_above below found)
  | function found => exact .function found
  | factorial found => exact .factorial found
  | @binary sign entry found =>
      have advances : Advances table (state.above below) _ _ := .binary found
      rw [above, releaseFor_above] at advances
      exact advances

theorem run_above (below : List Held) {next : Arrangement} {tokens : List Token}
    (run : tokens.foldlM (advance table) state = .ok next) :
    tokens.foldlM (advance table) (state.above below) = .ok (next.above below) := by
  induction tokens generalizing state with
  | nil =>
      cases run
      rfl
  | cons token rest ih =>
      obtain ⟨middle, advanced, run⟩ := foldlM_cons_eq_ok.mp run
      have above := advance_above below (advance_eq_ok_iff.mp advanced)
      exact foldlM_cons_eq_ok.mpr ⟨middle.above below, advance_eq_ok_iff.mpr above, ih run⟩

theorem closeGroup_of_finish (below : List Held) {output order : List Token} {stack : List Held}
    (finished : finish output stack = .ok order) :
    closeGroup output (stack ++ .openParen :: below) = some ⟨order.reverse, below⟩ := by
  induction stack generalizing output with
  | nil =>
      cases finished
      rw [List.reverse_reverse]
      rfl
  | cons held rest ih =>
      cases held with
      | openParen => cases finished
      | operator top => exact ih finished

/-- A group lets go of the postfix order of what stands in it, and of the function before it. -/
theorem run_parenthesized {inner order : List Token} (arranged : ofInfix table inner = .ok order)
    (state : Arrangement) :
    (Token.parenthesized inner).foldlM (advance table) state =
      .ok ((⟨[], state.stack⟩ : Arrangement).releaseFunction.onto (order.reverse ++ state.output)) := by
  rw [← mapError_eq_ok ConversionError.unplaced, ofInfix_unplaced] at arranged
  obtain ⟨last, run, finished⟩ := bind_eq_ok.mp arranged
  obtain ⟨output, stack⟩ := state
  have inside : inner.foldlM (advance table) ⟨output, .openParen :: stack⟩ =
      .ok ((last.above stack).onto output) := by
    rw [← map_ok, ← run_above stack run, ← run_onto]
    rfl
  have closed : closeGroup (last.output ++ output) (last.stack ++ .openParen :: stack) =
      some ⟨order.reverse ++ output, stack⟩ := by
    rw [closeGroup_onto, closeGroup_of_finish stack finished]
    rfl
  rw [Token.parenthesized, List.foldlM_append, List.foldlM_cons]
  change (inner.foldlM (advance table) ⟨output, .openParen :: stack⟩ >>= _) = _
  rw [inside, ok_bind, List.foldlM_cons]
  change advance table ⟨last.output ++ output, last.stack ++ .openParen :: stack⟩ .closeParen >>=
    _ = _
  rw [advance_closeParen closed, ok_bind, ← releaseFunction_onto]
  rfl

end Postfix.Arrangement

open Postfix Postfix.Arrangement

theorem Postfix.ofInfix_around {table : OperatorTable} {inner inner' order order' : List Token}
    (arranged : ofInfix table inner = .ok order) (arranged' : ofInfix table inner' = .ok order')
    {tokens tokens' : List Token} (around : Around inner inner' tokens tokens') :
    Agree (fun whole whole' => ∃ first last, whole = first ++ order ++ last ∧
        whole' = first ++ order' ++ last)
      ((ofInfix table tokens).mapError ConversionError.unplaced)
      ((ofInfix table tokens').mapError ConversionError.unplaced) := by
  obtain ⟨before, after, rfl, rfl⟩ := around
  rw [ofInfix_unplaced, ofInfix_unplaced, List.foldlM_append, List.foldlM_append,
    List.foldlM_append, List.foldlM_append]
  cases before.foldlM (advance table) start with
  | error reason => exact .error reason
  | ok state =>
      rw [ok_bind, ok_bind, run_parenthesized arranged, run_parenthesized arranged', ok_bind, ok_bind,
        run_onto, run_onto]
      cases after.foldlM (advance table) (⟨[], state.stack⟩ : Arrangement).releaseFunction with
      | error reason => exact .error reason
      | ok last =>
          simp only [map_ok, ok_bind, onto, finish_onto]
          cases Arrangement.finish last.output last.stack with
          | error reason => exact .error reason
          | ok tail => exact .ok ⟨state.output.reverse, tail, by simp, by simp⟩

namespace Calculator

variable {calculator : Calculator}

theorem value_around {term term' : Term} {result : Float}
    (known : calculator.table.Knows term.postorder) (known' : calculator.table.Knows term'.postorder)
    (valued : term.value calculator.library = .ok result)
    (valued' : term'.value calculator.library = .ok result) (first last : List Token) :
    calculator.value (first ++ term.postorder ++ last) =
      calculator.value (first ++ term'.postorder ++ last) := by
  simp only [value, Postfix.evaluate, List.foldlM_append, Term.run_postorder known,
    Term.run_postorder known', valued, valued']

theorem cut_around (before inner after : List Char) :
    Lexeme.cut (before ++ '(' :: inner ++ ')' :: after) =
      Lexeme.cut before ++ Lexeme.parenthesized (Lexeme.cut inner) ++ Lexeme.cut after := by
  have opens : ∀ rest, EndsNumeral ('(' :: rest) := fun rest => endsNumeral_cons.mpr (by decide)
  have closes : ∀ rest, EndsNumeral (')' :: rest) := fun rest => endsNumeral_cons.mpr (by decide)
  rw [List.append_assoc, List.cons_append, Lexeme.cut_append _ (opens _), Lexeme.cut_cons (opens _),
    Lexeme.cut_append _ (closes _), Lexeme.cut_cons (closes _), Lexeme.parenthesized]
  simp [Lexeme.ofChar]

theorem ofVisible_around {inner inner' : List Char} {result : Float}
    (denotes : calculator.Denotes inner result) (denotes' : calculator.Denotes inner' result)
    (before after : List Char) :
    calculator.ofVisible (before ++ '(' :: inner ++ ')' :: after) =
      calculator.ofVisible (before ++ '(' :: inner' ++ ')' :: after) := by
  obtain ⟨tokens, term, reads, arranged, valued⟩ := denotes
  obtain ⟨tokens', term', reads', arranged', valued'⟩ := denotes'
  have made := Token.ofLexemes_group reads reads' (Lexeme.cut before) (Lexeme.cut after)
  rw [ofVisible, ofVisible, if_neg (by simp), if_neg (by simp), cut_around, cut_around]
  refine Agree.eq_of_eq ?_
  refine (made.mapError _).bind fun whole whole' around => ?_
  refine ((Postfix.ofInfix_around arranged arranged' around).mapError _).bind ?_
  intro order order' alike
  obtain ⟨first, last, rfl, rfl⟩ := alike
  rw [value_around (Postfix.ofInfix_knows arranged) (Postfix.ofInfix_knows arranged') valued valued']
  exact .refl _

theorem denotes_text {x : Float} (finite : x.isFinite = true) :
    calculator.Denotes (Numeral.text x).toList x := by
  have reads := Numeral.readAs_text calculator.table finite [] [] endsNumeral_nil
    (by rw [Lexeme.cut]; exact .done)
  rw [List.append_nil] at reads
  exact ⟨_, .number x, reads, rfl, Term.finite_eq_ok.mpr ⟨finite, rfl⟩⟩

/-- An expression in parentheses can be replaced by the text of its value, whatever stands around it:
the outcome is the same, up to the places in errors. -/
theorem evaluate_group {before inner after : String} {result : Float}
    (evaluated : calculator.evaluate inner = .ok result) :
    (calculator.evaluate (before ++ "(" ++ inner ++ ")" ++ after)).mapError
        CalculationError.unplaced =
      (calculator.evaluate (before ++ "(" ++ Numeral.text result ++ ")" ++ after)).mapError
        CalculationError.unplaced := by
  have denotes := evaluate_eq_ok_iff.mp evaluated
  have finite : result.isFinite = true := by
    obtain ⟨_, term, _, _, valued⟩ := denotes
    exact Term.value_isFinite valued
  have visible (middle : String) : Text.visible (before ++ "(" ++ middle ++ ")" ++ after).toList =
      Text.visible before.toList ++ '(' :: Text.visible middle.toList ++
        ')' :: Text.visible after.toList := by
    simp only [String.toList_append, Text.visible_append, List.append_assoc]
    rfl
  rw [evaluate_unplaced, evaluate_unplaced, visible, visible, Numeral.visible_text finite]
  exact ofVisible_around denotes (denotes_text finite) _ _

theorem evaluate_group_sum :
    standard.evaluate "1 + 2" = .ok 3 ∧
      (standard.evaluate ("4 r S" ++ "(" ++ "1 + 2" ++ ")" ++ "! - 2)")).mapError
          CalculationError.unplaced =
        (standard.evaluate ("4 r S" ++ "(" ++ Numeral.text 3 ++ ")" ++ "! - 2)")).mapError
          CalculationError.unplaced := by
  have sum : standard.evaluate "1 + 2" = .ok 3 := by decide +kernel
  exact ⟨sum, evaluate_group sum⟩

end Calculator
end InfixCalculator
