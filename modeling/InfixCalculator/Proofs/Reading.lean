import InfixCalculator.Proofs.Outcome
import InfixCalculator.Token.Reading

namespace InfixCalculator

/-! Reading without offsets.

Blanks and offsets have no part in what is read: `read_unplaced` takes both away at once. `Reads` says
by rules which lexemes make which tokens, and reading succeeds by these rules only (`read_eq_ok_iff`). -/

namespace Text

/-- The characters that are not blank. -/
def visible (text : List Char) : List Char := text.filter fun c => !isBlank c

@[simp] theorem visible_append (first second : List Char) :
    visible (first ++ second) = visible first ++ visible second := List.filter_append ..

theorem visible_of_all {text : List Char} (all : ∀ c ∈ text, isBlank c = false) :
    visible text = text :=
  List.filter_eq_self.mpr fun c member => by rw [all c member, Bool.not_false]

theorem isBlank_of_mem_visible {text : List Char} {c : Char} (member : c ∈ visible text) :
    isBlank c = false := by
  simpa using (List.mem_filter.mp member).2

@[simp] theorem visible_visible (text : List Char) : visible (visible text) = visible text :=
  visible_of_all fun _ => isBlank_of_mem_visible

theorem map_fst_marks (text : List Char) : (marks text).map (·.1) = visible text := by
  rw [marks, visible]
  conv => rhs; rw [← List.zipIdx_map_fst 0 text, List.filter_map]
  rfl

theorem visible_dropWhile (text : List Char) : visible (text.dropWhile isBlank) = visible text := by
  induction text with
  | nil => rfl
  | cons c rest ih =>
      cases blank : isBlank c with
      | true => simpa [visible, List.dropWhile_cons, blank] using ih
      | false => rw [List.dropWhile_cons_of_neg (by simp [blank])]

@[simp] theorem visible_trim (text : List Char) : visible (trim text) = visible text := by
  have reversed (text : List Char) : visible text.reverse = (visible text).reverse :=
    List.filter_reverse ..
  rw [trim, reversed, visible_dropWhile, reversed, visible_dropWhile, List.reverse_reverse]

theorem trim_eq_nil {text : List Char} : trim text = [] ↔ visible text = [] := by
  constructor
  · intro empty
    rw [← visible_trim, empty]
    rfl
  · intro none
    have blank : ∀ c ∈ text, isBlank c = true := by simpa [visible] using none
    have dropped : text.dropWhile isBlank = [] := by
      simpa using @List.dropWhile_append_of_pos _ _ _ [] blank
    rw [trim, dropped]
    rfl

end Text

theorem Lexeme.map_fst_mark (marks : List Nat) (lexemes : List Lexeme) :
    (mark marks lexemes).map (·.1) = lexemes := by
  induction lexemes generalizing marks with
  | nil => rfl
  | cons lexeme rest ih => rw [mark, List.map_cons, ih]

theorem Lexeme.map_fst_ofText (text : List Char) :
    (ofText text).map (·.1) = cut (Text.visible text) := by
  rw [ofText, map_fst_mark, Text.map_fst_marks]

def ReadingError.unplaced : ReadingError → ReadingError
  | .unknownCharacter character _ => .unknownCharacter character 0
  | .malformedNumber character _ => .malformedNumber character 0
  | .danglingSign _ => .danglingSign 0
  | .misplacedSign found _ => .misplacedSign found 0

/-- The error with its position changed. -/
def ReadingError.moved (move : Nat → Nat) : ReadingError → ReadingError
  | .unknownCharacter character position => .unknownCharacter character (move position)
  | .malformedNumber character position => .malformedNumber character (move position)
  | .danglingSign position => .danglingSign (move position)
  | .misplacedSign found position => .misplacedSign found (move position)

theorem ReadingError.unplaced_eq_moved : unplaced = moved fun _ => 0 := by
  funext reason
  cases reason <;> rfl

namespace Reading

open Outcome

variable {table : OperatorTable} {state : Reading} {lexeme : Lexeme} {token : Token}

theorem resolve_symbol_eq_ok {character : Char} {position : Nat} {token : Token}
    (resolved : resolve table position (.symbol character) = .ok token) :
    ∃ entry, table.lookup? character = some entry ∧ token = .operator entry.operator := by
  cases found : table.lookup? character with
  | none => simp [resolve, found] at resolved
  | some entry => exact ⟨entry, rfl, by simpa [resolve, found] using resolved.symm⟩

theorem resolve_stray_ne_ok {position : Nat} {character : Char} :
    resolve table position (.stray character) ≠ .ok token := by
  simp only [resolve]
  split <;> exact nofun

def moved (move : Nat → Nat) (state : Reading) : Reading := ⟨state.tokens, state.sign.map move⟩

theorem resolve_moved (move : Nat → Nat) (position : Nat) (lexeme : Lexeme) :
    resolve table (move position) lexeme =
      (resolve table position lexeme).mapError (.moved move) := by
  cases lexeme with
  | numeral | constant | minus | openParen | closeParen => rfl
  | symbol character =>
      simp only [resolve]
      split <;> rfl
  | stray character =>
      simp only [resolve]
      split <;> rfl

theorem add_moved (move : Nat → Nat) (state : Reading) (token : Token) :
    (state.moved move).add token = ((state.add token).mapError (.moved move)).map (moved move) := by
  obtain ⟨tokens, sign⟩ := state
  cases sign with
  | none => rfl
  | some position =>
      simp only [moved, add, Option.map_some]
      split <;> rfl

/-- Positions are carried along and never looked at. -/
theorem step_moved (move : Nat → Nat) (state : Reading) (item : Lexeme × Nat) :
    step table (state.moved move) (item.1, move item.2) =
      ((step table state item).mapError (.moved move)).map (moved move) := by
  obtain ⟨lexeme, position⟩ := item
  have waiting : (state.moved move).sign = none ↔ state.sign = none := Option.map_eq_none_iff
  by_cases unary : lexeme = .minus ∧ state.afterOperand = false ∧ state.sign = none
  · obtain ⟨rfl, before, idle⟩ := unary
    rw [step, step, if_pos ⟨rfl, before, waiting.mpr idle⟩, if_pos ⟨rfl, before, idle⟩]
    rfl
  · have alike : ¬(lexeme = .minus ∧ (state.moved move).afterOperand = false ∧
        (state.moved move).sign = none) := by rwa [waiting]
    rw [step, step, if_neg alike, if_neg unary, resolve_moved move position]
    cases resolve table position lexeme with
    | error reason => rfl
    | ok token => exact add_moved move state token

theorem finish_moved (move : Nat → Nat) (state : Reading) :
    (state.moved move).finish = state.finish.mapError (.moved move) := by
  obtain ⟨tokens, sign⟩ := state
  cases sign <;> rfl

/-- A reading of lexemes whose offsets are changed. -/
theorem run_moved (move : Nat → Nat) (items : List (Lexeme × Nat)) :
    ((items.map fun item => (item.1, move item.2)).foldlM (step table) start >>= finish) =
      (items.foldlM (step table) start >>= finish).mapError (.moved move) := by
  have folded := foldlM_mapped (step table) (step table) (moved move)
    (fun item => (item.1, move item.2)) (.moved move) (step_moved move) items start
  change List.foldlM _ start _ = _ at folded
  rw [folded, mapError_bind]
  cases items.foldlM (step table) start with
  | error reason => rfl
  | ok state => exact finish_moved move state

/-- A step that does not count the characters. -/
def advance (table : OperatorTable) (state : Reading) (lexeme : Lexeme) :
    Except ReadingError Reading :=
  step table state (lexeme, 0)

end Reading

open Outcome

def Token.ofLexemes (table : OperatorTable) (lexemes : List Lexeme) :
    Except ReadingError (List Token) := do
  let state ← lexemes.foldlM (Reading.advance table) Reading.start
  state.finish

theorem Token.read_unplaced (table : OperatorTable) (text : List Char) :
    (read table text).mapError .unplaced = ofLexemes table (Lexeme.cut (Text.visible text)) := by
  have shown := Lexeme.map_fst_ofText text
  have moved := @Reading.run_moved table (fun _ => 0) (Lexeme.ofText text)
  rw [ReadingError.unplaced_eq_moved, read, ← moved, ofLexemes, ← shown, List.foldlM_map,
    List.foldlM_map]
  rfl

/-- The tokens that lexemes make, where `afterOperand` says whether an operand stands before them: a
minus behind an operand is one, and any other minus is the sign of the number behind it. -/
inductive Reads (table : OperatorTable) : Bool → List Lexeme → List Token → Prop where
  | done {afterOperand : Bool} : Reads table afterOperand [] []
  | token {afterOperand : Bool} {lexeme : Lexeme} {token : Token} {rest : List Lexeme}
      {tokens : List Token} (resolved : Reading.resolve table 0 lexeme = .ok token)
      (subtracts : lexeme = .minus → afterOperand = true)
      (more : Reads table token.completesOperand rest tokens) :
      Reads table afterOperand (lexeme :: rest) (token :: tokens)
  | signed {lexeme : Lexeme} {token number : Token} {rest : List Lexeme} {tokens : List Token}
      (resolved : Reading.resolve table 0 lexeme = .ok token)
      (negated : token.negated? = some number) (more : Reads table true rest tokens) :
      Reads table false (.minus :: lexeme :: rest) (number :: tokens)

theorem Token.completesOperand_negated {token number : Token}
    (negated : token.negated? = some number) : number.completesOperand = true := by
  cases token <;> simp only [Token.negated?, Option.some.injEq, reduceCtorEq] at negated <;>
    subst negated <;> rfl

namespace Reading

variable {table : OperatorTable}

theorem advance_sign {tokens : List Token}
    (before : afterOperand ⟨tokens, none⟩ = false) :
    advance table ⟨tokens, none⟩ .minus = .ok ⟨tokens, some 0⟩ := by
  rw [advance, step, if_pos ⟨rfl, before, rfl⟩]

theorem advance_token {tokens : List Token} {lexeme : Lexeme}
    (subtracts : lexeme = .minus → afterOperand ⟨tokens, none⟩ = true) :
    advance table ⟨tokens, none⟩ lexeme =
      resolve table 0 lexeme >>= fun token => .ok ⟨token :: tokens, none⟩ := by
  rw [advance, step, if_neg fun ⟨same, before, _⟩ => absurd (subtracts same) (by simp [before])]
  cases resolve table 0 lexeme <;> rfl

theorem advance_signed (tokens : List Token) (position : Nat) (lexeme : Lexeme) :
    advance table ⟨tokens, some position⟩ lexeme =
      resolve table 0 lexeme >>= fun token => add ⟨tokens, some position⟩ token := by
  rw [advance, step, if_neg (by simp)]
  cases resolve table 0 lexeme <;> rfl

theorem run_of_reads {afterOperand : Bool} {lexemes : List Lexeme} {tokens before : List Token}
    (reads : Reads table afterOperand lexemes tokens)
    (same : Reading.afterOperand ⟨before, none⟩ = afterOperand) :
    lexemes.foldlM (advance table) ⟨before, none⟩ = .ok ⟨tokens.reverse ++ before, none⟩ := by
  induction reads generalizing before with
  | done => rfl
  | @token afterOperand lexeme token rest tokens resolved subtracts more ih =>
      rw [List.foldlM_cons, advance_token (same ▸ subtracts), resolved, ok_bind, ok_bind, ih rfl]
      simp
  | @signed lexeme token number rest tokens resolved negated more ih =>
      rw [List.foldlM_cons, advance_sign same, ok_bind, List.foldlM_cons, advance_signed, resolved,
        ok_bind, add, negated, ok_bind,
        @ih (number :: before) (Token.completesOperand_negated negated)]
      simp

def ReadsSigned (table : OperatorTable) (lexemes : List Lexeme) (tokens : List Token) : Prop :=
  ∃ lexeme rest token number more, lexemes = lexeme :: rest ∧ tokens = number :: more ∧
    resolve table 0 lexeme = .ok token ∧ token.negated? = some number ∧ Reads table true rest more

theorem reads_of_run {lexemes : List Lexeme} {state after : Reading} {tokens : List Token}
    (run : lexemes.foldlM (advance table) state = .ok after)
    (finished : after.finish = .ok tokens) :
    ∃ more, tokens = state.tokens.reverse ++ more ∧
      match state.sign with
      | none => Reads table state.afterOperand lexemes more
      | some _ => ReadsSigned table lexemes more := by
  induction lexemes generalizing state with
  | nil =>
      cases run
      obtain ⟨before, sign⟩ := after
      cases sign with
      | none =>
          cases finished
          exact ⟨[], (List.append_nil _).symm, .done⟩
      | some position => cases finished
  | cons lexeme rest ih =>
      obtain ⟨middle, advanced, run⟩ := foldlM_cons_eq_ok.mp run
      obtain ⟨more, rfl, follows⟩ := ih run
      obtain ⟨before, sign⟩ := state
      cases sign with
      | none =>
          by_cases subtracts : lexeme = .minus → afterOperand ⟨before, none⟩ = true
          · rw [advance_token subtracts] at advanced
            obtain ⟨token, resolved, same⟩ := bind_eq_ok.mp advanced
            cases same
            exact ⟨token :: more, by simp, .token resolved subtracts follows⟩
          · rw [Classical.not_imp, Bool.not_eq_true] at subtracts
            obtain ⟨rfl, unary⟩ := subtracts
            rw [advance_sign unary] at advanced
            cases advanced
            obtain ⟨lexeme, rest, token, number, tail, rfl, rfl, resolved, negated, reads⟩ := follows
            refine ⟨number :: tail, rfl, ?_⟩
            dsimp only
            rw [unary]
            exact .signed resolved negated reads
      | some position =>
          rw [advance_signed] at advanced
          obtain ⟨token, resolved, added⟩ := bind_eq_ok.mp advanced
          cases negated : token.negated? with
          | none => simp [add, negated] at added
          | some number =>
              simp only [add, negated, Except.ok.injEq] at added
              subst added
              refine ⟨number :: more, by simp, lexeme, rest, token, number, more, rfl, rfl, resolved,
                negated, ?_⟩
              rw [← Token.completesOperand_negated negated]
              exact follows

end Reading

theorem Token.ofLexemes_eq_ok_iff {table : OperatorTable} {lexemes : List Lexeme}
    {tokens : List Token} :
    ofLexemes table lexemes = .ok tokens ↔ Reads table false lexemes tokens := by
  constructor
  · intro made
    obtain ⟨state, run, finished⟩ := bind_eq_ok.mp made
    obtain ⟨more, rfl, reads⟩ := Reading.reads_of_run run finished
    exact reads
  · intro reads
    rw [ofLexemes, Reading.start, Reading.run_of_reads reads rfl, ok_bind]
    simp [Reading.finish]

theorem Token.read_eq_ok_iff {table : OperatorTable} {text : List Char} {tokens : List Token} :
    read table text = .ok tokens ↔ Reads table false (Lexeme.cut (Text.visible text)) tokens := by
  rw [← mapError_eq_ok ReadingError.unplaced, read_unplaced, ofLexemes_eq_ok_iff]

end InfixCalculator
