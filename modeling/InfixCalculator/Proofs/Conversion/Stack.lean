import InfixCalculator.Proofs.Conversion.Faults
import Mathlib.Data.List.Chain

namespace InfixCalculator

/-! What the conversion holds back, and in which order.

The conversion can do with a stack of tokens alone. It then looks an operator up again whenever it comes
upon it on the stack, and comes to the same (`TokenArrangement.ofInfix_eq`). On such a stack there are
opening parentheses, functions and binary operators only, all of these in the table, and no binary operator
stands directly above one that binds before it. So the precedences in a row of binary operators never
decrease upwards (`stack_ordered`). -/

/-- Whether `upper` can be held directly above `lower`: a binary operator is not, where `lower` binds
before it. -/
def Token.RestsOn (table : OperatorTable) (upper lower : Token) : Prop :=
  ∀ entry below : OperatorEntry, upper = .operator entry.operator → lower = .operator below.operator →
    table.entry? entry.operator = some entry → table.entry? below.operator = some below →
    entry.placement = .between → below.bindsBefore entry = false

namespace Postfix

open Outcome

variable {table : OperatorTable}

/-- What has been let go and what is held, both as tokens and the latest first. -/
structure TokenArrangement where
  output : List Token
  stack : List Token
deriving DecidableEq

namespace TokenArrangement

def start : TokenArrangement := ⟨[], []⟩

def emit (state : TokenArrangement) (token : Token) : TokenArrangement :=
  { state with output := token :: state.output }

def hold (state : TokenArrangement) (token : Token) : TokenArrangement :=
  { state with stack := token :: state.stack }

/-- The entry of an operator. If there is none, the error names the token that asked for it, which need not
be the operator. -/
def lookUp (table : OperatorTable) (index : Nat) (operation : Operator) :
    Except ConversionError OperatorEntry :=
  match table.entry? operation with
  | some entry => .ok entry
  | none => .error (.unknownOperator operation index)

def releaseFor (table : OperatorTable) (index : Nat) (incoming : OperatorEntry) (output : List Token) :
    List Token → Except ConversionError TokenArrangement
  | .operator top :: rest => do
      let entry ← lookUp table index top
      if entry.bindsBefore incoming then releaseFor table index incoming (.operator top :: output) rest
      else return ⟨output, .operator top :: rest⟩
  | stack => return ⟨output, stack⟩

def closeGroup (index : Nat) (output : List Token) :
    List Token → Except ConversionError TokenArrangement
  | [] => .error (.unopenedParen index)
  | .openParen :: rest => .ok ⟨output, rest⟩
  | top :: rest => closeGroup index (top :: output) rest

def releaseFunction (table : OperatorTable) (index : Nat) (state : TokenArrangement) :
    Except ConversionError TokenArrangement :=
  match state.stack with
  | .operator top :: rest => do
      let entry ← lookUp table index top
      if entry.placement = .before then return ⟨.operator top :: state.output, rest⟩ else return state
  | _ => return state

def step (table : OperatorTable) (state : TokenArrangement) (item : Token × Nat) :
    Except ConversionError TokenArrangement :=
  match item.1 with
  | .number value => .ok (state.emit (.number value))
  | .constant => .ok (state.emit .constant)
  | .openParen => .ok (state.hold .openParen)
  | .closeParen => do
      let closed ← closeGroup item.2 state.output state.stack
      releaseFunction table item.2 closed
  | .operator operation => do
      let entry ← lookUp table item.2 operation
      match entry.placement with
      | .before => return state.hold (.operator operation)
      | .after => return state.emit (.operator operation)
      | .between =>
          let released ← releaseFor table item.2 entry state.output state.stack
          return released.hold (.operator operation)

def finish (output : List Token) : List Token → Except ConversionError (List Token)
  | [] => .ok output.reverse
  | .openParen :: _ => .error .unclosedParen
  | top :: rest => finish (top :: output) rest

def ofInfix (table : OperatorTable) (tokens : List Token) : Except ConversionError (List Token) := do
  let state ← tokens.zipIdx.foldlM (step table) start
  finish state.output state.stack

end TokenArrangement

def Held.token : Held → Token
  | .openParen => .openParen
  | .operator entry => .operator entry.operator

def Arrangement.tokens (state : Arrangement) : TokenArrangement :=
  ⟨state.output, state.stack.map Held.token⟩

namespace TokenArrangement

variable {output : List Token} {stack : List Held} {state : Arrangement} {index : Nat}

theorem lookUp_of_found {operation : Operator} {entry : OperatorEntry}
    (found : table.entry? operation = some entry) : lookUp table index operation = .ok entry := by
  rw [lookUp, found]

/-- An operator that has been held back is in the table, so that looking it up again never fails. -/
theorem releaseFor_tokens (incoming : OperatorEntry)
    (resolved : (⟨output, stack⟩ : Arrangement).Resolved table) :
    releaseFor table index incoming output (stack.map Held.token) =
      .ok (Arrangement.releaseFor incoming output stack).tokens := by
  fun_induction Arrangement.releaseFor incoming output stack with
  | case1 | case2 => rfl
  | case3 output top rest binds ih =>
      have found := resolved top List.mem_cons_self
      have below := ih fun entry member => resolved entry (List.mem_cons_of_mem _ member)
      rw [List.map_cons, Held.token, releaseFor, lookUp_of_found found, ok_bind, if_pos binds]
      exact below
  | case4 output top rest binds =>
      have found := resolved top List.mem_cons_self
      rw [List.map_cons, Held.token, releaseFor, lookUp_of_found found, ok_bind, if_neg binds]
      rfl

theorem closeGroup_tokens (index : Nat) (output : List Token) (stack : List Held) :
    closeGroup index output (stack.map Held.token) =
      (Arrangement.closeGroup output stack).elim (.error (.unopenedParen index))
        fun closed => .ok closed.tokens := by
  fun_induction Arrangement.closeGroup output stack with
  | case1 | case2 => rfl
  | case3 output top rest ih => exact ih

theorem releaseFunction_tokens (resolved : state.Resolved table) :
    releaseFunction table index state.tokens = .ok state.releaseFunction.tokens := by
  obtain ⟨output, stack⟩ := state
  cases stack with
  | nil => rfl
  | cons held rest =>
      cases held with
      | openParen => rfl
      | operator top =>
          have found := resolved top List.mem_cons_self
          simp only [releaseFunction, Arrangement.tokens, List.map_cons, Held.token,
            lookUp_of_found found, ok_bind, Arrangement.releaseFunction]
          split_ifs <;> rfl

theorem step_tokens (resolved : state.Resolved table) (token : Token) (index : Nat) :
    step table state.tokens (token, index) =
      (Arrangement.step table state (token, index)).map Arrangement.tokens := by
  cases token with
  | number | constant | openParen => rfl
  | closeParen =>
      have closing := closeGroup_tokens index state.output state.stack
      change closeGroup index state.output (state.stack.map Held.token) >>= _ = _
      rw [closing]
      cases found : Arrangement.closeGroup state.output state.stack with
      | none => simp only [Arrangement.step, found, Option.elim, error_bind, map_error]
      | some closed =>
          have kept := Arrangement.resolved_hold_openParen.mp
            (resolved.release (Arrangement.releases_closeGroup found))
          simp only [Arrangement.step, found, Option.elim, ok_bind, map_ok, releaseFunction_tokens kept]
  | operator operation =>
      cases found : table.entry? operation with
      | none => simp only [step, lookUp, Arrangement.step, found, error_bind, map_error]
      | some entry =>
          have named := OperatorTable.entry?_operator found
          have released := @releaseFor_tokens table state.output state.stack index entry resolved
          simp only [step, lookUp_of_found found, ok_bind, Arrangement.step, found, map_ok,
            Arrangement.addOperator]
          subst named
          cases entry.placement with
          | before | after => rfl
          | between =>
              change releaseFor table index entry state.output (state.stack.map Held.token) >>= _ = _
              rw [released]
              rfl

theorem run_tokens (table : OperatorTable) (tokens : List Token) :
    tokens.zipIdx.foldlM (step table) start =
      (tokens.zipIdx.foldlM (Arrangement.step table) .start).map Arrangement.tokens := by
  induction tokens using List.reverseRecOn with
  | nil => rfl
  | append_singleton tokens token ih =>
      rw [Arrangement.run_concat, List.zipIdx_append, List.foldlM_append, ih]
      cases run : tokens.zipIdx.foldlM (Arrangement.step table) .start with
      | error reason => rfl
      | ok state =>
          have resolved := (Arrangement.run_faultless run).2.2
          have stepped := step_tokens resolved token tokens.length
          simpa using stepped

theorem finish_tokens (output : List Token) (stack : List Held) :
    finish output (stack.map Held.token) = Arrangement.finish output stack := by
  fun_induction Arrangement.finish output stack with
  | case1 | case2 => rfl
  | case3 output top rest ih => exact ih

/-- A stack of tokens serves as well as a stack of entries. -/
theorem ofInfix_eq (table : OperatorTable) (tokens : List Token) :
    ofInfix table tokens = Postfix.ofInfix table tokens := by
  rw [ofInfix, Postfix.ofInfix, run_tokens]
  cases tokens.zipIdx.foldlM (Arrangement.step table) .start with
  | error reason => rfl
  | ok state => exact finish_tokens state.output state.stack

end TokenArrangement

def Held.RestsOn (upper lower : Held) : Prop :=
  ∀ entry below, upper = .operator entry → lower = .operator below → entry.placement = .between →
    below.bindsBefore entry = false

namespace Arrangement

variable {state next : Arrangement} {token : Token}

/-- What is held waits for an operand, and lets nothing stand above it that it binds before. -/
structure Orderly (state : Arrangement) : Prop where
  waiting : ∀ entry, .operator entry ∈ state.stack → entry.placement ≠ .after
  rests : state.stack.IsChain Held.RestsOn

theorem orderly_start : start.Orderly := ⟨by simp [start], .nil⟩

theorem Orderly.release (orderly : state.Orderly) (releases : Releases state next) : next.Orderly :=
  ⟨fun entry member => orderly.waiting entry (releases.suffix.subset member),
    orderly.rests.suffix releases.suffix⟩

theorem Orderly.hold_openParen (orderly : state.Orderly) : (state.hold .openParen).Orderly := by
  refine ⟨fun entry member => ?_, List.isChain_cons.mpr ⟨?_, orderly.rests⟩⟩
  · rcases List.mem_cons.mp member with same | member
    · cases same
    · exact orderly.waiting entry member
  · intro lower _ entry below upper
    cases upper

theorem Orderly.of_hold {held : Held} (orderly : (state.hold held).Orderly) : state.Orderly :=
  ⟨fun entry member => orderly.waiting entry (List.mem_cons_of_mem _ member), orderly.rests.of_cons⟩

theorem Orderly.hold_operator (orderly : state.Orderly) {entry : OperatorEntry}
    (waiting : entry.placement ≠ .after)
    (rests : ∀ lower ∈ state.stack.head?, (Held.operator entry).RestsOn lower) :
    (state.hold (.operator entry)).Orderly := by
  refine ⟨fun other member => ?_, List.isChain_cons.mpr ⟨rests, orderly.rests⟩⟩
  rcases List.mem_cons.mp member with same | member
  · cases same
    exact waiting
  · exact orderly.waiting other member

/-- What binds before an operator is let go for it, down to a parenthesis or something that does not. -/
theorem restsOn_head_releaseFor (incoming : OperatorEntry) (output : List Token) (stack : List Held) :
    ∀ lower ∈ (releaseFor incoming output stack).stack.head?,
      (Held.operator incoming).RestsOn lower := by
  fun_induction releaseFor incoming output stack with
  | case1 =>
      intro lower top
      cases top
  | case2 output rest =>
      intro lower top entry below upper lower'
      cases top
      cases lower'
  | case3 output top rest binds ih => exact ih
  | case4 output held rest binds =>
      intro lower top entry below upper lower' between
      cases top
      cases upper
      cases lower'
      simpa using binds

theorem Orderly.advance (orderly : state.Orderly) (advances : Advances table state token next) :
    next.Orderly := by
  cases advances with
  | number | constant | factorial => exact ⟨orderly.waiting, orderly.rests⟩
  | openParen => exact orderly.hold_openParen
  | closeParen found =>
      have closed := (orderly.release (releases_closeGroup found)).of_hold
      exact closed.release (releases_releaseFunction _)
  | @function named entry found =>
      have before : entry.placement = .before := placement_of_found found
      refine orderly.hold_operator (by simp [before]) fun lower _ other below upper _ between => ?_
      cases upper
      rw [before] at between
      cases between
  | @binary sign entry found =>
      have between : entry.placement = .between := placement_of_found found
      exact (orderly.release (releases_releaseFor entry state.output state.stack)).hold_operator
        (by simp [between]) (restsOn_head_releaseFor entry state.output state.stack)

theorem orderly_run {tokens : List Token} (run : tokens.zipIdx.foldlM (step table) start = .ok state) :
    state.Orderly := by
  induction tokens using List.reverseRecOn generalizing state with
  | nil =>
      cases run
      exact orderly_start
  | append_singleton tokens token ih =>
      rw [run_concat] at run
      obtain ⟨before, run, stepped⟩ := bind_eq_ok.mp run
      exact (ih run).advance (step_eq_ok_iff.mp stepped)

end Arrangement

/-- What is held as the token of an entry of the table is that entry. -/
theorem Arrangement.Resolved.eq_of_token {state : Arrangement} (resolved : state.Resolved table)
    {held : Held} (member : held ∈ state.stack) {entry : OperatorEntry}
    (spelled : held.token = .operator entry.operator)
    (found : table.entry? entry.operator = some entry) : held = .operator entry := by
  cases held with
  | openParen => cases spelled
  | operator other =>
      have found' := resolved other member
      rw [Token.operator.inj spelled, found] at found'
      rw [Option.some.inj found']

theorem Arrangement.Orderly.restsOn_tokens {state : Arrangement} (orderly : state.Orderly)
    (resolved : state.Resolved table) : state.tokens.stack.IsChain (Token.RestsOn table) := by
  rw [Arrangement.tokens, List.isChain_map]
  refine orderly.rests.imp_of_mem_imp fun upper lower member member' rests => ?_
  intro entry below spelled spelled' found found' between
  exact rests entry below (resolved.eq_of_token member spelled found)
    (resolved.eq_of_token member' spelled' found') between

/-- Of two binary operators, the upper one that rests on the lower one binds tighter, or as tight and
groups to the right. -/
theorem precedence_le_of_restsOn {entry below : OperatorEntry} (between : entry.placement = .between)
    (found : table.entry? entry.operator = some entry)
    (found' : table.entry? below.operator = some below)
    (rests : Token.RestsOn table (.operator entry.operator) (.operator below.operator)) :
    below.precedence ≤ entry.precedence ∧
      (below.precedence = entry.precedence → entry.associativity = .right) := by
  have free := rests entry below rfl rfl found found' between
  simp only [OperatorEntry.bindsBefore, Bool.or_eq_false_iff, decide_eq_false_iff_not,
    Bool.and_eq_false_iff, beq_eq_false_iff_ne, Nat.not_lt] at free
  refine ⟨free.1, fun same => ?_⟩
  cases grouped : entry.associativity with
  | right => rfl
  | left => exact absurd grouped (free.2.resolve_left (absurd same))

/-- Whatever the tokens are, what is held between two of them is an opening parenthesis or an operator in
the table that waits for an operand. A binary operator is held directly above an operator only if that
does not bind before it. So wherever binary operators are held in a row, the precedences never decrease
upwards, and of two neighbours with one precedence the upper one groups to the right. -/
theorem stack_ordered {tokens : List Token} {index : Nat} {state : TokenArrangement}
    (run : (tokens.take index).zipIdx.foldlM (TokenArrangement.step table) .start = .ok state) :
    (∀ held ∈ state.stack, held = .openParen ∨ ∃ entry : OperatorEntry,
      held = .operator entry.operator ∧ table.entry? entry.operator = some entry ∧
        entry.placement ≠ .after) ∧
    state.stack.IsChain (Token.RestsOn table) ∧
    (∀ row : List OperatorEntry,
      row.map (fun entry => Token.operator entry.operator) <:+: state.stack →
      (∀ entry ∈ row, table.entry? entry.operator = some entry ∧ entry.placement = .between) →
      row.Pairwise (fun upper lower => lower.precedence ≤ upper.precedence) ∧
        row.IsChain fun upper lower =>
          lower.precedence = upper.precedence → upper.associativity = .right) ∧
    ∃ arrangement : Arrangement,
      (tokens.take index).zipIdx.foldlM (Arrangement.step table) .start = .ok arrangement ∧
        arrangement.tokens = state := by
  rw [TokenArrangement.run_tokens] at run
  cases run' : (tokens.take index).zipIdx.foldlM (Arrangement.step table) .start with
  | error reason => simp [run'] at run
  | ok arrangement =>
      rw [run', map_ok, Except.ok.injEq] at run
      subst run
      have resolved := (Arrangement.run_faultless run').2.2
      have orderly := Arrangement.orderly_run run'
      have chain := orderly.restsOn_tokens resolved
      refine ⟨?_, chain, ?_, arrangement, rfl, rfl⟩
      · intro held member
        obtain ⟨source, inside, rfl⟩ := List.mem_map.mp member
        cases source with
        | openParen => exact .inl rfl
        | operator entry =>
            exact .inr ⟨entry, rfl, resolved entry inside, orderly.waiting entry inside⟩
      · intro row inside known
        have binds : row.IsChain fun upper lower => lower.precedence ≤ upper.precedence ∧
            (lower.precedence = upper.precedence → upper.associativity = .right) := by
          obtain ⟨above, below, whole⟩ := inside
          rw [← whole] at chain
          refine ((List.isChain_map _).mp chain.left_of_append.right_of_append).imp_of_mem_imp ?_
          intro upper lower member member' rests
          obtain ⟨found, between⟩ := known upper member
          exact precedence_le_of_restsOn between found (known lower member').1 rests
        have falls : (row.map OperatorEntry.precedence).IsChain (· ≥ ·) :=
          (List.isChain_map _).mpr (binds.imp fun _ _ both => both.1)
        exact ⟨List.pairwise_map.mp falls.pairwise, binds.imp fun _ _ both => both.2⟩

/-- The tower `p-p^p^S(p` holds a parenthesis, a function and three binary operators, with the right-binding
ones on top of each other. -/
theorem stack_ordered_tower :
    let tokens : List Token := [.constant, .operator (.binary .subtract), .constant,
      .operator (.binary .power), .constant, .operator (.binary .power), .operator (.function .sin),
      .openParen, .constant]
    let stack : List Token := [.openParen, .operator (.function .sin), .operator (.binary .power),
      .operator (.binary .power), .operator (.binary .subtract)]
    (tokens.take 8).zipIdx.foldlM (TokenArrangement.step .standard) .start =
      .ok ⟨[.constant, .constant, .constant], stack⟩ ∧
    stack.IsChain (Token.RestsOn .standard) := by
  intro tokens stack
  have run : (tokens.take 8).zipIdx.foldlM (TokenArrangement.step .standard) .start =
      .ok ⟨[.constant, .constant, .constant], stack⟩ := by rfl
  exact ⟨run, (stack_ordered run).2.1⟩

end Postfix
end InfixCalculator
