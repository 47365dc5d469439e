import InfixCalculator.Proofs.Conversion.Contents

namespace InfixCalculator

/-! The order in which tokens are let go.

Operands and factorials are let go in the order in which they stand, and a function or a binary operator
only when those before it have been. Tokens are told apart by their places for this, as there can be
several that are equal: each token keeps its place while it is held and when it is let go
(`Postfix.ofInfix_order`). -/

/-- An operand or a factorial. -/
def Token.keepsOrder : Token → Bool
  | .number _ | .constant | .operator .factorial => true
  | .operator _ | .openParen | .closeParen => false

theorem Token.isParen_of_keepsOrder {token : Token} (keeps : token.keepsOrder = true) :
    token.isParen = false := by
  cases token with
  | number | constant | operator => rfl
  | openParen | closeParen => cases keeps

namespace Postfix

open Outcome

variable {table : OperatorTable}

theorem zipIdx_concat (tokens : List Token) (token : Token) :
    (tokens ++ [token]).zipIdx = tokens.zipIdx ++ [(token, tokens.length)] := by
  simp [List.zipIdx_append]

theorem filter_zipIdx_concat (kind : Token → Bool) (tokens : List Token) (token : Token) :
    (tokens ++ [token]).zipIdx.filter (fun item => kind item.1) =
      tokens.zipIdx.filter (fun item => kind item.1) ++
        if kind token then [(token, tokens.length)] else [] := by
  rw [zipIdx_concat, List.filter_append, List.filter_singleton]
  cases kind token <;> rfl

/-- Of tokens with their places, the latest first: each function and binary operator is behind all the
operands and factorials of the expression that stand before it. -/
def BehindOperands (tokens : List Token) (gone : List (Token × Nat)) : Prop :=
  ∀ later item earlier, gone = later ++ item :: earlier → item.1.keepsOrder = false →
    ∀ operand ∈ tokens.zipIdx, operand.1.keepsOrder = true → operand.2 < item.2 → operand ∈ earlier

theorem BehindOperands.cons {tokens : List Token} {gone : List (Token × Nat)} {item : Token × Nat}
    (behind : BehindOperands tokens gone)
    (first : item.1.keepsOrder = false → ∀ operand ∈ tokens.zipIdx, operand.1.keepsOrder = true →
      operand.2 < item.2 → operand ∈ gone) : BehindOperands tokens (item :: gone) := by
  intro later other earlier split
  cases later with
  | nil =>
      obtain ⟨rfl, rfl⟩ := List.cons.inj split
      exact first
  | cons head later => exact behind later other earlier (List.cons.inj split).2

namespace Arrangement

variable {tokens : List Token} {token : Token} {state next : Arrangement}
  {gone held : List (Token × Nat)}

/-- The tokens let go and those held, with their places among the tokens so far. -/
structure Places (tokens : List Token) (state : Arrangement) (gone held : List (Token × Nat)) :
    Prop where
  output : gone.map Prod.fst = state.output
  stack : held.map Prod.fst = state.stack.filterMap Held.token?
  contents : (held ++ gone).Perm (tokens.zipIdx.filter fun item => !item.1.isParen)
  operands : gone.filter (·.1.keepsOrder) = (tokens.zipIdx.filter (·.1.keepsOrder)).reverse
  waits : ∀ item ∈ held, item.1.keepsOrder = false
  behind : BehindOperands tokens gone

namespace Places

theorem start : Places [] Arrangement.start [] [] :=
  ⟨rfl, rfl, .refl _, rfl, nofun, fun later item earlier split => by simp at split⟩

theorem lt_length (places : Places tokens state gone held) {item : Token × Nat}
    (member : item ∈ held ++ gone) : item.2 < tokens.length :=
  List.snd_lt_of_mem_zipIdx (List.mem_filter.mp (places.contents.mem_iff.mp member)).1

/-- The next token stands before none of those let go. -/
theorem behind_concat (places : Places tokens state gone held) (token : Token) :
    BehindOperands (tokens ++ [token]) gone := by
  intro later item earlier split waits operand member keeps less
  rw [zipIdx_concat, List.mem_append] at member
  rcases member with member | last
  · exact places.behind later item earlier split waits operand member keeps less
  · have bound : item.2 < tokens.length := places.lt_length (by simp [split])
    rw [List.mem_singleton.mp last] at less
    exact absurd less (Nat.lt_asymm bound)

/-- An operator that is let go takes its place along. -/
theorem release (places : Places tokens state gone held) (releases : Releases state next) :
    ∃ gone held, Places tokens next gone held := by
  induction releases generalizing gone held with
  | done => exact ⟨gone, held, places⟩
  | release more ih =>
      cases held with
      | nil => cases places.stack
      | cons item rest =>
          obtain ⟨same, others⟩ := List.cons.inj places.stack
          obtain ⟨waits, waitsMore⟩ := List.forall_mem_cons.mp places.waits
          refine @ih (item :: gone) rest
            ⟨?_, others, List.perm_middle.trans places.contents, ?_, waitsMore, ?_⟩
          · rw [List.map_cons, same, places.output]
          · rw [List.filter_cons_of_neg (by simp [waits]), places.operands]
          · refine places.behind.cons fun _ operand member keeps _ => ?_
            have among : operand ∈ gone.filter (·.1.keepsOrder) := by
              rw [places.operands, List.mem_reverse]
              exact List.mem_filter.mpr ⟨member, keeps⟩
            exact (List.mem_filter.mp among).1

theorem emit (places : Places tokens state gone held) (keeps : token.keepsOrder = true) :
    Places (tokens ++ [token]) (state.emit token) ((token, tokens.length) :: gone) held := by
  have plain : (!token.isParen) = true := by rw [Token.isParen_of_keepsOrder keeps, Bool.not_false]
  constructor
  · rw [List.map_cons, places.output]
    rfl
  · exact places.stack
  · rw [filter_zipIdx_concat (!·.isParen), if_pos plain]
    exact List.perm_middle.trans ((places.contents.cons _).trans (List.perm_append_singleton _ _).symm)
  · rw [filter_zipIdx_concat Token.keepsOrder, if_pos keeps, List.reverse_append, ← places.operands]
    exact List.filter_cons_of_pos keeps
  · exact places.waits
  · refine (places.behind_concat token).cons fun waits => ?_
    rw [keeps] at waits
    cases waits

theorem hold (places : Places tokens state gone held) {entry : OperatorEntry}
    (waits : (Token.operator entry.operator).keepsOrder = false) :
    Places (tokens ++ [.operator entry.operator]) (state.hold (.operator entry)) gone
      ((.operator entry.operator, tokens.length) :: held) := by
  constructor
  · exact places.output
  · rw [List.map_cons, places.stack]
    rfl
  · rw [filter_zipIdx_concat (!·.isParen)]
    exact (places.contents.cons _).trans (List.perm_append_singleton _ _).symm
  · rw [filter_zipIdx_concat Token.keepsOrder, if_neg (by simp [waits]), List.append_nil]
    exact places.operands
  · exact List.forall_mem_cons.mpr ⟨waits, places.waits⟩
  · exact places.behind_concat _

theorem paren (places : Places tokens state gone held) (paren : token.isParen = true)
    (output : next.output = state.output)
    (stack : next.stack.filterMap Held.token? = state.stack.filterMap Held.token?) :
    Places (tokens ++ [token]) next gone held := by
  have moves : ¬token.keepsOrder = true := fun keeps => by
    rw [Token.isParen_of_keepsOrder keeps] at paren
    cases paren
  constructor
  · rw [output]
    exact places.output
  · rw [stack]
    exact places.stack
  · rw [filter_zipIdx_concat (!·.isParen), if_neg (by simp [paren]), List.append_nil]
    exact places.contents
  · rw [filter_zipIdx_concat Token.keepsOrder, if_neg moves, List.append_nil]
    exact places.operands
  · exact places.waits
  · exact places.behind_concat _

/-- A step gives its token the next place. -/
theorem advance (places : Places tokens state gone held) (advances : Advances table state token next) :
    ∃ gone held, Places (tokens ++ [token]) next gone held := by
  cases advances with
  | number | constant => exact ⟨_, _, places.emit rfl⟩
  | factorial => exact ⟨_, _, places.emit rfl⟩
  | openParen => exact ⟨_, _, places.paren rfl rfl rfl⟩
  | @closeParen closed found =>
      obtain ⟨gone, held, places⟩ := places.release (releases_closeGroup found)
      have dropped : Places (tokens ++ [.closeParen]) closed gone held := places.paren rfl rfl rfl
      exact dropped.release (releases_releaseFunction closed)
  | @function named entry found =>
      have waits : (Token.operator (.function named)).keepsOrder = false := rfl
      rw [← OperatorTable.entry?_operator found] at waits ⊢
      exact ⟨_, _, places.hold waits⟩
  | @binary sign entry found =>
      obtain ⟨gone, held, places⟩ := places.release (releases_releaseFor entry state.output state.stack)
      have waits : (Token.operator (.binary sign)).keepsOrder = false := rfl
      rw [← OperatorTable.entry?_operator found] at waits ⊢
      exact ⟨_, _, places.hold waits⟩

theorem run {rest : List Token} (places : Places tokens state gone held)
    (run : rest.foldlM (Arrangement.advance table) state = .ok next) :
    ∃ gone held, Places (tokens ++ rest) next gone held := by
  induction rest generalizing tokens state gone held with
  | nil =>
      cases run
      rw [List.append_nil]
      exact ⟨gone, held, places⟩
  | cons token rest ih =>
      obtain ⟨middle, advanced, run⟩ := foldlM_cons_eq_ok.mp run
      obtain ⟨gone, held, places⟩ := places.advance (advance_eq_ok_iff.mp advanced)
      rw [List.append_cons]
      exact ih places run

end Places
end Arrangement

/-- A postfix order has each token in one place, the parentheses apart. Operands and factorials are in it
in the order in which they stand, and every function and binary operator is behind all of them that stand
before it. -/
theorem ofInfix_order {tokens order : List Token} (arranged : ofInfix table tokens = .ok order) :
    order.Perm (tokens.filter (!·.isParen)) ∧
      order.filter Token.keepsOrder = tokens.filter Token.keepsOrder ∧
      ∃ placed : List (Token × Nat), placed.map Prod.fst = order ∧
        placed.Perm (tokens.zipIdx.filter fun item => !item.1.isParen) ∧
        placed.filter (·.1.keepsOrder) = tokens.zipIdx.filter (·.1.keepsOrder) ∧
        ∀ front item back, placed = front ++ item :: back → item.1.keepsOrder = false →
          ∀ operand ∈ tokens.zipIdx, operand.1.keepsOrder = true → operand.2 < item.2 →
            operand ∈ front := by
  have kept := (ofInfix_keeps arranged).1
  rw [← mapError_eq_ok ConversionError.unplaced, ofInfix_unplaced] at arranged
  obtain ⟨last, run, finished⟩ := bind_eq_ok.mp arranged
  obtain ⟨gone, held, places⟩ := Arrangement.Places.start.run run
  obtain ⟨gone, held, places⟩ := places.release (Arrangement.releases_finish finished)
  have nothing : held = [] := List.map_eq_nil_iff.mp places.stack
  have placed : gone.reverse.map Prod.fst = order := by
    rw [List.map_reverse, places.output, List.reverse_reverse]
  have contents := places.contents
  rw [nothing, List.nil_append, List.nil_append] at contents
  have operands : gone.reverse.filter (·.1.keepsOrder) = tokens.zipIdx.filter (·.1.keepsOrder) := by
    rw [List.filter_reverse, places.operands, List.reverse_reverse, List.nil_append]
  refine ⟨kept, ?_, gone.reverse, placed, (List.reverse_perm gone).trans contents, operands, ?_⟩
  · conv => rhs; rw [← List.zipIdx_map_fst 0 tokens]
    rw [← placed, List.filter_map, List.filter_map]
    exact congrArg (List.map Prod.fst) operands
  · intro front item back split waits operand member keeps less
    rw [List.reverse_eq_iff, List.reverse_append, List.reverse_cons, List.append_assoc,
      List.singleton_append] at split
    exact List.mem_reverse.mp (places.behind _ item _ split waits operand member keeps less)

/-- `p S ( p + ) p !` is no expression, and its tokens are rearranged all the same. -/
theorem ofInfix_order_malformed :
    let tokens : List Token := [.constant, .operator (.function .sin), .openParen, .constant,
      .operator (.binary .add), .closeParen, .constant, .operator .factorial]
    let order : List Token := [.constant, .constant, .operator (.binary .add),
      .operator (.function .sin), .constant, .operator .factorial]
    ofInfix .standard tokens = .ok order ∧ order.Perm (tokens.filter (!·.isParen)) ∧
      order.filter Token.keepsOrder = tokens.filter Token.keepsOrder ∧
      ∃ placed : List (Token × Nat), placed.map Prod.fst = order ∧
        placed.Perm (tokens.zipIdx.filter fun item => !item.1.isParen) := by
  intro tokens order
  have arranged : ofInfix .standard tokens = .ok order := by decide
  obtain ⟨contents, operands, placed, same, places, _⟩ := ofInfix_order arranged
  exact ⟨arranged, contents, operands, placed, same, places⟩

end Postfix
end InfixCalculator
