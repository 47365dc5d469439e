import InfixCalculator.Proofs.Expression

namespace InfixCalculator

/-! Reading a tree from its tokens.

`Assembly` follows the conversion to postfix order, but it keeps trees where that emits tokens: the
frames are the operators and parentheses that are held back, each with what stands to its left. A bound
tree is read from its own tokens (`Assembly.read_tokens`), so tokens spell one bound tree at most. -/

/-- What is open to the left of the operand that is being read. -/
inductive Frame where
  | group
  | prefixed (named : ElementaryFunction)
  | infixed (left : Expression) (sign : BinaryOperator)

def Frame.operator? : Frame → Option Operator
  | .group => none
  | .prefixed named => some (.function named)
  | .infixed _ sign => some (.binary sign)

structure Assembly where
  /-- The innermost first. -/
  frames : List Frame
  /-- The closed operand that has just been read. -/
  operand : Option Expression

namespace Assembly

def start : Assembly := ⟨[], none⟩

/-- Closes frames around an operand as long as their operators are released. -/
def enclose (released : Operator → Bool) (operand : Expression) :
    List Frame → Expression × List Frame
  | [] => (operand, [])
  | .group :: outer => (operand, .group :: outer)
  | .prefixed named :: outer =>
      if released (.function named) then enclose released (.prefixed named operand) outer
      else (operand, .prefixed named :: outer)
  | .infixed left sign :: outer =>
      if released (.binary sign) then enclose released (.infixed sign left operand) outer
      else (operand, .infixed left sign :: outer)

/-- Ends a group, and with it the call of a function right before it. -/
def leave (inner : Expression) : List Frame → Option Assembly
  | .group :: .prefixed named :: outer => some ⟨outer, some (.call named inner)⟩
  | .group :: outer => some ⟨outer, some (.group inner)⟩
  | _ => none

def step (table : OperatorTable) : Assembly → Token → Option Assembly
  | ⟨frames, none⟩, .number value => some ⟨frames, some (.number value)⟩
  | ⟨frames, none⟩, .constant => some ⟨frames, some .constant⟩
  | ⟨frames, none⟩, .openParen => some ⟨.group :: frames, none⟩
  | ⟨frames, none⟩, .operator (.function named) => some ⟨.prefixed named :: frames, none⟩
  | ⟨frames, some operand⟩, .operator .factorial => some ⟨frames, some (.factorial operand)⟩
  | ⟨frames, some operand⟩, .operator (.binary sign) =>
      let (left, outer) := enclose (table.bindsBefore · (.binary sign)) operand frames
      some ⟨.infixed left sign :: outer, none⟩
  | ⟨frames, some operand⟩, .closeParen =>
      let (inner, outer) := enclose (fun _ => true) operand frames
      leave inner outer
  | _, _ => none

def finish : Assembly → Option Expression
  | ⟨frames, some operand⟩ =>
      match enclose (fun _ => true) operand frames with
      | (tree, []) => some tree
      | _ => none
  | ⟨_, none⟩ => none

def read (table : OperatorTable) (tokens : List Token) : Option Expression := do
  let state ← tokens.foldlM (step table) start
  state.finish

end Assembly

namespace Expression

/-- The frames of the right spine, the innermost first. -/
def spine : Expression → List Frame
  | .prefixed named operand => operand.spine ++ [.prefixed named]
  | .infixed sign left right => right.spine ++ [.infixed left sign]
  | .number _ | .constant | .group _ | .call _ _ | .factorial _ => []

/-- The closed operand at the end of the right spine. -/
def tip : Expression → Expression
  | .prefixed _ operand => operand.tip
  | .infixed _ _ right => right.tip
  | tree => tree

theorem spine_of_closed {tree : Expression} (closed : tree.closed = true) : tree.spine = [] := by
  cases tree <;> first | rfl | contradiction

theorem tip_of_closed {tree : Expression} (closed : tree.closed = true) : tree.tip = tree := by
  cases tree <;> first | rfl | contradiction

theorem enclose_spine {released : Operator → Bool} {tree : Expression}
    (all : ∀ operator ∈ tree.rightSpine, released operator = true) (outer : List Frame) :
    Assembly.enclose released tree.tip (tree.spine ++ outer) =
      Assembly.enclose released tree outer := by
  induction tree generalizing outer with
  | number | constant | group | call | factorial => rfl
  | prefixed named operand ih =>
      simp only [rightSpine, List.mem_cons, forall_eq_or_imp] at all
      rw [tip, spine, List.append_assoc, ih all.2, List.singleton_append, Assembly.enclose,
        if_pos all.1]
  | infixed sign left right _ ih =>
      simp only [rightSpine, List.mem_cons, forall_eq_or_imp] at all
      rw [tip, spine, List.append_assoc, ih all.2, List.singleton_append, Assembly.enclose,
        if_pos all.1]

end Expression

namespace Assembly

variable {table : OperatorTable}

/-- A tree can be read behind these frames: none of its operators goes to the innermost of them, and
no parenthesis makes a call of it. -/
structure Admits (table : OperatorTable) (frames : List Frame) (tree : Expression) : Prop where
  keeps : ∀ frame ∈ frames.head?, ∀ operator ∈ frame.operator?, ∀ later ∈ tree.leftSpine,
    table.bindsBefore operator later = false
  apart : ∀ named, frames.head? = some (.prefixed named) → tree.tokens.head? ≠ some .openParen

theorem enclose_of_keeps {sign : BinaryOperator} {operand : Expression} {frames : List Frame}
    (keeps : ∀ frame ∈ frames.head?, ∀ operator ∈ frame.operator?,
      table.bindsBefore operator (.binary sign) = false) :
    enclose (table.bindsBefore · (.binary sign)) operand frames = (operand, frames) := by
  cases frames with
  | nil => rfl
  | cons frame outer =>
      have kept := keeps frame rfl
      cases frame with
      | group => rfl
      | prefixed named => simp [enclose, kept (.function named) rfl]
      | infixed left outerSign => simp [enclose, kept (.binary outerSign) rfl]

theorem admits_group (outer : List Frame) (inner : Expression) :
    Admits table (.group :: outer) inner :=
  ⟨by simp [Frame.operator?], by simp⟩

theorem leave_group (outer : List Frame) (inner : Expression)
    (apart : ∀ named, outer.head? ≠ some (.prefixed named)) :
    leave inner (.group :: outer) = some ⟨outer, some (.group inner)⟩ := by
  cases outer with
  | nil => rfl
  | cons frame outer =>
      cases frame with
      | prefixed named => exact absurd rfl (apart named)
      | group | infixed => rfl

theorem group_of_leave {inner : Expression} {frames : List Frame} {after : Assembly}
    (left : leave inner frames = some after) : ∃ outer, frames = .group :: outer := by
  cases frames with
  | nil => cases left
  | cons frame outer =>
      cases frame with
      | group => exact ⟨outer, rfl⟩
      | prefixed | infixed => cases left

theorem step_closeParen (tree : Expression) (outer : List Frame) :
    step table ⟨tree.spine ++ .group :: outer, some tree.tip⟩ .closeParen =
      leave tree (.group :: outer) := by
  simp only [step, tree.enclose_spine fun _ _ => rfl, enclose]

theorem step_binary {tree : Expression} {sign : BinaryOperator} {frames : List Frame}
    (released : ∀ earlier ∈ tree.rightSpine, table.bindsBefore earlier (.binary sign) = true)
    (keeps : ∀ frame ∈ frames.head?, ∀ operator ∈ frame.operator?,
      table.bindsBefore operator (.binary sign) = false) :
    step table ⟨tree.spine ++ frames, some tree.tip⟩ (.operator (.binary sign)) =
      some ⟨.infixed tree sign :: frames, none⟩ := by
  simp only [step, tree.enclose_spine released, enclose_of_keeps keeps]

/-- After its tokens, a bound tree is what lies between the frames before it and now. -/
theorem read_tokens {tree : Expression} (spelled : tree.WellSpelled) (bound : tree.Bound table)
    {frames : List Frame} (admits : Admits table frames tree) :
    tree.tokens.foldlM (step table) ⟨frames, none⟩ =
      some ⟨tree.spine ++ frames, some tree.tip⟩ := by
  induction tree generalizing frames with
  | number value => rfl
  | constant => rfl
  | group inner ih =>
      have inside := ih spelled bound (admits_group frames inner)
      have outside := leave_group frames inner fun named head =>
        admits.apart named head rfl
      change (inner.tokens ++ [Token.closeParen]).foldlM (step table) ⟨.group :: frames, none⟩ = _
      rw [List.foldlM_append, inside]
      exact (bind_pure _).trans ((step_closeParen inner frames).trans outside)
  | call named argument ih =>
      have inside := ih spelled bound (admits_group (.prefixed named :: frames) argument)
      change (argument.tokens ++ [Token.closeParen]).foldlM (step table)
        ⟨.group :: .prefixed named :: frames, none⟩ = _
      rw [List.foldlM_append, inside]
      exact (bind_pure _).trans (step_closeParen argument (.prefixed named :: frames))
  | factorial operand ih =>
      obtain ⟨closed, operandSpelled⟩ := spelled
      have inside := @ih operandSpelled bound frames
        ⟨by simp [Expression.leftSpine_of_closed closed], fun named head => by
          have apart := admits.apart named head
          rwa [Expression.tokens, Expression.head?_tokens_append] at apart⟩
      rw [Expression.spine_of_closed closed, Expression.tip_of_closed closed] at inside
      rw [Expression.tokens, List.foldlM_append, inside]
      rfl
  | prefixed named operand ih =>
      obtain ⟨apart, operandSpelled⟩ := spelled
      obtain ⟨keeps, operandBound⟩ := bound
      have inside := @ih operandSpelled operandBound (.prefixed named :: frames)
        ⟨by simpa [Frame.operator?] using keeps, fun _ _ => apart⟩
      rw [Expression.spine, List.append_assoc]
      exact inside
  | infixed sign left right leftIH rightIH =>
      obtain ⟨leftSpelled, rightSpelled⟩ := spelled
      obtain ⟨released, keeps, leftBound, rightBound⟩ := bound
      have onLeft := @leftIH leftSpelled leftBound frames
        ⟨fun frame head operator known later member =>
            admits.keeps frame head operator known later (List.mem_cons_of_mem _ member),
          fun named head => by
            have apart := admits.apart named head
            rwa [Expression.tokens, Expression.head?_tokens_append] at apart⟩
      have between := step_binary released fun frame head operator known =>
        admits.keeps frame head operator known _ List.mem_cons_self
      have onRight := @rightIH rightSpelled rightBound (.infixed left sign :: frames)
        ⟨by simpa [Frame.operator?] using keeps, by simp⟩
      simp only [Expression.tokens, List.foldlM_append, onLeft, Option.bind_eq_bind,
        Option.bind_some, List.foldlM_cons, between, onRight, Expression.spine, List.append_assoc,
        List.singleton_append, Expression.tip]

theorem read_of_bound {tree : Expression} {tokens : List Token} (spells : tree.Spells tokens)
    (bound : tree.Bound table) : read table tokens = some tree := by
  obtain ⟨spelled, rfl⟩ := spells
  simp only [read, start, @read_tokens _ _ spelled bound [] ⟨by simp, by simp⟩,
    Option.bind_eq_bind, Option.bind_some, finish, tree.enclose_spine fun _ _ => rfl, enclose]

end Assembly
end InfixCalculator
