import InfixCalculator.Proofs.Calculation.Positions

namespace InfixCalculator

/-! Texts that differ in their blanks.

The value of a text is that of its visible characters, and so is an error. Where an error in reading
stands is told by the number of visible characters before it (`Calculator.evaluate_of_visible_eq`). -/

open Outcome

namespace Text

/-- A visible character stands at an offset, and so many others before it. -/
def VisibleAt (text : List Char) (rank offset : Nat) : Prop :=
  ∃ c, text[offset]? = some c ∧ isBlank c = false ∧ (visible (text.take offset)).length = rank

/-- The offset of a visible character, by the number of those before it. -/
def place (text : List Char) (rank : Nat) : Nat := ((marks text).map Prod.snd).getD rank 0

theorem visible_take_visible (text : List Char) (rank : Nat) :
    visible ((visible text).take rank) = (visible text).take rank :=
  visible_of_all fun _ member => isBlank_of_mem_visible (List.mem_of_mem_take member)

/-- The offset of a visible character has that character, behind the same visible ones. -/
theorem place_of_lt {text : List Char} {rank : Nat} (less : rank < (visible text).length) :
    text[place text rank]? = (visible text)[rank]? ∧
      visible (text.take (place text rank)) = visible ((visible text).take rank) := by
  have within : rank < (marks text).length := by
    rwa [← map_fst_marks, List.length_map] at less
  have split : marks text =
      (marks text).take rank ++ (marks text)[rank] :: (marks text).drop (rank + 1) := by
    rw [← List.drop_eq_getElem_cons, List.take_append_drop]
  have item := List.getElem?_eq_getElem within
  generalize (marks text)[rank] = mark at split item
  obtain ⟨c, offset⟩ := mark
  have moved : place text rank = offset := by
    rw [place, List.getD_eq_getElem?_getD, List.getElem?_map, item]
    rfl
  obtain ⟨here, earlier⟩ := marks_eq_append split
  rw [moved, here, earlier, visible_take_visible, ← map_fst_marks, List.getElem?_map, List.map_take, item]
  exact ⟨rfl, rfl⟩

theorem visibleAt_place {text : List Char} {rank : Nat} (less : rank < (visible text).length) :
    VisibleAt text rank (place text rank) := by
  obtain ⟨here, earlier⟩ := place_of_lt less
  rw [List.getElem?_eq_getElem less] at here
  refine ⟨_, here, isBlank_of_mem_visible (List.getElem_mem less), ?_⟩
  rw [earlier, visible_take_visible, List.length_take, Nat.min_eq_left (Nat.le_of_lt less)]

end Text

namespace ReadingError

def position : ReadingError → Nat
  | .unknownCharacter _ position | .malformedNumber _ position | .danglingSign position
  | .misplacedSign _ position => position

@[simp] theorem position_moved (move : Nat → Nat) (reason : ReadingError) :
    (reason.moved move).position = move reason.position := by
  cases reason <;> rfl

@[simp] theorem unplaced_moved (move : Nat → Nat) (reason : ReadingError) :
    (reason.moved move).unplaced = reason.unplaced := by
  cases reason <;> rfl

theorem PointsInto.position_lt {text : List Char} {reason : ReadingError}
    (points : reason.PointsInto text) : reason.position < text.length := by
  cases reason with
  | unknownCharacter | malformedNumber | danglingSign | misplacedSign =>
      exact (List.getElem?_eq_some_iff.mp points).1

end ReadingError

/-- A text is read as its visible characters alone, with errors at their offsets in the text. -/
theorem Token.read_visible (table : OperatorTable) (text : List Char) :
    read table text = (read table (Text.visible text)).mapError (.moved (Text.place text)) :=
  read_moved (Text.visible_visible text).symm fun _ => Text.place_of_lt

/-- The two have the same tokens, or the same error at the same visible character. -/
def ReadAlike (table : OperatorTable) (first second : List Char) : Prop :=
  (∃ tokens, Token.read table first = .ok tokens ∧ Token.read table second = .ok tokens) ∨
  ∃ reason other, Token.read table first = .error reason ∧ Token.read table second = .error other ∧
    reason.unplaced = other.unplaced ∧
    ∃ rank, Text.VisibleAt first rank reason.position ∧ Text.VisibleAt second rank other.position

theorem readAlike_of_visible_eq (table : OperatorTable) {first second : List Char}
    (same : Text.visible first = Text.visible second) : ReadAlike table first second := by
  have firstRead := Token.read_visible table first
  have secondRead := Token.read_visible table second
  rw [same] at firstRead
  cases read : Token.read table (Text.visible second) with
  | ok tokens =>
      rw [read] at firstRead secondRead
      exact .inl ⟨tokens, firstRead, secondRead⟩
  | error reason =>
      rw [read] at firstRead secondRead
      have points := ReadingError.pointsInto_of_firstBreach (Token.read_eq_error_iff.mp read)
      refine .inr ⟨_, _, firstRead, secondRead, by simp, reason.position, ?_, ?_⟩
      · rw [ReadingError.position_moved]
        exact Text.visibleAt_place (same ▸ points.position_lt)
      · rw [ReadingError.position_moved]
        exact Text.visibleAt_place points.position_lt

/-- The error without the offset of an error in reading. -/
def CalculationError.withoutOffset : CalculationError → CalculationError
  | .reading reason => .reading reason.unplaced
  | .emptyExpression => .emptyExpression
  | .conversion reason => .conversion reason
  | .evaluation reason => .evaluation reason

namespace Calculator

variable {calculator : Calculator} {s t : String}

theorem arrange_of_visible_eq (same : Text.visible s.toList = Text.visible t.toList) :
    (calculator.arrange s).mapError CalculationError.withoutOffset =
      (calculator.arrange t).mapError CalculationError.withoutOffset := by
  have trimmed : Text.visible (Text.trim s.toList) = Text.visible (Text.trim t.toList) := by
    rw [Text.visible_trim, Text.visible_trim, same]
  have empty : (Text.trim s.toList).isEmpty = (Text.trim t.toList).isEmpty := by
    rw [Bool.eq_iff_iff, List.isEmpty_iff, List.isEmpty_iff, Text.trim_eq_nil, Text.trim_eq_nil, same]
  simp only [arrange, empty]
  split
  · rfl
  · rcases readAlike_of_visible_eq calculator.table trimmed with
      ⟨tokens, first, second⟩ | ⟨reason, other, first, second, alike, _⟩
    · rw [first, second]
    · rw [first, second]
      exact congrArg (fun unplaced => Except.error (CalculationError.reading unplaced)) alike

/-- Blanks count for nothing but the offset of an error in reading, which is that of the same visible
character. -/
theorem evaluate_of_visible_eq (calculator : Calculator)
    (same : Text.visible s.toList = Text.visible t.toList) :
    (calculator.evaluate s).mapError CalculationError.withoutOffset =
        (calculator.evaluate t).mapError CalculationError.withoutOffset ∧
      ReadAlike calculator.table s.toList t.toList := by
  refine ⟨?_, readAlike_of_visible_eq calculator.table same⟩
  have value (text : String) : (calculator.evaluate text).mapError CalculationError.withoutOffset =
      (calculator.arrange text).mapError CalculationError.withoutOffset >>= calculator.value := by
    rw [evaluate, mapError_bind]
    congr 1
    funext tokens
    rw [Calculator.value, mapError_mapError]
    rfl
  rw [value, value, arrange_of_visible_eq same]

theorem evaluate_spaced_sign :
    let spaced := " 1 0 + - (2)"
    let dense := "10 +-(2)"
    Text.visible spaced.toList = Text.visible dense.toList ∧
      Token.read .standard spaced.toList = .error (.misplacedSign .openParen 7) ∧
      Token.read .standard dense.toList = .error (.misplacedSign .openParen 4) ∧
      (standard.evaluate spaced).mapError CalculationError.withoutOffset =
        (standard.evaluate dense).mapError CalculationError.withoutOffset ∧
      ReadAlike .standard spaced.toList dense.toList := by
  intro spaced dense
  have same : Text.visible spaced.toList = Text.visible dense.toList := by decide
  exact ⟨same, by decide +kernel, by decide +kernel, standard.evaluate_of_visible_eq same⟩

end Calculator
end InfixCalculator
