import InfixCalculator.Proofs.Calculation.Operators
import InfixCalculator.Proofs.Reading.Breaches
import Mathlib.Data.List.DropRight

namespace InfixCalculator

/-! Where the errors of a calculator point.

A calculator takes the blanks off its expression before it reads it, so an offset in an error counts from
the first character that is not blank. It is short of the offset in the expression by the blanks before
that character (`Calculator.reading_error_iff`). -/

open Outcome

namespace Text

/-- The blanks with which a text begins. -/
def indent (text : List Char) : Nat := (text.takeWhile isBlank).length

theorem trim_between (text : List Char) : ∃ blanks trailing, text = blanks ++ (trim text ++ trailing) ∧
    blanks.length = indent text ∧ visible blanks = [] := by
  have begins : trim text <+: text.dropWhile isBlank := List.rdropWhile_prefix _ _
  obtain ⟨trailing, rest⟩ := begins
  refine ⟨text.takeWhile isBlank, trailing, ?_, rfl, ?_⟩
  · rw [rest, List.takeWhile_append_dropWhile]
  · refine List.filter_eq_nil_iff.mpr fun c member => ?_
    rw [List.mem_takeWhile_imp member]
    exact Bool.false_ne_true

end Text

/-- The lexemes of a text are those of another text with the same visible characters, if each of its
offsets moves to a place with the same character and the same visible characters before it. -/
theorem Lexeme.ofText_moved {text other : List Char} {move : Nat → Nat}
    (same : Text.visible text = Text.visible other)
    (moves : ∀ offset < other.length, text[move offset]? = other[offset]? ∧
      Text.visible (text.take (move offset)) = Text.visible (other.take offset)) :
    ofText text = (ofText other).map fun item => (item.1, move item.2) := by
  have placed := placed_ofText other
  refine (placed_ofText text).unique ⟨?_, ?_⟩
  · rw [List.map_map, same]
    exact placed.cut
  · intro before lexeme offset after split
    obtain ⟨front, back, whole, rfl, later⟩ := List.map_eq_append_iff.mp split
    obtain ⟨item, rest, rfl, equal, _⟩ := List.map_eq_cons_iff.mp later
    cases equal
    obtain ⟨here, earlier⟩ := placed.offset front item.1 item.2 rest whole
    have member : item.1 ∈ cut (Text.visible other) := by
      rw [← placed.eq_cut, whole]
      simp
    have within : item.2 < other.length := by
      refine Nat.lt_of_not_le fun past => spelling_ne_nil (valid_cut _ _ member) ?_
      rw [List.getElem?_eq_none past] at here
      exact List.head?_eq_none_iff.mp here.symm
    obtain ⟨shown, counted⟩ := moves item.2 within
    rw [shown, counted, List.flatMap_map]
    exact ⟨here, earlier⟩

theorem Token.read_moved {table : OperatorTable} {text other : List Char} {move : Nat → Nat}
    (same : Text.visible text = Text.visible other)
    (moves : ∀ offset < other.length, text[move offset]? = other[offset]? ∧
      Text.visible (text.take (move offset)) = Text.visible (other.take offset)) :
    read table text = (read table other).mapError (.moved move) := by
  rw [read, Lexeme.ofText_moved same moves]
  exact Reading.run_moved move (Lexeme.ofText other)

/-- Without the blanks around a text its errors come as much earlier as there are blanks before it. -/
theorem Token.read_trim (table : OperatorTable) (text : List Char) :
    read table text = (read table (Text.trim text)).mapError (.moved (· + Text.indent text)) := by
  refine read_moved (Text.visible_trim text).symm fun offset within => ?_
  obtain ⟨blanks, trailing, between, length, blank⟩ := Text.trim_between text
  generalize Text.trim text = middle at within between
  rw [← length, between, Nat.add_comm]
  constructor
  · rw [List.getElem?_append_right (Nat.le_add_right _ _), Nat.add_sub_cancel_left,
      List.getElem?_append_left within]
  · rw [List.take_length_add_append, List.take_append_of_le_length (Nat.le_of_lt within),
      Text.visible_append, blank, List.nil_append]

namespace ReadingError

/-- The character at the position of an error is the one that it reports, or the minus that is a sign. -/
def PointsInto (text : List Char) : ReadingError → Prop
  | .unknownCharacter character position | .malformedNumber character position =>
      text[position]? = some character
  | .danglingSign position | .misplacedSign _ position => text[position]? = some '-'

theorem moved_injective {move : Nat → Nat} (injective : move.Injective) :
    (moved move).Injective := by
  intro reason other same
  cases reason <;> cases other <;> simp_all [moved, injective.eq_iff]

/-- An error is not at its position if it is moved on. -/
theorem moved_add_eq_iff {reason : ReadingError} {amount : Nat} :
    reason.moved (· + amount) = reason ↔ amount = 0 := by
  cases reason <;> simp [moved]

end ReadingError

theorem Lexeme.Placed.head_of_mem {text : List Char} {items : List (Lexeme × Nat)} {lexeme : Lexeme}
    {offset : Nat} (placed : Placed text items) (member : (lexeme, offset) ∈ items) :
    text[offset]? = lexeme.spelling.head? := by
  obtain ⟨before, after, whole⟩ := List.append_of_mem member
  exact (placed.offset before lexeme offset after whole).1

open Reading

variable {table : OperatorTable}

theorem Reading.EndsWithSign.mem {items : List (Lexeme × Nat)} {position : Nat}
    (signed : EndsWithSign table items position) : (.minus, position) ∈ items := by
  obtain ⟨before, rfl, _⟩ := signed
  exact List.mem_concat_self

theorem ReadingError.pointsInto_of_firstBreach {text : List Char}
    {reason : ReadingError} (first : FirstBreach table (Lexeme.ofText text) reason) :
    reason.PointsInto text := by
  have placed := Lexeme.placed_ofText text
  obtain ⟨index, breach, _⟩ := first
  cases breach with
  | danglingSign ends signed => exact placed.head_of_mem signed.mem
  | lexeme broken =>
      obtain ⟨item, here, breaks⟩ := broken
      have member := List.mem_of_getElem? here
      cases breaks with
      | malformedNumber | unknownCharacter => exact placed.head_of_mem member
      | misplacedSign refuses signed => exact placed.head_of_mem (List.mem_of_mem_take signed.mem)

namespace Calculator

variable {calculator : Calculator} {expression : String} {reason : ReadingError}

theorem arrange_eq_reading_iff : calculator.arrange expression = .error (.reading reason) ↔
    Token.read calculator.table (Text.trim expression.toList) = .error reason := by
  simp only [arrange]
  split
  · next empty =>
      have nothing : Token.read calculator.table [] = .ok [] := by
        rw [Token.read_eq_ok_iff, Text.visible, List.filter_nil, Lexeme.cut]
        exact .done
      rw [List.isEmpty_iff.mp empty, nothing]
      simp
  · cases Token.read calculator.table (Text.trim expression.toList) with
    | error other => simp
    | ok tokens => simp [mapError_eq_error]

theorem evaluate_eq_reading_iff : calculator.evaluate expression = .error (.reading reason) ↔
    calculator.arrange expression = .error (.reading reason) := by
  rw [evaluate]
  cases calculator.arrange expression with
  | error other => simp
  | ok order => simp [value, mapError_eq_error]

/-- An error in reading an expression is that of its first breach, with the offset of the breach less the
blanks before the expression. So it points at the breach just if there are no such blanks. -/
theorem reading_error_iff (calculator : Calculator) (expression : String) (reason : ReadingError) :
    let text := expression.toList
    (calculator.evaluate expression = .error (.reading reason) ↔
        calculator.arrange expression = .error (.reading reason)) ∧
      (calculator.arrange expression = .error (.reading reason) ↔
        FirstBreach calculator.table (Lexeme.ofText text) (reason.moved (· + Text.indent text))) ∧
      (calculator.arrange expression = .error (.reading reason) →
        (reason.moved (· + Text.indent text)).PointsInto text) ∧
      (calculator.arrange expression = .error (.reading reason) →
        (FirstBreach calculator.table (Lexeme.ofText text) reason ↔ Text.indent text = 0)) := by
  intro text
  have arranged : calculator.arrange expression = .error (.reading reason) ↔
      FirstBreach calculator.table (Lexeme.ofText text) (reason.moved (· + Text.indent text)) := by
    rw [arrange_eq_reading_iff, ← Token.read_eq_error_iff, Token.read_trim _ text,
      mapError_eq_error]
    constructor
    · intro failed
      exact ⟨reason, failed, rfl⟩
    · rintro ⟨found, failed, same⟩
      rwa [ReadingError.moved_injective (fun _ _ => Nat.add_right_cancel) same] at failed
  refine ⟨evaluate_eq_reading_iff, arranged,
    fun failed => ReadingError.pointsInto_of_firstBreach (arranged.mp failed), fun failed => ?_⟩
  have first := arranged.mp failed
  constructor
  · intro pointed
    exact ReadingError.moved_add_eq_iff.mp (first.unique pointed fun _ _ _ => Breach.unique)
  · intro none
    rwa [ReadingError.moved_add_eq_iff.mpr none] at first

/-- Behind a blank, the offset of the unknown character is that of the blank. -/
theorem evaluate_indented :
    Calculator.standard.evaluate " x" = .error (.reading (.unknownCharacter 'x' 0)) ∧
      ¬ReadingError.PointsInto " x".toList (.unknownCharacter 'x' 0) := by
  refine ⟨by decide +kernel, ?_⟩
  change ¬" x".toList[0]? = some 'x'
  decide

end Calculator
end InfixCalculator
