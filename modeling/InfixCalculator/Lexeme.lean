import InfixCalculator.Numeral
import InfixCalculator.Text.Blank

namespace InfixCalculator

/-! The first cut of a text, which does not know what a minus means or which symbols are operators.

`cut` takes a text apart from left to right. A numeral is as long as it can be; every other lexeme is
one character, so a text is always cut to its end and nothing of it is lost. -/

inductive Lexeme where
  /-- Digits around at most one point. -/
  | numeral (spelling : List Char)
  | constant
  | minus
  | openParen
  | closeParen
  /-- A character that can be an operator. -/
  | symbol (character : Char)
  /-- A blank, or a point without digits. -/
  | stray (character : Char)
deriving DecidableEq, Repr

namespace Lexeme

def spelling : Lexeme → List Char
  | .numeral spelling => spelling
  | .constant => ['p']
  | .minus => ['-']
  | .openParen => ['(']
  | .closeParen => [')']
  | .symbol character | .stray character => [character]

/-- The lexeme of a character with which no numeral begins. -/
def ofChar (c : Char) : Lexeme :=
  if c = 'p' then .constant
  else if c = '-' then .minus
  else if c = '(' then .openParen
  else if c = ')' then .closeParen
  else if c = '.' ∨ Text.isBlank c then .stray c
  else .symbol c

/-- The longest beginning of a text that is a numeral: digits, with a point among them or after them
or before them; empty if there is none. -/
def leadingNumeral (text : List Char) : List Char :=
  let whole := text.takeWhile Decimal.isDigit
  match text.drop whole.length with
  | '.' :: rest =>
      let fraction := rest.takeWhile Decimal.isDigit
      if whole = [] ∧ fraction = [] then [] else whole ++ '.' :: fraction
  | _ => whole

def cut (text : List Char) : List Lexeme :=
  match text with
  | [] => []
  | first :: rest =>
      match leadingNumeral (first :: rest) with
      | [] => ofChar first :: cut rest
      | digit :: more => .numeral (digit :: more) :: cut (rest.drop more.length)
termination_by text.length
decreasing_by
  · simp
  · simp only [List.length_drop, List.length_cons]
    omega

/-- Gives each lexeme the mark of its first character, from the marks of all characters in turn. -/
def mark (marks : List Nat) : List Lexeme → List (Lexeme × Nat)
  | [] => []
  | lexeme :: rest =>
      (lexeme, marks.headD 0) :: mark (marks.drop lexeme.spelling.length) rest

/-- The lexemes of a text whose blanks count for nothing, each with its offset in the text. -/
def ofText (text : List Char) : List (Lexeme × Nat) :=
  let marks := Text.marks text
  mark (marks.map (·.2)) (cut (marks.map (·.1)))

structure Span where
  lexeme : Lexeme
  start : Nat
  stop : Nat
deriving DecidableEq, Repr

/-- The spans of lexemes that follow one another from a byte offset on. -/
def spans (start : Nat) : List Lexeme → List Span
  | [] => []
  | lexeme :: rest =>
      let stop := start + (String.ofList lexeme.spelling).utf8ByteSize
      ⟨lexeme, start, stop⟩ :: spans stop rest

theorem spelling_ofChar (c : Char) : (ofChar c).spelling = [c] := by
  unfold ofChar
  repeat' split
  all_goals simp_all [spelling]

theorem leadingNumeral_prefix (text : List Char) : leadingNumeral text <+: text := by
  have whole := List.takeWhile_prefix Decimal.isDigit (l := text)
  unfold leadingNumeral
  dsimp only
  split
  · next rest after =>
      split
      · exact List.nil_prefix
      · obtain ⟨tail, joined⟩ := List.takeWhile_prefix Decimal.isDigit (l := rest)
        refine ⟨tail, ?_⟩
        have parts := List.take_append_drop (text.takeWhile Decimal.isDigit).length text
        rw [after, ← List.prefix_iff_eq_take.mp whole] at parts
        rw [List.append_assoc, List.cons_append, joined, parts]
  · exact whole

/-- A text is the spelling of its lexemes one after the other. -/
theorem spelling_cut (text : List Char) : (cut text).flatMap spelling = text := by
  fun_induction cut text with
  | case1 => rfl
  | case2 first rest none ih => simp [spelling_ofChar, ih]
  | case3 first rest digit more numeral ih =>
      obtain ⟨tail, joined⟩ := leadingNumeral_prefix (first :: rest)
      rw [numeral, List.cons_append, List.cons.injEq] at joined
      obtain ⟨rfl, rfl⟩ := joined
      rw [List.flatMap_cons, ih]
      simp [spelling]

end Lexeme
end InfixCalculator
