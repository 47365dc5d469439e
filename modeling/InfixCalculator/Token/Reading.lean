import InfixCalculator.Lexeme
import InfixCalculator.OperatorTable
import InfixCalculator.Token

namespace InfixCalculator

/-! Tokens from text.

Lexemes become tokens one by one. A minus behind an operand subtracts. Any other minus is a sign and
waits for the number or the constant right behind it, which then becomes a signed number. Offsets in
errors count the characters of the text that was read, blanks included. -/

inductive ReadingError where
  | unknownCharacter (character : Char) (position : Nat)
  /-- A point without digits. -/
  | malformedNumber (character : Char) (position : Nat)
  | danglingSign (position : Nat)
  /-- A sign with something behind it that takes none; the position is that of the sign. -/
  | misplacedSign (found : Token) (position : Nat)
deriving DecidableEq

def ReadingError.message : ReadingError → String
  | .unknownCharacter character position =>
      s!"Error at position {position}: Unexpected character '{character}'."
  | .malformedNumber character position =>
      s!"Error at position {position}: Invalid number '{character}'."
  | .danglingSign position =>
      s!"Error at position {position}: Unary minus is missing its operand."
  | .misplacedSign found position =>
      s!"Error at position {position}: Unary minus must precede a number, but found '{found.text}'."

structure Reading where
  /-- The tokens so far, the latest first. -/
  tokens : List Token
  /-- The offset of a sign that waits for its number. -/
  sign : Option Nat
deriving DecidableEq

namespace Reading

def start : Reading := ⟨[], none⟩

def afterOperand (state : Reading) : Bool :=
  match state.tokens with
  | [] => false
  | latest :: _ => latest.completesOperand

/-- The token of a lexeme that is no sign. -/
def resolve (table : OperatorTable) (position : Nat) : Lexeme → Except ReadingError Token
  | .numeral spelling => .ok (.number (Numeral.read spelling))
  | .constant => .ok .constant
  | .minus => .ok (.operator (.binary .subtract))
  | .openParen => .ok .openParen
  | .closeParen => .ok .closeParen
  | .symbol character =>
      match table.lookup? character with
      | some entry => .ok (.operator entry.operator)
      | none => .error (.unknownCharacter character position)
  | .stray character =>
      if character = '.' then .error (.malformedNumber character position)
      else .error (.unknownCharacter character position)

/-- Adds a token, or the signed number that a waiting sign makes of it. -/
def add (state : Reading) (token : Token) : Except ReadingError Reading :=
  match state.sign with
  | none => .ok ⟨token :: state.tokens, none⟩
  | some position =>
      match token.negated? with
      | some signed => .ok ⟨signed :: state.tokens, none⟩
      | none => .error (.misplacedSign token position)

def step (table : OperatorTable) (state : Reading) (item : Lexeme × Nat) :
    Except ReadingError Reading :=
  if item.1 = .minus ∧ state.afterOperand = false ∧ state.sign = none then
    .ok { state with sign := some item.2 }
  else
    match resolve table item.2 item.1 with
    | .ok token => state.add token
    | .error reason => .error reason

def finish (state : Reading) : Except ReadingError (List Token) :=
  match state.sign with
  | none => .ok state.tokens.reverse
  | some position => .error (.danglingSign position)

end Reading

def Token.read (table : OperatorTable) (text : List Char) : Except ReadingError (List Token) := do
  let state ← (Lexeme.ofText text).foldlM (Reading.step table) Reading.start
  state.finish

end InfixCalculator
