import InfixCalculator.Decimal

namespace InfixCalculator.CommandLine

/-! What the arguments of the program ask for.

Options may stand before the expression and behind it. An expression may begin with a minus, so until
there is one, an argument that begins with a minus is an option only if the whole of it spells
options. Behind `--` nothing is an option. -/

inductive Flag where
  | precision
  | rpn
  | verbose
  | help
  | version
deriving DecidableEq, Repr

def Flag.ofLetter? : Char → Option Flag
  | 'p' => some .precision
  | 'r' => some .rpn
  | 'v' => some .verbose
  | 'h' => some .help
  | 'V' => some .version
  | _ => none

def Flag.ofWord? (word : List Char) : Option Flag :=
  if word = "precision".toList then some .precision
  else if word = "rpn".toList then some .rpn
  else if word = "verbose".toList then some .verbose
  else if word = "help".toList then some .help
  else if word = "version".toList then some .version
  else none

structure Options where
  precision : Nat := 10
  rpn : Bool := false
deriving DecidableEq, Repr

inductive Request where
  | calculate (expression : String) (options : Options)
  | session (options : Options)
  | help
  | version
  | misuse
deriving DecidableEq, Repr

inductive Stop where
  | help | version | misuse
deriving DecidableEq, Repr

/-- What the arguments so far have asked for. -/
structure Scan where
  precision : Option Nat := none
  rpn : Bool := false
  expression : Option String := none
  awaitsPrecision : Bool := false
  optionsEnded : Bool := false
deriving DecidableEq, Repr

/-- A number of places: digits, perhaps with a plus before them, below `2 ^ 64`. -/
def places? (text : List Char) : Option Nat :=
  let digits := match text with
    | '+' :: rest => rest
    | _ => text
  if digits ≠ [] ∧ digits.all Decimal.isDigit then
    let places := Nat.ofDigitChars 10 digits 0
    if places ≤ 0xffffffffffffffff then some places else none
  else none

namespace Scan

def takeExpression (state : Scan) (argument : String) : Except Stop Scan :=
  match state.expression with
  | none => .ok { state with expression := some argument }
  | some _ => .error .misuse

def takePrecision (state : Scan) (text : List Char) : Except Stop Scan :=
  match state.precision, places? text with
  | none, some places => .ok { state with precision := some places, awaitsPrecision := false }
  | _, _ => .error .misuse

def takeFlag (state : Scan) : Flag → Except Stop Scan
  | .precision => .ok { state with awaitsPrecision := true }
  | .rpn => if state.rpn then .error .misuse else .ok { state with rpn := true }
  | .verbose => .ok state
  | .help => .error .help
  | .version => .error .version

/-- Takes up the letters behind one minus. What follows the letter of the precision is its value,
with or without an equals sign between them. -/
def takeLetters (state : Scan) : List Char → Except Stop Scan
  | [] => .ok state
  | letter :: rest =>
      match Flag.ofLetter? letter, rest with
      | none, _ => .error .misuse
      | some .precision, '=' :: value => state.takePrecision value
      | some .precision, first :: value => state.takePrecision (first :: value)
      | some flag, _ =>
          match state.takeFlag flag with
          | .ok next => next.takeLetters rest
          | .error stop => .error stop

/-- Takes up the word behind two minuses, with its value behind an equals sign if there is one. -/
def takeWord (state : Scan) (argument : String) (word : List Char) : Except Stop Scan :=
  let name := word.takeWhile (· != '=')
  match Flag.ofWord? name, word.drop name.length with
  | none, _ => state.takeExpression argument
  | some flag, [] => state.takeFlag flag
  | some .precision, _ :: value => state.takePrecision value
  | some _, _ :: _ => .error .misuse

def step (state : Scan) (argument : String) : Except Stop Scan :=
  if state.optionsEnded then state.takeExpression argument
  else if state.awaitsPrecision then state.takePrecision argument.toList
  else
    match argument.toList with
    | ['-', '-'] => .ok { state with optionsEnded := true }
    | '-' :: '-' :: word => state.takeWord argument word
    | '-' :: first :: letters =>
        if state.expression = none ∧ (first :: letters).any (Flag.ofLetter? · == none) then
          state.takeExpression argument
        else state.takeLetters (first :: letters)
    | _ => state.takeExpression argument

def finish (state : Scan) : Request :=
  if state.awaitsPrecision then .misuse
  else
    let options : Options := ⟨state.precision.getD 10, state.rpn⟩
    match state.expression with
    | some expression => .calculate expression options
    | none => .session options

end Scan

def Request.ofArguments (arguments : List String) : Request :=
  match arguments.foldlM Scan.step ({} : Scan) with
  | .ok state => state.finish
  | .error .help => .help
  | .error .version => .version
  | .error .misuse => .misuse

end InfixCalculator.CommandLine
