import InfixCalculator.Calculator
import InfixCalculator.CommandLine.Arguments

namespace InfixCalculator.CommandLine

/-! What the program prints and the code it ends with. -/

structure Outcome where
  output : String
  exitCode : Nat
deriving DecidableEq, Repr

/-- The answer to one expression: its postfix form if that is asked for and there is one, and its
value or the reason why it has none. -/
def answer (calculator : Calculator) (options : Options) (expression : String) : Outcome :=
  match calculator.arrange expression with
  | .error reason => ⟨"Error: Invalid expression. " ++ reason.message ++ "\n", 1⟩
  | .ok tokens =>
      let form := if options.rpn then "RPN: " ++ Token.listText tokens ++ "\n" else ""
      match calculator.value tokens with
      | .error reason => ⟨form ++ "Error: Invalid expression. " ++ reason.message ++ "\n", 1⟩
      | .ok value =>
          ⟨form ++ "Result: " ++ Numeral.fixedText options.precision value ++ "\n", 0⟩

namespace Session

def captions (table : OperatorTable) (placement : Placement) : String :=
  let entries := table.entries.filter (·.placement == placement)
  ", ".intercalate (entries.map OperatorEntry.caption)

def banner (table : OperatorTable) : String :=
  "--- shuntcalc (Infix Mode) ---\n" ++
  "Supported Operations:\n" ++
  "  Binary: " ++ captions table .between ++ "\n" ++
  "          a r b = b-th root of a\n" ++
  "  Unary (Prefix): " ++ captions table .before ++ " (e.g., S30)\n" ++
  "  Unary (Postfix): " ++ captions table .after ++ " (e.g., 6!)\n" ++
  "  Constant: p (PI)\n" ++
  "\n" ++
  "NOTE: Use explicit multiplication (e.g., 2*(3) is correct).\n" ++
  "Type 'exit' or 'quit' to end.\n" ++
  "\n"

def prompt : String := "Expression: "

def farewell : String := "Exiting calculator. Goodbye!\n"

/-- Cuts input at the ends of lines, which are a line feed or a carriage return and a line feed. The
last line needs no end. -/
def lines : List UInt8 → List (List UInt8)
  | [] => []
  | 13 :: 10 :: rest => [] :: lines rest
  | 10 :: rest => [] :: lines rest
  | byte :: rest =>
      match lines rest with
      | [] => [[byte]]
      | line :: more => (byte :: line) :: more

/-- Whether a line, without the blanks around it, ends the session. -/
def endsSession (text : List Char) : Bool :=
  let folded := text.map Char.toLower
  folded.isEmpty || folded == "exit".toList || folded == "quit".toList

/-- What is printed on a line of input, and the exit code if the session ends there. -/
structure Reply where
  output : String
  exitCode : Option Nat
deriving DecidableEq, Repr

/-- The reply to a line that is no text is silence, and the session fails. -/
def reply (calculator : Calculator) (options : Options) (line : List UInt8) : Reply :=
  match String.fromUTF8? ⟨line.toArray⟩ with
  | none => ⟨"", some 1⟩
  | some text =>
      let expression := Text.trim text.toList
      if endsSession expression then ⟨farewell, some 0⟩
      else ⟨(answer calculator options (String.ofList expression)).output ++ "\n", none⟩

/-- A prompt and a reply for each line, up to the one that ends the session or to the end of the
input. -/
def converse (calculator : Calculator) (options : Options) : List (List UInt8) → Outcome
  | [] => ⟨prompt ++ farewell, 0⟩
  | line :: rest =>
      let spoken := reply calculator options line
      match spoken.exitCode with
      | some code => ⟨prompt ++ spoken.output, code⟩
      | none =>
          let later := converse calculator options rest
          ⟨prompt ++ spoken.output ++ later.output, later.exitCode⟩

def run (calculator : Calculator) (options : Options) (input : List UInt8) : Outcome :=
  let talk := converse calculator options (lines input)
  ⟨banner calculator.table ++ talk.output, talk.exitCode⟩

end Session

def versionText : String := "shuntcalc 0.1.0\n"

/-- What the program prints and ends with, if `help` is its text for those who ask for help. -/
def run (help : String) (arguments : List String) (input : List UInt8) : Outcome :=
  match Request.ofArguments arguments with
  | .calculate expression options => answer Calculator.standard options expression
  | .session options => Session.run Calculator.standard options input
  | .help => ⟨help, 0⟩
  | .version => ⟨versionText, 0⟩
  | .misuse => ⟨"", 2⟩

end InfixCalculator.CommandLine
