import InfixCalculator.OperatorTable
import InfixCalculator.Token

namespace InfixCalculator

/-! Postfix order from infix order.

Operands and factorials keep their order. Functions, binary operators and opening parentheses are
held back on a stack until something that binds less tightly, a closing parenthesis or the end of the
expression lets them go. -/

/-- Why tokens have no postfix order; an index counts tokens from the first. -/
inductive ConversionError where
  | unopenedParen (index : Nat)
  | unclosedParen
  /-- The table lacks the operator. -/
  | unknownOperator (operator : Operator) (index : Nat)
deriving DecidableEq

def ConversionError.message : ConversionError → String
  | .unopenedParen index =>
      s!"Mismatched parentheses in expression: missing '(' for token {index}."
  | .unclosedParen => "Mismatched parentheses in expression: missing ')'."
  | .unknownOperator operator index =>
      s!"Invalid token found during parsing: '{operator.symbol}' (token {index})."

namespace Postfix

/-- What is held back until its operands are complete. -/
inductive Held where
  | openParen
  | operator (entry : OperatorEntry)
deriving DecidableEq

structure Arrangement where
  /-- The tokens let go so far, the latest first. -/
  output : List Token
  /-- The latest held first. -/
  stack : List Held
deriving DecidableEq

namespace Arrangement

def start : Arrangement := ⟨[], []⟩

def emit (state : Arrangement) (token : Token) : Arrangement :=
  { state with output := token :: state.output }

def hold (state : Arrangement) (held : Held) : Arrangement :=
  { state with stack := held :: state.stack }

/-- Lets go of the operators that bind before `incoming`, down to the first that does not. -/
def releaseFor (incoming : OperatorEntry) (output : List Token) : List Held → Arrangement
  | [] => ⟨output, []⟩
  | .openParen :: rest => ⟨output, .openParen :: rest⟩
  | .operator top :: rest =>
      if top.bindsBefore incoming then
        releaseFor incoming (.operator top.operator :: output) rest
      else ⟨output, .operator top :: rest⟩

/-- Lets go of everything down to the latest opening parenthesis, and drops that. -/
def closeGroup (output : List Token) : List Held → Option Arrangement
  | [] => none
  | .openParen :: rest => some ⟨output, rest⟩
  | .operator top :: rest => closeGroup (.operator top.operator :: output) rest

/-- Lets go of a function whose argument was the group just closed. -/
def releaseFunction (state : Arrangement) : Arrangement :=
  match state.stack with
  | .operator top :: rest =>
      if top.placement = .before then ⟨.operator top.operator :: state.output, rest⟩ else state
  | _ => state

def addOperator (state : Arrangement) (entry : OperatorEntry) : Arrangement :=
  match entry.placement with
  | .before => state.hold (.operator entry)
  | .after => state.emit (.operator entry.operator)
  | .between => (releaseFor entry state.output state.stack).hold (.operator entry)

def step (table : OperatorTable) (state : Arrangement) (item : Token × Nat) :
    Except ConversionError Arrangement :=
  match item.1 with
  | .number value => .ok (state.emit (.number value))
  | .constant => .ok (state.emit .constant)
  | .openParen => .ok (state.hold .openParen)
  | .closeParen =>
      match closeGroup state.output state.stack with
      | some closed => .ok closed.releaseFunction
      | none => .error (.unopenedParen item.2)
  | .operator operation =>
      match table.entry? operation with
      | some entry => .ok (state.addOperator entry)
      | none => .error (.unknownOperator operation item.2)

def finish (output : List Token) : List Held → Except ConversionError (List Token)
  | [] => .ok output.reverse
  | .openParen :: _ => .error .unclosedParen
  | .operator top :: rest => finish (.operator top.operator :: output) rest

end Arrangement

def ofInfix (table : OperatorTable) (tokens : List Token) :
    Except ConversionError (List Token) := do
  let state ← tokens.zipIdx.foldlM (Arrangement.step table) Arrangement.start
  Arrangement.finish state.output state.stack

end Postfix
end InfixCalculator
