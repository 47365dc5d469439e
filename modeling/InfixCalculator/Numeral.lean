import InfixCalculator.Decimal.Shortest
import InfixCalculator.Decimal.Fixed

namespace InfixCalculator.Numeral

/-! The spelling of doubles, always positional.

`read` takes the unsigned numerals of an expression to doubles. `text` and `fixedText` write doubles
of either sign; a zero keeps its sign. -/

/-- The value of digits around at most one point, rounded once. -/
def read (spelling : List Char) : Float := (Decimal.ofDigits spelling).toDouble

/-- Puts a sign before the digits of a finite double and spells the other doubles by their names. -/
def spell (digits : Float → List Char) (x : Float) : String :=
  if x.isNaN then "NaN"
  else
    let size := if x.isInf then ['i', 'n', 'f'] else digits x
    String.ofList (if Binary64.isNegative x then '-' :: size else size)

/-- The fewest digits that read back. -/
def text (x : Float) : String := spell (fun x => (Decimal.shortest x).digits) x

/-- Exactly `places` places, rounded half to even. -/
def fixedText (places : Nat) (x : Float) : String :=
  spell (fun x => (Decimal.fixed places x).digits) x

end InfixCalculator.Numeral
