import InfixCalculator.Rounding

namespace InfixCalculator.Binary64

/-! The exact side of double-precision numbers.

Every finite double is a whole multiple of the least positive one, `2 ^ -1074`, and `units` is that
multiple without its sign: questions about the value of a double become questions about a natural
number. The bits below the sign, read as one number, are its `magnitude`. It counts the doubles in
order of size, so the neighbours of a double are one magnitude away, and the magnitude of infinity
is the one after the largest finite double. -/

/-- The least positive doubles that make up one. -/
def unitsPerOne : Nat := Nat.pow 2 1074

def signPlace : Nat := 0x8000000000000000

/-- The doubles that share an exponent; also the weight of the lowest exponent bit. -/
def fractionCount : Nat := 0x10000000000000

def infinityMagnitude : Nat := 2047 * fractionCount

def infinity : Float := Float.ofBits (UInt64.ofNat infinityMagnitude)

/-- The sign bit; set on negative zero as well. -/
def isNegative (x : Float) : Bool := decide (signPlace ≤ x.toBits.toNat)

def magnitude (x : Float) : Nat := x.toBits.toNat % signPlace

/-- The size that a magnitude stands for, in least positive doubles. Beyond the finite magnitudes
the scale simply goes on, with `2 ^ 1024` for infinity. -/
def unitsOfMagnitude (magnitude : Nat) : Nat :=
  if magnitude < fractionCount then magnitude
  else (fractionCount + magnitude % fractionCount) * Nat.pow 2 (magnitude / fractionCount - 1)

def units (x : Float) : Nat := unitsOfMagnitude (magnitude x)

/-- The magnitude nearest to `numerator / denominator`, ties going to the even one, as the 53 bits
that a double keeps allow. A rounding that carries into the next power of two carries into the
exponent too, because the two stand side by side in a magnitude. -/
def nearestMagnitude (numerator denominator : Nat) : Nat :=
  let scaled := numerator * unitsPerOne
  let dropped := (scaled / denominator).log2 - 52
  min (dropped * fractionCount + roundHalfEven scaled (denominator * Nat.pow 2 dropped))
    infinityMagnitude

/-- The double nearest to `numerator / denominator`; from halfway between the largest finite double
and `2 ^ 1024` on, that is infinity. -/
def nearest (numerator denominator : Nat) : Float :=
  Float.ofBits (UInt64.ofNat (nearestMagnitude numerator denominator))

/-- Whether the value is a whole number. Infinity and NaN are none. -/
def isWhole (x : Float) : Bool :=
  decide (magnitude x < infinityMagnitude) && units x % unitsPerOne == 0

def wholePart (x : Float) : Nat := units x / unitsPerOne

def isOdd (x : Float) : Bool := isWhole x && wholePart x % 2 == 1

/-- The largest natural number up to which doubles stand for natural numbers one by one. -/
def largestExact : Nat := 0x1fffffffffffff

/-- The natural number that a double is, of those up to `largestExact`. Negative zero is zero. -/
def natural? (x : Float) : Option Nat :=
  if isWhole x ∧ (isNegative x → units x = 0) ∧ wholePart x ≤ largestExact then
    some (wholePart x)
  else none

end InfixCalculator.Binary64
