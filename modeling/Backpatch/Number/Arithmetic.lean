import Backpatch.Number.Basic

/-!
# Arithmetic on numbers

The four basic operations round to nearest, as binary64 arithmetic does. The remainder is exact: both
magnitudes are whole numbers of units, so it is their remainder in units, with the sign of the
dividend.
-/

namespace Backpatch

namespace Number

/-- The number as a machine float. -/
def toFloat (x : Number) : Float :=
  Float.ofBits x.toBits

/-- The number of a machine float. -/
def ofFloat (f : Float) : Number :=
  ofBits f.toBits

/-- The sum. -/
def add (x y : Number) : Number :=
  ofFloat (x.toFloat + y.toFloat)

/-- The difference. -/
def sub (x y : Number) : Number :=
  ofFloat (x.toFloat - y.toFloat)

/-- The product. -/
def mul (x y : Number) : Number :=
  ofFloat (x.toFloat * y.toFloat)

/-- The quotient. -/
def div (x y : Number) : Number :=
  ofFloat (x.toFloat / y.toFloat)

/-- The power. A signaling NaN always gives a NaN, while a quiet one gives 1 with the exponent zero
and as the exponent of 1. -/
def pow (x y : Number) : Number :=
  if x.isSignaling || y.isSignaling then nan else ofFloat (Float.pow x.toFloat y.toFloat)

/-- The remainder of the division cut off toward zero, with the sign of `x`. There is none of an
infinity or by a zero, and an infinite divisor leaves `x`. -/
def rem (x y : Number) : Number :=
  if x.isNaN || y.isNaN || x.isInfinite || y.isZero then nan
  else if y.isInfinite then x
  else ofUnits x.negative (x.units % y.units)

/-- The number with the other sign. -/
def neg (x : Number) : Number :=
  { x with negative := !x.negative }

end Number

end Backpatch
