/-!
# Binary64 numbers

A number is the three fields of its binary64 layout. Every value that is not a NaN is a whole
multiple of a unit, `2^-1074`, so `units` holds its magnitude as one natural number, and equality and
order of values are those of the integer `value`. Three relations stand beside each other: `=` compares
the layout, `numEq` compares values as IEEE 754 does, and `canonical` picks one number for each
class in which all NaNs are one and both zeros are one.
-/

namespace Backpatch

/-- A binary64 number by its layout: the sign bit, the biased exponent, and the fraction. -/
structure Number where
  /-- The sign bit. -/
  negative : Bool
  /-- The biased exponent; 2047 marks the infinities and the NaNs. -/
  exponent : Fin 2048
  /-- The fraction below the leading bit of the significand. -/
  fraction : Fin (Nat.pow 2 52)
deriving DecidableEq, Repr

namespace Number

/-- The number whose layout is the given 64-bit pattern. -/
def ofBits (bits : UInt64) : Number where
  negative := decide (Nat.pow 2 63 ≤ bits.toNat)
  exponent := ⟨bits.toNat / Nat.pow 2 52 % 2048, Nat.mod_lt _ (by decide)⟩
  fraction := ⟨bits.toNat % Nat.pow 2 52, Nat.mod_lt _ (by decide)⟩

/-- The 64-bit pattern of a number. -/
def toBits (x : Number) : UInt64 :=
  UInt64.ofNat
    ((if x.negative then Nat.pow 2 63 else 0) + x.exponent.val * Nat.pow 2 52 + x.fraction.val)

/-- A bit pattern is recovered from its number. -/
theorem toBits_ofBits (bits : UInt64) : (ofBits bits).toBits = bits := by
  have h := bits.toNat_lt
  apply UInt64.toNat_inj.mp
  simp only [toBits, ofBits, UInt64.toNat_ofNat', decide_eq_true_eq, Nat.pow_eq]
  split <;> omega

/-- A number is recovered from its bit pattern. -/
theorem ofBits_toBits (x : Number) : ofBits x.toBits = x := by
  obtain ⟨s, ⟨e, he⟩, ⟨f, hf⟩⟩ := x
  rw [Nat.pow_eq] at hf
  cases s <;> simp only [ofBits, toBits, UInt64.toNat_ofNat', mk.injEq, Fin.mk.injEq,
    decide_eq_true_eq, decide_eq_false_iff_not, if_true, if_false, Bool.false_eq_true,
    Nat.pow_eq] <;>
    omega

/-- Whether a number is a NaN. -/
def isNaN (x : Number) : Bool :=
  x.exponent.val == 2047 && x.fraction.val != 0

/-- Whether a number is a signaling NaN, one whose first fraction bit is clear. -/
def isSignaling (x : Number) : Bool :=
  x.isNaN && decide (x.fraction.val < Nat.pow 2 51)

/-- Whether a number is one of the two infinities. -/
def isInfinite (x : Number) : Bool :=
  x.exponent.val == 2047 && x.fraction.val == 0

/-- Whether a number is one of the two zeros. -/
def isZero (x : Number) : Bool :=
  x.exponent.val == 0 && x.fraction.val == 0

/-- The positive zero. -/
def zero : Number :=
  ⟨false, 0, 0⟩

/-- The quiet NaN that stands for all of them. -/
def nan : Number :=
  ⟨false, 2047, ⟨Nat.pow 2 51, by decide⟩⟩

/-- The infinity of the given sign. -/
def infinity (negative : Bool) : Number :=
  ⟨negative, 2047, 0⟩

/-- The binary places below the point that a number can have. A unit is the last of them. -/
def unitPlaces : Nat :=
  1074

/-- How many units make one. -/
def unitsPerOne : Nat :=
  Nat.pow 2 unitPlaces

/-- The distance to the next larger magnitude, in units. -/
def step (x : Number) : Nat :=
  Nat.pow 2 (x.exponent.val - 1)

/-- The magnitude in units. An infinity stands one step above the largest finite
number, so `units` orders all magnitudes. -/
def units (x : Number) : Nat :=
  if x.exponent.val = 0 then x.fraction.val else (Nat.pow 2 52 + x.fraction.val) * x.step

/-- The value in units, with its sign. Both zeros have the value 0. -/
def value (x : Number) : Int :=
  if x.negative then -(x.units : Int) else x.units

/-- The number of the given sign whose magnitude is `u` units, cut off below the last place of the
significand; an infinity if `u` is out of range. -/
def ofUnits (negative : Bool) (u : Nat) : Number :=
  if u < Nat.pow 2 52 then
    ⟨negative, 0, Fin.ofNat (Nat.pow 2 52) u⟩
  else if u.log2 - 52 < 2046 then
    ⟨negative, Fin.ofNat 2048 (u.log2 - 52 + 1),
      Fin.ofNat (Nat.pow 2 52) (u / Nat.pow 2 (u.log2 - 52))⟩
  else
    infinity negative

/-- The number of an integer, exact up to `2^53` in magnitude. -/
def ofInt (n : Int) : Number :=
  ofUnits (decide (n < 0)) (n.natAbs * unitsPerOne)

/-- Equality of values as IEEE 754 has it: a NaN equals nothing, and the zeros are equal. -/
def numEq (x y : Number) : Bool :=
  !x.isNaN && !y.isNaN && x.value == y.value

/-- The strict order of values; false beside a NaN. -/
def numLt (x y : Number) : Bool :=
  !x.isNaN && !y.isNaN && decide (x.value < y.value)

/-- The order of values; false beside a NaN. -/
def numLe (x y : Number) : Bool :=
  !x.isNaN && !y.isNaN && decide (x.value ≤ y.value)

/-- One number for each class of numbers that a table of literals does not tell apart: the NaNs are
one class, the zeros are one class, and every other number is its own. -/
def canonical (x : Number) : Number :=
  if x.isNaN then nan else if x.isZero then zero else x

/-- A canonical number is its own representative. -/
theorem canonical_canonical (x : Number) : x.canonical.canonical = x.canonical := by
  unfold canonical
  split
  · rfl
  · split
    · rfl
    · simp [*]

end Number

end Backpatch
