import Backpatch.Number.Decimal

/-!
# Values

A value is a number or a Boolean. It is what a literal denotes, what a table of constants holds, and
what the stack machine computes with.
-/

namespace Backpatch

/-- A number or a Boolean. -/
inductive Value where
  /-- A number. -/
  | number (x : Number)
  /-- A Boolean. -/
  | boolean (b : Bool)
deriving DecidableEq, Repr

namespace Value

/-- The text of a value. -/
def text : Value → String
  | number x => x.text
  | boolean true => "true"
  | boolean false => "false"

/-- Equality of values, where numbers compare as IEEE 754 has it: values of different kinds differ,
and a NaN differs from itself. -/
def numEq : Value → Value → Bool
  | number x, number y => x.numEq y
  | boolean a, boolean b => a == b
  | _, _ => false

/-- One value for each class of values that share an entry in a table of constants. -/
def canonical : Value → Value
  | number x => number x.canonical
  | boolean b => boolean b

/-- Whether a condition takes a value for true. Of the numbers only the zeros are false. -/
def truthy : Value → Bool
  | number x => !x.isZero
  | boolean b => b

/-- A canonical value is its own representative. -/
theorem canonical_canonical (v : Value) : v.canonical.canonical = v.canonical := by
  cases v with
  | number x => simp [canonical, Number.canonical_canonical]
  | boolean b => rfl

end Value

end Backpatch
