/-!
# Causes of failure

`GenerationError` lists the ways in which code generation fails, and `UnknownCode` is the failure to
read a numeric code. Each has its wording in one function `message`.
-/

namespace Backpatch

/-- The number of addresses and of table entries that an operand can name. -/
def addressLimit : Nat :=
  Nat.pow 2 32

/-- Why code generation fails. -/
inductive GenerationError where
  /-- A function is declared inside the body of another. -/
  | nestedFunction (outer inner : String)
  /-- A reserved jump never got its target. -/
  | pendingJump (address : Nat)
  /-- A target is given to something that is not an open reserved jump. -/
  | notPending (address : Nat)
  /-- The code has outgrown the addresses. -/
  | codeFull (length : Nat)
  /-- A table has outgrown the operands. -/
  | tableFull (length : Nat)
deriving DecidableEq, Repr

/-- The wording of a generation error. -/
def GenerationError.message : GenerationError → String
  | nestedFunction outer inner => s!"function '{inner}' is declared inside the body of '{outer}'"
  | pendingJump address => s!"jump at address {address} was never patched"
  | notPending address => s!"address {address} is not an open jump placeholder"
  | codeFull length =>
    s!"program has {length} instructions, exceeding the addressable range"
  | tableFull length =>
    s!"symbol table has {length} entries, exceeding the addressable range"

/-- A numeric code that no member of an enumeration has. -/
structure UnknownCode where
  /-- The name of the enumeration. -/
  enumeration : String
  /-- The code that was read. -/
  code : Nat
deriving DecidableEq, Repr

/-- The wording of an unknown code. -/
def UnknownCode.message (e : UnknownCode) : String :=
  s!"No discriminant in enum `{e.enumeration}` matches the value `{e.code}`"

end Backpatch
