import Backpatch.Instruction
import Backpatch.Value

/-!
# Programs

A program is its code with the two tables that operands refer to.
-/

namespace Backpatch

/-- Code with its table of names and its table of constants. -/
structure Program where
  /-- The instructions in the order of their addresses. -/
  code : Array Instruction
  /-- The names of the globals, by identifier. -/
  names : List String
  /-- The constants, by identifier. -/
  constants : List Value
deriving DecidableEq, Repr

namespace Program

/-- The name with the given identifier. -/
def name? (p : Program) (id : Nat) : Option String :=
  p.names[id]?

/-- The constant with the given identifier. -/
def constant? (p : Program) (id : Nat) : Option Value :=
  p.constants[id]?

/-- The listing of a program: the lines of its instructions, each ended by a line feed. -/
def listing (p : Program) : String :=
  String.join (p.code.toList.map fun i => i.text ++ "\n")

/-- Equality of programs, where numbers compare as IEEE 754 has it. -/
def numEq (p q : Program) : Bool :=
  p.code == q.code && p.names == q.names && p.constants.isEqv q.constants Value.numEq

end Program

end Backpatch
