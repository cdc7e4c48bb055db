import Backpatch.Opcode

/-!
# Instructions

An instruction carries its address, an operation, and, if it has them, an operand and a note for the
reader. Its text is one line of a listing.
-/

namespace Backpatch

/-- One instruction of a program. -/
structure Instruction where
  /-- The address at which it stands. -/
  address : Nat
  /-- The operation. -/
  opcode : Opcode
  /-- The operand, if there is one. -/
  operand : Option Nat := none
  /-- What the operand stands for, for the reader. -/
  display : Option String := none
deriving DecidableEq, Repr

namespace Instruction

/-- The address that a jump goes to, once it has one. -/
def target (i : Instruction) : Option Nat :=
  if i.opcode.isJump then i.operand else none

/-- An address in a column four characters wide. -/
def addressColumn (address : Nat) : String :=
  String.ofList ((Nat.toDigits 10 address).leftpad 4 ' ')

/-- The operand as it follows the mnemonic. -/
def operandText : Option Nat → String
  | some n => " " ++ toString n
  | none => ""

/-- The note as it ends the line. -/
def displayText : Option String → String
  | some s => " (" ++ s ++ ")"
  | none => ""

/-- The line of an instruction: address, mnemonic, operand, and note in parentheses. -/
def text (i : Instruction) : String :=
  addressColumn i.address ++ " " ++ i.opcode.mnemonic ++ operandText i.operand ++
    displayText i.display

end Instruction

end Backpatch
