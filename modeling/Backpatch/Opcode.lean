import Backpatch.Error

/-!
# Operation codes

The operations of the stack machine. A `Branch` is one of the two operations whose operand is the
address of an instruction.
-/

namespace Backpatch

/-- An operation of the stack machine. -/
inductive Opcode where
  /-- Pushes the value of a global. -/
  | loadName
  /-- Pops a value into a global. -/
  | storeName
  /-- Pushes the value of a parameter. -/
  | loadFast
  /-- Pushes a constant. -/
  | loadConst
  /-- Starts the body of a function. -/
  | makeFunction
  /-- Calls the function under its arguments. -/
  | call
  /-- Calls a built-in function. -/
  | callBuiltin
  /-- Applies a binary operator to the two topmost values. -/
  | binary
  /-- Negates the truth of the topmost value. -/
  | not
  /-- Negates the topmost number. -/
  | negate
  /-- Goes on at another address. -/
  | jump
  /-- Pops a value and goes on at another address if it counts as false. -/
  | jumpIfFalse
deriving DecidableEq, Repr

namespace Opcode

/-- The operations in the order of their codes. -/
def all : List Opcode :=
  [loadName, storeName, loadFast, loadConst, makeFunction, call, callBuiltin, binary, not, negate,
    jump, jumpIfFalse]

/-- The code of an operation. -/
def code (op : Opcode) : Nat :=
  all.idxOf op

/-- The operation of a code. -/
def ofCode (code : Nat) : Except UnknownCode Opcode :=
  match all[code]? with
  | some op => .ok op
  | none => .error ⟨"OpCode", code⟩

/-- The mnemonic of an operation. -/
def mnemonic : Opcode → String
  | loadName => "LOAD_NAME"
  | storeName => "STORE_NAME"
  | loadFast => "LOAD_FAST"
  | loadConst => "LOAD_CONST"
  | makeFunction => "MAKE_FUNCTION"
  | call => "CALL"
  | callBuiltin => "CALL_STDLIB"
  | binary => "BINARY_OP"
  | not => "UNARY_NOT"
  | negate => "UNARY_NEGATIVE"
  | jump => "JUMP"
  | jumpIfFalse => "JUMP_IF_FALSE"

/-- The operation of a mnemonic. -/
def ofMnemonic? (mnemonic : String) : Option Opcode :=
  all.find? fun op => op.mnemonic == mnemonic

/-- Whether the operation reads an operand. -/
def hasOperand : Opcode → Bool
  | makeFunction | call | not | negate => false
  | _ => true

/-- Whether the operand is the address of an instruction. -/
def isJump : Opcode → Bool
  | jump | jumpIfFalse => true
  | _ => false

/-- An operation is recovered from its code. -/
theorem ofCode_code (op : Opcode) : ofCode op.code = .ok op := by
  cases op <;> rfl

/-- An operation is recovered from its mnemonic. -/
theorem ofMnemonic?_mnemonic (op : Opcode) : ofMnemonic? op.mnemonic = some op := by
  cases op <;> rfl

end Opcode

/-- A jump that may be reserved before its target is known. -/
inductive Branch where
  /-- Always taken. -/
  | always
  /-- Taken if the popped value counts as false. -/
  | ifFalse
deriving DecidableEq, Repr

namespace Branch

/-- The operation of a branch. -/
def opcode : Branch → Opcode
  | always => .jump
  | ifFalse => .jumpIfFalse

/-- The branch that an operation makes, if it is a jump. -/
def ofOpcode? : Opcode → Option Branch
  | .jump => some always
  | .jumpIfFalse => some ifFalse
  | _ => none

/-- The jumps are the operations of the branches. -/
theorem isJump_opcode (b : Branch) : b.opcode.isJump = true := by
  cases b <;> rfl

/-- A branch is recovered from its operation, and every other operation is no branch. -/
theorem ofOpcode?_eq_some_iff {op : Opcode} {b : Branch} :
    ofOpcode? op = some b ↔ op = b.opcode := by
  cases op <;> cases b <;> simp [ofOpcode?, opcode]

end Branch

end Backpatch
