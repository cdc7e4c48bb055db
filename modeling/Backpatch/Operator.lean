import Backpatch.Error

/-!
# Operators

The binary operators have a numeric code, their place in `BinaryOp.all`, and a symbol; the unary
operators have a symbol only.
-/

namespace Backpatch

/-- A binary operator. -/
inductive BinaryOp where
  | or | and | le | lt | eq | ne | ge | gt | add | sub | mul | div | rem | pow
deriving DecidableEq, Repr

namespace BinaryOp

/-- The operators in the order of their codes. -/
def all : List BinaryOp :=
  [or, and, le, lt, eq, ne, ge, gt, add, sub, mul, div, rem, pow]

/-- The code of an operator. -/
def code (op : BinaryOp) : Nat :=
  all.idxOf op

/-- The operator of a code. -/
def ofCode (code : Nat) : Except UnknownCode BinaryOp :=
  match all[code]? with
  | some op => .ok op
  | none => .error ⟨"BinaryOp", code⟩

/-- The symbol of an operator. -/
def symbol : BinaryOp → String
  | or => "||"
  | and => "&&"
  | le => "<="
  | lt => "<"
  | eq => "=="
  | ne => "!="
  | ge => ">="
  | gt => ">"
  | add => "+"
  | sub => "-"
  | mul => "*"
  | div => "/"
  | rem => "%"
  | pow => "**"

/-- The operator of a symbol. -/
def ofSymbol? (symbol : String) : Option BinaryOp :=
  all.find? fun op => op.symbol == symbol

/-- An operator is recovered from its code. -/
theorem ofCode_code (op : BinaryOp) : ofCode op.code = .ok op := by
  cases op <;> rfl

/-- An operator is recovered from its symbol. -/
theorem ofSymbol?_symbol (op : BinaryOp) : ofSymbol? op.symbol = some op := by
  cases op <;> rfl

/-- Every code is below 256, so cutting a code to eight bits keeps it. -/
theorem code_lt (op : BinaryOp) : op.code < 256 := by
  cases op <;> decide

end BinaryOp

/-- A unary operator. -/
inductive UnaryOp where
  | not | negate
deriving DecidableEq, Repr

namespace UnaryOp

/-- The symbol of an operator. -/
def symbol : UnaryOp → String
  | not => "!"
  | negate => "-"

/-- The operator of a symbol. -/
def ofSymbol? (symbol : String) : Option UnaryOp :=
  [not, negate].find? fun op => op.symbol == symbol

/-- An operator is recovered from its symbol. -/
theorem ofSymbol?_symbol (op : UnaryOp) : ofSymbol? op.symbol = some op := by
  cases op <;> rfl

end UnaryOp

end Backpatch
