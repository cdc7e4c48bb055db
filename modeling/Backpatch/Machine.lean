import Backpatch.Builtin
import Backpatch.Number.Arithmetic
import Backpatch.Operator
import Backpatch.Program

/-!
# The stack machine

The machine runs the code of a program from address 0 until it leaves the code. It runs code outside
functions only, and of the built-in functions it has `print`. A run takes a limited number of steps,
so `Machine.run` always answers.
-/

namespace Backpatch

/-- Why a run of the machine fails. -/
inductive MachineError where
  /-- The steps ran out before the instruction at `pc`. -/
  | stepLimit (pc : Nat)
  /-- An instruction lacks the operand that its operation reads. -/
  | missingOperand (opcode : Opcode)
  /-- There is no such constant. -/
  | noConstant (id : Nat)
  /-- A global is read before it has a value. -/
  | unsetGlobal (id : Nat)
  /-- A store goes to a global that the program has no name for. -/
  | noGlobal (id : Nat)
  /-- There is no such binary operator. -/
  | noOperator (code : Nat)
  /-- A Boolean stands where a number is wanted. -/
  | expectedNumber (found : Bool)
  /-- The machine does not have the built-in function. -/
  | unsupportedBuiltin (id : Nat)
  /-- The machine does not have the operation. -/
  | unsupportedOpcode (opcode : Opcode)
  /-- A value is wanted from the empty stack. -/
  | stackUnderflow
deriving DecidableEq, Repr

/-- The wording of a machine error. -/
def MachineError.message : MachineError → String
  | stepLimit pc => s!"step limit exceeded at address {pc}"
  | missingOperand opcode => s!"{opcode.mnemonic} without operand"
  | noConstant id => s!"no constant {id}"
  | unsetGlobal id => s!"read of unset global {id}"
  | noGlobal id => s!"store to unknown global {id}"
  | noOperator code => s!"bad op {code}"
  | expectedNumber found => "expected number, got " ++ (Value.boolean found).text
  | unsupportedBuiltin id => s!"unsupported stdlib function {id}"
  | unsupportedOpcode opcode => s!"{opcode.mnemonic} is not supported here"
  | stackUnderflow => "stack underflow"

namespace Value

/-- The number that a value is. -/
def asNumber : Value → Except MachineError Number
  | number x => .ok x
  | boolean b => .error (.expectedNumber b)

/-- A function of two numbers on two values. The left one is looked at first. -/
def onNumbers (f : Number → Number → Value) (left right : Value) : Except MachineError Value := do
  let x ← left.asNumber
  let y ← right.asNumber
  return f x y

/-- A binary operator on values. The connectives and the equalities take values of any kind, and the
others take numbers. -/
def applyBinary : BinaryOp → Value → Value → Except MachineError Value
  | .or, left, right => .ok (boolean (left.truthy || right.truthy))
  | .and, left, right => .ok (boolean (left.truthy && right.truthy))
  | .le, left, right => onNumbers (fun x y => boolean (x.numLe y)) left right
  | .lt, left, right => onNumbers (fun x y => boolean (x.numLt y)) left right
  | .eq, left, right => .ok (boolean (left.numEq right))
  | .ne, left, right => .ok (boolean !(left.numEq right))
  | .ge, left, right => onNumbers (fun x y => boolean (y.numLe x)) left right
  | .gt, left, right => onNumbers (fun x y => boolean (y.numLt x)) left right
  | .add, left, right => onNumbers (fun x y => number (x.add y)) left right
  | .sub, left, right => onNumbers (fun x y => number (x.sub y)) left right
  | .mul, left, right => onNumbers (fun x y => number (x.mul y)) left right
  | .div, left, right => onNumbers (fun x y => number (x.div y)) left right
  | .rem, left, right => onNumbers (fun x y => number (x.rem y)) left right
  | .pow, left, right => onNumbers (fun x y => number (x.pow y)) left right

/-- A unary operator on a value. -/
def applyUnary : UnaryOp → Value → Except MachineError Value
  | .not, v => .ok (boolean !v.truthy)
  | .negate, v => do return number (← v.asNumber).neg

end Value

/-- The state of the machine. -/
structure Machine where
  /-- The address of the next instruction. -/
  pc : Nat := 0
  /-- The stack, its top first. -/
  stack : List Value := []
  /-- The values of the globals, by identifier. -/
  globals : List (Option Value) := []
  /-- The values printed so far. -/
  printed : Array Value := #[]
  /-- The addresses that the executed instructions carry. -/
  trace : Array Nat := #[]
deriving DecidableEq, Repr

namespace Machine

/-- The greatest number of steps of a run. -/
def stepLimit : Nat :=
  10000

/-- The operand of an instruction. -/
def operand (i : Instruction) : Except MachineError Nat :=
  match i.operand with
  | some n => .ok n
  | none => .error (.missingOperand i.opcode)

/-- The machine with one more value on the stack. -/
def push (m : Machine) (v : Value) : Machine :=
  { m with stack := v :: m.stack }

/-- The top of the stack and the machine without it. -/
def pop (m : Machine) : Except MachineError (Value × Machine) :=
  match m.stack with
  | v :: stack => .ok (v, { m with stack := stack })
  | [] => .error .stackUnderflow

/-- The value of the global with the given identifier, if it has one. -/
def global? (m : Machine) (id : Nat) : Option Value :=
  m.globals[id]?.join

/-- The effect of one instruction on a machine that has moved on to the next. The operand is read
before the stack. Codes of operators and identifiers of built-in functions are cut to eight bits. -/
def execute (p : Program) (i : Instruction) (m : Machine) : Except MachineError Machine :=
  match i.opcode with
  | .loadConst => do
    let id ← operand i
    match p.constant? id with
    | some v => return m.push v
    | none => throw (.noConstant id)
  | .loadName => do
    let id ← operand i
    match m.global? id with
    | some v => return m.push v
    | none => throw (.unsetGlobal id)
  | .storeName => do
    let id ← operand i
    let (v, m) ← m.pop
    if id < m.globals.length then
      return { m with globals := m.globals.set id (some v) }
    else
      throw (.noGlobal id)
  | .binary => do
    let code := (← operand i) % 256
    match BinaryOp.ofCode code with
    | .ok op => do
      let (right, m) ← m.pop
      let (left, m) ← m.pop
      return m.push (← Value.applyBinary op left right)
    | .error _ => throw (.noOperator code)
  | .not => do
    let (v, m) ← m.pop
    return m.push (← Value.applyUnary .not v)
  | .negate => do
    let (v, m) ← m.pop
    return m.push (← Value.applyUnary .negate v)
  | .callBuiltin => do
    let id := (← operand i) % 256
    match Builtin.ofId id with
    | .ok .print => do
      let (v, m) ← m.pop
      return { m with printed := m.printed.push v }
    | _ => throw (.unsupportedBuiltin id)
  | .jump => do
    let target ← operand i
    return { m with pc := target }
  | .jumpIfFalse => do
    let target ← operand i
    let (v, m) ← m.pop
    return if v.truthy then m else { m with pc := target }
  | .makeFunction | .loadFast | .call => throw (.unsupportedOpcode i.opcode)

/-- One step: the instruction is traced, the machine moves on, and the instruction takes effect. -/
def step (p : Program) (i : Instruction) (m : Machine) : Except MachineError Machine :=
  execute p i { m with pc := m.pc + 1, trace := m.trace.push i.address }

/-- Runs a machine for at most `fuel` steps, until it leaves the code. -/
def runFrom (p : Program) : Nat → Machine → Except MachineError Machine
  | 0, m =>
    match p.code[m.pc]? with
    | some _ => .error (.stepLimit m.pc)
    | none => .ok m
  | fuel + 1, m =>
    match p.code[m.pc]? with
    | some i =>
      match step p i m with
      | .ok m => runFrom p fuel m
      | .error e => .error e
    | none => .ok m

/-- The machine before a run: no global has a value. -/
def start (p : Program) : Machine :=
  { globals := List.replicate p.names.length none }

/-- The machine after a run of a program. -/
def run (p : Program) : Except MachineError Machine :=
  runFrom p stepLimit (start p)

/-- The value of a global of a program, by name. -/
def globalNamed? (m : Machine) (p : Program) (name : String) : Option Value :=
  (p.names.idxOf? name).bind m.global?

/-- The code of an operator is one that the machine knows. -/
theorem execute_binary (p : Program) (m : Machine) (a : Nat) (op : BinaryOp)
    (display : Option String) :
    m.execute p ⟨a, .binary, some op.code, display⟩ =
      m.pop >>= fun x => x.2.pop >>= fun y =>
        Value.applyBinary op y.1 x.1 >>= fun v => .ok (y.2.push v) := by
  simp only [execute, operand, bind, Except.bind, Nat.mod_eq_of_lt op.code_lt, op.ofCode_code]
  rfl

end Machine

end Backpatch
