import Backpatch.Builtin
import Backpatch.CodeBuffer
import Backpatch.FunctionScope
import Backpatch.LiteralPool
import Backpatch.Program
import Backpatch.Tree

/-!
# Code generation

Code is generated in one pass over a tree. The generator holds the code, the tables, the scope and
the events so far, and what was emitted before a failure stays. `Tree.compile` generates the code of
one tree after whatever is there, and `Tree.generate` makes a whole program.
-/

namespace Backpatch

/-- The state of code generation. -/
structure Generator where
  /-- The code. -/
  buffer : CodeBuffer := {}
  /-- The names of the globals. -/
  names : SymbolTable String := {}
  /-- The literals. -/
  literals : LiteralPool := {}
  /-- The function whose body is being generated. -/
  scope : FunctionScope := {}
  /-- The events so far. -/
  events : Array Event := #[]
deriving DecidableEq, Repr

/-- A step of code generation. -/
abbrev Generation (α : Type) : Type :=
  Step Generator α

/-- Where a name is found. -/
inductive Place where
  /-- In a slot of the current function. -/
  | slot (slot : Nat)
  /-- Among the globals. -/
  | global (id : Nat)
deriving DecidableEq, Repr

namespace Generation

/-- A step on the code. The generator is taken apart before the step, so that nothing else holds the
code while it grows. -/
def onBuffer {α : Type} (step : Step CodeBuffer α) : Generation α :=
  fun ⟨buffer, names, literals, scope, events⟩ =>
    match step buffer with
    | .ok a buffer => .ok a ⟨buffer, names, literals, scope, events⟩
    | .error e buffer => .error e ⟨buffer, names, literals, scope, events⟩

/-- A step on the code changes nothing else. -/
theorem onBuffer_apply {α : Type} (step : Step CodeBuffer α) (g : Generator) :
    onBuffer step g =
      match step g.buffer with
      | .ok a buffer => .ok a { g with buffer := buffer }
      | .error e buffer => .error e { g with buffer := buffer } :=
  rfl

/-- Adds an event. -/
def report (event : Event) : Generation Unit :=
  modify fun g => { g with events := g.events.push event }

/-- Appends an instruction. -/
def emit (opcode : Opcode) (operand : Option Nat) (display : Option String) : Generation Unit := do
  let _ ← onBuffer (CodeBuffer.emit opcode operand display)

/-- Gives the address of the next instruction. -/
def nextAddress : Generation Nat :=
  onBuffer CodeBuffer.nextAddress

/-- Appends a jump whose target is given later. -/
def reserve (branch : Branch) : Generation Label :=
  onBuffer (CodeBuffer.reserve branch)

/-- Gives a pending jump the next address as its target. -/
def patch (label : Label) : Generation Unit := do
  report (← onBuffer (CodeBuffer.patch label))

/-- Gives the identifier of a global. -/
def intern (name : String) : Generation Nat :=
  Step.within Generator.names (fun g names => { g with names := names }) (SymbolTable.intern name)

/-- Gives the identifier of a literal. -/
def addConstant (v : Value) : Generation Nat :=
  Step.within Generator.literals (fun g literals => { g with literals := literals })
    (LiteralPool.add v)

/-- Finds a name: a parameter of the current function hides a global. -/
def resolve (name : String) : Generation Place := do
  match (← get).scope.slot? name with
  | some slot => return .slot slot
  | none => return .global (← intern name)

/-- Appends the read of a name. -/
def load (name : String) : Generation Unit := do
  match ← resolve name with
  | .slot slot => emit .loadFast (some slot) (some name)
  | .global id => emit .loadName (some id) (some name)

/-- Appends the store to a name. A store goes to a global, also where a parameter has the name. -/
def store (name : String) : Generation Unit := do
  let id ← intern name
  emit .storeName (some id) (some name)

/-- Opens the scope of a function's body. -/
def enterScope (function : String) (params : List String) : Generation Unit := do
  Step.within Generator.scope (fun g scope => { g with scope := scope })
    (FunctionScope.enter function params)
  report (.entered function (← get).scope.size)

/-- Closes the scope of a function's body. -/
def leaveScope (g : Generator) : Generator :=
  match g.scope.function with
  | some function =>
    { g with scope := g.scope.leave, events := g.events.push (.exited function) }
  | none => { g with scope := g.scope.leave }

/-- Runs a step and closes the scope of the function after it, whether it fails or not. -/
def leaving (body : Generation Unit) : Generation Unit := fun g =>
  match body g with
  | .ok _ g => .ok () (leaveScope g)
  | .error e g => .error e (leaveScope g)

/-- Runs a step in the scope of a function. -/
def inScope (function : String) (params : List String) (body : Generation Unit) :
    Generation Unit := do
  enterScope function params
  leaving body

/-- The program generated so far, once no jump is pending. -/
def finish : Generation Program := fun g =>
  match g.buffer.finish with
  | .ok code =>
    let event : Event := .generated code.size g.names.keys.length g.literals.constants.length
    .ok ⟨code, g.names.keys, g.literals.constants⟩ { g with events := g.events.push event }
  | .error e => .error e g

/-! ## The steps one by one -/

/-- An instruction is appended at the next address, and all else stays. -/
theorem emit_of_lt {g : Generator} (h : g.buffer.code.size < addressLimit) (opcode : Opcode)
    (operand : Option Nat) (display : Option String) :
    emit opcode operand display g =
      .ok () { g with
        buffer.code := g.buffer.code.push ⟨g.buffer.code.size, opcode, operand, display⟩ } := by
  simp only [emit, Step.bind_apply, onBuffer_apply, CodeBuffer.emit_of_lt h, Step.pure_apply]

/-- The next address is the length of the code. -/
theorem nextAddress_of_lt {g : Generator} (h : g.buffer.code.size < addressLimit) :
    nextAddress g = .ok g.buffer.code.size g := by
  simp only [nextAddress, onBuffer_apply, CodeBuffer.nextAddress_of_lt h]

/-- A body that succeeds is left. -/
theorem leaving_of_ok {body : Generation Unit} {g g' : Generator} (h : body g = .ok () g') :
    leaving body g = .ok () (leaveScope g') := by
  simp only [leaving, h]

/-- A body that fails is left too. -/
theorem leaving_of_error {body : Generation Unit} {e : GenerationError} {g g' : Generator}
    (h : body g = .error e g') : leaving body g = .error e (leaveScope g') := by
  simp only [leaving, h]

/-- A parameter of the current function is found in its slot. -/
theorem resolve_of_slot? {g : Generator} {name : String} {slot : Nat}
    (h : g.scope.slot? name = some slot) : resolve name g = .ok (.slot slot) g := by
  simp only [resolve, Step.bind_apply, Step.get_apply, h, Step.pure_apply]

end Generation

open Generation

/-- The operation of a unary operator. -/
def UnaryOp.opcode : UnaryOp → Opcode
  | not => .not
  | negate => .negate

/-- The operations of unary operators are no jumps. -/
theorem UnaryOp.isJump_opcode (op : UnaryOp) : op.opcode.isJump = false := by
  cases op <;> rfl

namespace Tree

mutual

/-- Generates the code of a tree. Operands come before the operation that takes them. A conditional
reserves a jump over each of its two branches, and a loop ends in a jump back to its test. -/
def compile : Tree → Generation Unit
  | block _ items => compileAll items
  | store _ name value => do
    value.compile
    Generation.store name
  | read _ name => load name
  | function name params body => do
    emit .makeFunction none none
    inScope name params do
      body.compile
      Generation.store name
  | print argument => do
    argument.compile
    emit .callBuiltin (some Builtin.print.id) (some Builtin.print.name)
  | loop test body => do
    let start ← nextAddress
    test.compile
    let toEnd ← reserve .ifFalse
    body.compile
    emit .jump (some start) none
    patch toEnd
  | call callee arguments => do
    load callee
    compileAll arguments
    emit .call none none
  | conditional test consequent alternate => do
    test.compile
    let toAlternate ← reserve .ifFalse
    consequent.compile
    let toEnd ← reserve .always
    patch toAlternate
    alternate.compile
    patch toEnd
  | binary op left right => do
    left.compile
    right.compile
    emit .binary (some op.code) (some op.symbol)
  | unary op operand => do
    operand.compile
    emit op.opcode none none
  | literal v => do
    let id ← addConstant v
    emit .loadConst (some id) (some v.text)

/-- Generates the code of trees one after the other. -/
def compileAll : List Tree → Generation Unit
  | [] => pure ()
  | t :: ts => do
    t.compile
    compileAll ts

end

/-- Generates the code of a tree and finishes the program. -/
def compileProgram (t : Tree) : Generation Program := do
  t.compile
  finish

/-- The program of a tree. -/
def generate (t : Tree) : Except GenerationError Program :=
  match t.compileProgram {} with
  | .ok p _ => .ok p
  | .error e _ => .error e

/-- The events of generating the program of a tree, and the error that ended it, if any. -/
def events (t : Tree) : List Event × Option GenerationError :=
  match t.compileProgram {} with
  | .ok _ g => (g.events.toList, none)
  | .error e g => (g.events.toList, some e)

end Tree

end Backpatch
