import Backpatch.Generator
import Backpatch.Proofs.Tables

/-!
# Direct layout

The code of a tree, written down in one go. `Tree.size` counts the instructions of a tree without
generating them, so every jump is written with its target at once, and nothing is reserved or
patched. Names and literals get their identifiers from `Tables`, in the order in which the tree
refers to them.
-/

namespace Backpatch

/-- What the code of a tree is looked up in: the globals, the literals, and the parameters of the
function that it stands in. -/
structure Tables where
  /-- The names of the globals. -/
  names : SymbolTable String := {}
  /-- The literals. -/
  literals : LiteralPool := {}
  /-- The function around the code. -/
  scope : FunctionScope := {}

/-- The tables of a generator. -/
def Generator.tables (g : Generator) : Tables :=
  ⟨g.names, g.literals, g.scope⟩

namespace Tables

/-- The tables with a name among the globals. -/
def withGlobal (T : Tables) (name : String) : Tables :=
  { T with names := T.names.insert name }

/-- The tables with a literal. -/
def withLiteral (T : Tables) (v : Value) : Tables :=
  { T with literals := T.literals.insert v }

/-- The tables after a read: a name that is no parameter is a global. -/
def withRead (T : Tables) (name : String) : Tables :=
  match T.scope.slot? name with
  | some _ => T
  | none => T.withGlobal name

/-- The tables in the body of a function. -/
def within (T : Tables) (function : String) (params : List String) : Tables :=
  { T with scope := ⟨some function, FunctionScope.slotsOf params⟩ }

/-- The tables outside all functions. -/
def outside (T : Tables) : Tables :=
  { T with scope := {} }

/-- The read of a name. -/
def readCode (T : Tables) (address : Nat) (name : String) : Instruction :=
  match T.scope.slot? name with
  | some slot => ⟨address, .loadFast, some slot, some name⟩
  | none => ⟨address, .loadName, some (T.names.place name), some name⟩

/-- The store to a name. -/
def storeCode (T : Tables) (address : Nat) (name : String) : Instruction :=
  ⟨address, .storeName, some (T.names.place name), some name⟩

/-- The load of a literal. -/
def literalCode (T : Tables) (address : Nat) (v : Value) : Instruction :=
  ⟨address, .loadConst, some (T.literals.place v), some v.text⟩

/-- Outside all functions a read is one of a global. -/
theorem read_of_outside {T : Tables} (h : T.scope = {}) (address : Nat) (name : String) :
    T.withRead name = T.withGlobal name ∧
      T.readCode address name = ⟨address, .loadName, some (T.names.place name), some name⟩ := by
  unfold withRead readCode
  rw [h]
  exact ⟨rfl, rfl⟩

end Tables

namespace Tree

mutual

/-- The number of instructions of a tree. -/
def size : Tree → Nat
  | block _ items => sizeAll items
  | store _ _ value => value.size + 1
  | read _ _ => 1
  | function _ _ body => body.size + 2
  | print argument => argument.size + 1
  | loop test body => test.size + body.size + 2
  | call _ arguments => sizeAll arguments + 2
  | conditional test consequent alternate => test.size + consequent.size + alternate.size + 2
  | binary _ left right => left.size + right.size + 1
  | unary _ operand => operand.size + 1
  | literal _ => 1

/-- The number of instructions of a list of trees. -/
def sizeAll : List Tree → Nat
  | [] => 0
  | t :: ts => t.size + sizeAll ts

end

mutual

/-- The tables after a tree. -/
def fill : Tree → Tables → Tables
  | block _ items, T => fillAll items T
  | store _ name value, T => (value.fill T).withGlobal name
  | read _ name, T => T.withRead name
  | function name params body, T => ((body.fill (T.within name params)).withGlobal name).outside
  | print argument, T => argument.fill T
  | loop test body, T => body.fill (test.fill T)
  | call callee arguments, T => fillAll arguments (T.withRead callee)
  | conditional test consequent alternate, T => alternate.fill (consequent.fill (test.fill T))
  | binary _ left right, T => right.fill (left.fill T)
  | unary _ operand, T => operand.fill T
  | literal v, T => T.withLiteral v

/-- The tables after a list of trees. -/
def fillAll : List Tree → Tables → Tables
  | [], T => T
  | t :: ts, T => fillAll ts (t.fill T)

end

mutual

/-- The instructions of a tree whose first address is `base`. A loop leaves for the address after it
and goes back to `base`; a conditional goes to the first address of its alternate or, from the end of
its consequent, to the address after it. -/
def layout : Tree → Nat → Tables → List Instruction
  | block _ items, base, T => layoutAll items base T
  | store _ name value, base, T =>
    value.layout base T ++ [(value.fill T).storeCode (base + value.size) name]
  | read _ name, base, T => [T.readCode base name]
  | function name params body, base, T =>
    -- The name of the function is interned after the names in its body.
    ⟨base, .makeFunction, none, none⟩ ::
      (body.layout (base + 1) (T.within name params) ++
        [(body.fill (T.within name params)).storeCode (base + 1 + body.size) name])
  | print argument, base, T =>
    argument.layout base T ++
      [⟨base + argument.size, .callBuiltin, some Builtin.print.id, some Builtin.print.name⟩]
  | loop test body, base, T =>
    test.layout base T ++
      -- The exit, over the body and the way back.
      ⟨base + test.size, .jumpIfFalse, some (base + (loop test body).size), none⟩ ::
        (body.layout (base + test.size + 1) (test.fill T) ++
          [⟨base + test.size + 1 + body.size, .jump, some base, none⟩])
  | call callee arguments, base, T =>
    T.readCode base callee ::
      (layoutAll arguments (base + 1) (T.withRead callee) ++
        [⟨base + 1 + sizeAll arguments, .call, none, none⟩])
  | conditional test consequent alternate, base, T =>
    test.layout base T ++
      -- Over the consequent and the jump after it, to the alternate.
      ⟨base + test.size, .jumpIfFalse, some (base + test.size + 1 + consequent.size + 1), none⟩ ::
        (consequent.layout (base + test.size + 1) (test.fill T) ++
          -- Over the alternate, to the end.
          ⟨base + test.size + 1 + consequent.size, .jump,
              some (base + (conditional test consequent alternate).size), none⟩ ::
            alternate.layout (base + test.size + 1 + consequent.size + 1)
              (consequent.fill (test.fill T)))
  | binary op left right, base, T =>
    left.layout base T ++
      (right.layout (base + left.size) (left.fill T) ++
        [⟨base + left.size + right.size, .binary, some op.code, some op.symbol⟩])
  | unary op operand, base, T =>
    operand.layout base T ++ [⟨base + operand.size, op.opcode, none, none⟩]
  | literal v, base, T => [T.literalCode base v]

/-- The instructions of a list of trees whose first address is `base`. -/
def layoutAll : List Tree → Nat → Tables → List Instruction
  | [], _, _ => []
  | t :: ts, base, T => t.layout base T ++ layoutAll ts (base + t.size) (t.fill T)

end

mutual

/-- A tree has as many instructions as its size says. -/
@[simp]
theorem length_layout : ∀ (t : Tree) (base : Nat) (T : Tables), (t.layout base T).length = t.size
  | block _ items, base, T => by
    rw [layout, size, length_layoutAll items]
  | store _ _ value, base, T => by
    rw [layout, size, List.length_append, length_layout value, List.length_singleton]
  | read _ _, base, T => rfl
  | function _ _ body, base, T => by
    rw [layout, size, List.length_cons, List.length_append, length_layout body,
      List.length_singleton]
  | print argument, base, T => by
    rw [layout, size, List.length_append, length_layout argument, List.length_singleton]
  | loop test body, base, T => by
    rw [layout, size, List.length_append, List.length_cons, List.length_append,
      length_layout test, length_layout body, List.length_singleton]
    omega
  | call _ arguments, base, T => by
    rw [layout, size, List.length_cons, List.length_append, length_layoutAll arguments,
      List.length_singleton]
  | conditional test consequent alternate, base, T => by
    rw [layout, size, List.length_append, List.length_cons, List.length_append, List.length_cons,
      length_layout test, length_layout consequent, length_layout alternate]
    omega
  | binary _ left right, base, T => by
    rw [layout, size, List.length_append, List.length_append, length_layout left,
      length_layout right, List.length_singleton]
    omega
  | unary _ operand, base, T => by
    rw [layout, size, List.length_append, length_layout operand, List.length_singleton]
  | literal _, base, T => rfl

/-- A list of trees has as many instructions as its size says. -/
@[simp]
theorem length_layoutAll : ∀ (ts : List Tree) (base : Nat) (T : Tables),
    (layoutAll ts base T).length = sizeAll ts
  | [], _, _ => rfl
  | t :: ts, base, T => by
    rw [layoutAll, sizeAll, List.length_append, length_layout t, length_layoutAll ts]

end

end Tree

end Backpatch
