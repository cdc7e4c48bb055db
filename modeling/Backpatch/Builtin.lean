import Backpatch.Error

/-!
# Built-in functions

The functions that code calls by a numeric identifier and not by name.
-/

namespace Backpatch

/-- A built-in function. -/
inductive Builtin where
  | print | sqrt | sin | cos | exp | ln | hypot
deriving DecidableEq, Repr

namespace Builtin

/-- The functions in the order of their identifiers. -/
def all : List Builtin :=
  [print, sqrt, sin, cos, exp, ln, hypot]

/-- The identifier of a function. -/
def id (f : Builtin) : Nat :=
  all.idxOf f

/-- The function of an identifier. -/
def ofId (id : Nat) : Except UnknownCode Builtin :=
  match all[id]? with
  | some f => .ok f
  | none => .error ⟨"StdLib", id⟩

/-- The name of a function. -/
def name : Builtin → String
  | print => "print"
  | sqrt => "sqrt"
  | sin => "sin"
  | cos => "cos"
  | exp => "exp"
  | ln => "ln"
  | hypot => "hypot"

/-- The function of a name. -/
def ofName? (name : String) : Option Builtin :=
  all.find? fun f => f.name == name

/-- The number of arguments of a function. -/
def arity : Builtin → Nat
  | hypot => 2
  | _ => 1

/-- A function is recovered from its identifier. -/
theorem ofId_id (f : Builtin) : ofId f.id = .ok f := by
  cases f <;> rfl

/-- A function is recovered from its name. -/
theorem ofName?_name (f : Builtin) : ofName? f.name = some f := by
  cases f <;> rfl

end Builtin

end Backpatch
