import Backpatch.Step

/-!
# Function scopes

While the body of a function is generated, the scope holds the function's name and the slot of each
of its parameters. Functions do not nest, so there is at most one such function at a time, and
outside all functions the scope is empty, unless a function had more parameters than there are slots.
-/

namespace Backpatch

/-- The function whose body is being generated, if any, and the slots of its parameters. -/
structure FunctionScope where
  /-- The name of the function. -/
  function : Option String := none
  /-- The slots, with each parameter once. -/
  slots : List (String × Nat) := []
deriving DecidableEq, Repr

namespace FunctionScope

/-- The slots with `name` at `slot`, wherever it was before. -/
def assign (slots : List (String × Nat)) (name : String) (slot : Nat) : List (String × Nat) :=
  (name, slot) :: slots.filter fun entry => entry.1 != name

/-- The slots of a list of parameters: each is at its position, a repeated one at its last. -/
def slotsOf (params : List String) : List (String × Nat) :=
  params.zipIdx.foldl (fun slots (name, i) => assign slots name i) []

/-- The slot of a parameter, if the current function has it. -/
def slot? (s : FunctionScope) (name : String) : Option Nat :=
  s.slots.lookup name

/-- Whether the current function has a parameter of this name. -/
def isParam (s : FunctionScope) (name : String) : Bool :=
  s.slots.any fun entry => entry.1 == name

/-- The number of distinct parameters. -/
def size (s : FunctionScope) : Nat :=
  s.slots.length

/-- Opens the scope of a function's body. There is none inside the body of another function. Where the
slots run out, the parameters before have theirs, though no function is entered. -/
def enter (function : String) (params : List String) : Step FunctionScope Unit := fun s =>
  match s.function with
  | some outer => .error (.nestedFunction outer function) s
  | none =>
    if params.length ≤ addressLimit then
      .ok () ⟨some function, slotsOf params⟩
    else
      .error (.tableFull addressLimit) ⟨none, slotsOf (params.take addressLimit)⟩

/-- The scope after the body of a function. -/
def leave (_ : FunctionScope) : FunctionScope :=
  {}

/-- The slot just assigned is the one that is found. -/
theorem lookup_assign_self (slots : List (String × Nat)) (name : String) (slot : Nat) :
    (assign slots name slot).lookup name = some slot := by
  simp [assign]

/-- Inside the body of a function no other can be entered, and the attempt changes nothing. -/
theorem enter_of_some {s : FunctionScope} {outer : String} (h : s.function = some outer)
    (function : String) (params : List String) :
    enter function params s = .error (.nestedFunction outer function) s := by
  simp [enter, h]

/-- Outside all functions one is entered with the slots of its parameters. -/
theorem enter_of_none {s : FunctionScope} (h : s.function = none) (function : String)
    {params : List String} (hlen : params.length ≤ addressLimit) :
    enter function params s = .ok () ⟨some function, slotsOf params⟩ := by
  simp [enter, h, hlen]

end FunctionScope

end Backpatch
