import Backpatch.Opcode

/-!
# Events

What code generation reports while it runs, in order.
-/

namespace Backpatch

/-- How much a reader wants to know to see an event. -/
inductive Level where
  /-- Every step. -/
  | trace
  /-- Results only. -/
  | debug
deriving DecidableEq, Repr

/-- The name of a level. -/
def Level.name : Level → String
  | trace => "TRACE"
  | debug => "DEBUG"

/-- A report of code generation. -/
inductive Event where
  /-- The body of a function begins; `params` counts its distinct parameters. -/
  | entered (function : String) (params : Nat)
  /-- The body of a function ends. -/
  | exited (function : String)
  /-- A reserved jump gets its target. -/
  | patched (address target : Nat) (opcode : Opcode)
  /-- A program is complete, with the sizes of its parts. -/
  | generated (instructions names constants : Nat)
deriving DecidableEq, Repr

namespace Event

/-- The level of an event. -/
def level : Event → Level
  | generated _ _ _ => .debug
  | _ => .trace

/-- The wording of an event. -/
def message : Event → String
  | entered _ _ => "entered function scope"
  | exited _ => "exited function scope"
  | patched _ _ _ => "patched jump"
  | generated _ _ _ => "generated program"

end Event

end Backpatch
