import Backpatch.SymbolTable
import Backpatch.Value

/-!
# Literal pools

A literal pool numbers literals as a symbol table numbers keys, but by their class: all NaNs share an
entry, and so do the two zeros. The entry keeps the first literal of its class as it was written.
-/

namespace Backpatch

/-- The literals collected so far. -/
structure LiteralPool where
  /-- The classes of the literals, by identifier. -/
  classes : SymbolTable Value := {}
  /-- The first literal of each class, by identifier. -/
  constants : List Value := []
deriving DecidableEq, Repr

namespace LiteralPool

/-- Gives the identifier of the class of a literal. -/
def internClass (v : Value) : Step LiteralPool Nat :=
  Step.within classes (fun p classes => { p with classes := classes })
    (SymbolTable.intern v.canonical)

/-- Gives the identifier of a literal. A literal of a new class joins the constants; one of a known
class adds nothing. -/
def add (v : Value) : Step LiteralPool Nat := do
  let id ← internClass v
  modify fun p => if id = p.constants.length then { p with constants := p.constants ++ [v] } else p
  return id

end LiteralPool

end Backpatch
