import Backpatch.Step

/-!
# Symbol tables

A symbol table numbers keys in the order in which they are first seen. A key keeps its identifier
for as long as the table lives, and an identifier is the place of its key in the list of keys.
-/

namespace Backpatch

/-- The keys seen so far, in the order of their identifiers. -/
structure SymbolTable (κ : Type) where
  /-- The keys, each once. -/
  keys : List κ := []
deriving DecidableEq, Repr

namespace SymbolTable

variable {κ : Type} [DecidableEq κ]

/-- The identifier of a key, if the table has it. -/
def id? (t : SymbolTable κ) (key : κ) : Option Nat :=
  t.keys.idxOf? key

/-- Gives the identifier of a key: the old one of a known key, and the next one of a new key, which
joins the table. The table is full when the identifiers run out. -/
def intern (key : κ) : Step (SymbolTable κ) Nat := fun t =>
  match t.id? key with
  | some id => .ok id t
  | none =>
    if t.keys.length < addressLimit then
      .ok t.keys.length ⟨t.keys ++ [key]⟩
    else
      .error (.tableFull t.keys.length) t

/-- Interning a known key gives its identifier and keeps the table. -/
theorem intern_of_id? {t : SymbolTable κ} {key : κ} {id : Nat} (h : t.id? key = some id) :
    intern key t = .ok id t := by
  simp [intern, h]

/-- Interning a new key appends it, while identifiers last. -/
theorem intern_of_id?_eq_none {t : SymbolTable κ} {key : κ} (h : t.id? key = none)
    (hlt : t.keys.length < addressLimit) :
    intern key t = .ok t.keys.length ⟨t.keys ++ [key]⟩ := by
  simp [intern, h, hlt]

/-- A full table refuses a new key and stays as it is. -/
theorem intern_of_full {t : SymbolTable κ} {key : κ} (h : t.id? key = none)
    (hfull : addressLimit ≤ t.keys.length) :
    intern key t = .error (.tableFull t.keys.length) t := by
  simp [intern, h, Nat.not_lt.mpr hfull]

/-- Interning keeps the keys before it, in place. -/
theorem keys_prefix_of_intern {t t' : SymbolTable κ} {key : κ} {id : Nat}
    (h : intern key t = .ok id t') : t.keys <+: t'.keys := by
  unfold intern at h
  split at h
  · cases h
    exact List.prefix_refl _
  · split at h
    · cases h
      exact List.prefix_append _ _
    · cases h

end SymbolTable

end Backpatch
