import Backpatch.Error

/-!
# Steps

A step takes a state to a result or an error, and in either case to the state after it, so that what
was done before a failure is not lost. The tables, the emitter and the generator are all changed by
steps, and a step on one of them is a step on whatever holds it.
-/

namespace Backpatch

/-- A step on a state: a result or an error, and the state after it. -/
abbrev Step (σ α : Type) : Type :=
  EStateM GenerationError σ α

namespace Step

variable {σ τ α β : Type}

/-- A step on a part of a state as a step on the whole; `replace` puts the part back. -/
def within (part : σ → τ) (replace : σ → τ → σ) (step : Step τ α) : Step σ α := fun s =>
  match step (part s) with
  | .ok a t => .ok a (replace s t)
  | .error e t => .error e (replace s t)

/-- A step that only gives a result keeps the state. -/
theorem pure_apply (a : α) (s : σ) : (pure a : Step σ α) s = .ok a s :=
  rfl

/-- Asking for the state gives it and keeps it. -/
theorem get_apply (s : σ) : (get : Step σ σ) s = .ok s s :=
  rfl

/-- Changing the state gives nothing and always succeeds. -/
theorem modify_apply (f : σ → σ) (s : σ) : (modify f : Step σ Unit) s = .ok () (f s) :=
  rfl

/-- A step after another starts from the state that the first one leaves, unless that failed. -/
theorem bind_apply (x : Step σ α) (f : α → Step σ β) (s : σ) :
    (x >>= f) s =
      match x s with
      | .ok a s => f a s
      | .error e s => .error e s := by
  simp only [bind, EStateM.bind]
  cases x s <;> rfl

/-- Two steps after each other succeed exactly if the first succeeds and the second does so from the
state between them. -/
theorem bind_eq_ok_iff {x : Step σ α} {f : α → Step σ β} {s s' : σ} {b : β} :
    (x >>= f) s = .ok b s' ↔ ∃ a t, x s = .ok a t ∧ f a t = .ok b s' := by
  rw [bind_apply]
  cases x s with
  | ok a t =>
    refine ⟨fun h => ⟨a, t, rfl, h⟩, ?_⟩
    rintro ⟨a', t', hx, hf⟩
    cases hx
    exact hf
  | error e t =>
    refine ⟨fun h => ?_, ?_⟩
    · cases h
    · rintro ⟨a', t', hx, _⟩
      cases hx

end Step

end Backpatch
