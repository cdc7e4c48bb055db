import Backpatch.Proofs.Backpatching
import Backpatch.Proofs.Equality
import Mathlib.Data.List.Forall2

/-!
# Equal trees have equal programs

Trees that are equal as IEEE 754 has it may differ in the signs of their zeros. Two generations of such
trees go side by side: `Step.Alongside` says of two steps that from related states they give the same
result or the same error and leave related states, and it follows the way in which steps are made
(`bind`, `within`). The generators of the two trees differ only in the constants, which stay equal
member by member (`Generator.Twins`), since equal literals are of one class and read alike.
-/

namespace Backpatch

namespace Step

variable {σ τ α β : Type}

/-- The same result or the same error, up to a relation on the states. -/
inductive Both (R : σ → σ → Prop) :
    EStateM.Result GenerationError σ α → EStateM.Result GenerationError σ α → Prop where
  /-- Both succeed with the same result. -/
  | ok {a : α} {s t : σ} (h : R s t) : Both R (.ok a s) (.ok a t)
  /-- Both fail with the same error. -/
  | error {e : GenerationError} {s t : σ} (h : R s t) : Both R (.error e s) (.error e t)

/-- From related states two steps give the same and leave related states. -/
def Alongside (R : σ → σ → Prop) (x y : Step σ α) : Prop :=
  ∀ ⦃s t : σ⦄, R s t → Both R (x s) (y t)

variable {R : σ → σ → Prop}

/-- A step goes alongside itself from one state. -/
theorem alongside_self (x : Step σ α) : Alongside Eq x x := by
  rintro s _ rfl
  cases x s with
  | ok a t => exact .ok rfl
  | error e t => exact .error rfl

/-- No step at all goes alongside itself. -/
theorem alongside_pure (a : α) : Alongside R (pure a) (pure a) :=
  fun _ _ h => .ok h

/-- Changes that keep states related go alongside each other. -/
theorem alongside_modify {f f' : σ → σ} (h : ∀ s t, R s t → R (f s) (f' t)) :
    Alongside R (modify f) (modify f') :=
  fun s t hst => .ok (h s t hst)

namespace Alongside

/-- Steps after steps. -/
theorem bind {x y : Step σ α} {f g : α → Step σ β} (hx : Alongside R x y)
    (hf : ∀ a, Alongside R (f a) (g a)) : Alongside R (x >>= f) (y >>= g) := by
  intro s t h
  rw [bind_apply, bind_apply]
  have hxy := hx h
  generalize x s = r, y t = r' at hxy ⊢
  cases hxy with
  | ok h' => exact hf _ h'
  | error h' => exact .error h'

/-- Steps on a part of the state. -/
theorem within {Q : τ → τ → Prop} {x y : Step τ α} {part : σ → τ} {replace : σ → τ → σ}
    (hx : Alongside Q x y) (hpart : ∀ s t, R s t → Q (part s) (part t))
    (hreplace : ∀ s t a b, R s t → Q a b → R (replace s a) (replace t b)) :
    Alongside R (within part replace x) (within part replace y) := by
  intro s t h
  unfold Step.within
  have hxy := hx (hpart s t h)
  generalize x (part s) = r, y (part t) = r' at hxy ⊢
  cases hxy with
  | ok h' => exact .ok (hreplace s t _ _ h h')
  | error h' => exact .error (hreplace s t _ _ h h')

end Alongside

end Step

open Step

/-! ## Literals -/

/-- Equal literals share a canonical value. -/
theorem Value.canonical_of_numEq {v w : Value} (h : v.numEq w = true) : v.canonical = w.canonical := by
  have hsame : v.same w = true := by
    cases v with
    | number x =>
      cases w with
      | number y => exact Bool.or_eq_true_iff.mpr (.inl h)
      | boolean b => cases h
    | boolean a =>
      cases w with
      | number y => cases h
      | boolean b => exact h
  rwa [Value.same_eq, beq_iff_eq] at hsame

/-- Equal literals read alike. -/
theorem Value.text_of_numEq {v w : Value} (h : v.numEq w = true) : v.text = w.text := by
  rw [← v.text_canonical, canonical_of_numEq h, w.text_canonical]

/-- Pools with the same classes and equal constants. -/
structure LiteralPool.Twins (p q : LiteralPool) : Prop where
  /-- The classes are the same. -/
  classes : p.classes = q.classes
  /-- The constants are equal one by one. -/
  constants : List.Forall₂ (fun v w => v.numEq w = true) p.constants q.constants

/-- Equal literals are added alike. -/
theorem LiteralPool.alongside_add {v w : Value} (h : v.numEq w = true) :
    Alongside Twins (add v) (add w) := by
  unfold add internClass
  rw [Value.canonical_of_numEq h]
  refine .bind (.within (alongside_self _) (fun p q hpq => hpq.classes) ?_) fun id => ?_
  · rintro p q classes _ hpq rfl
    exact ⟨rfl, hpq.constants⟩
  · refine .bind (alongside_modify fun p q hpq => ?_) fun _ => alongside_pure id
    rw [hpq.constants.length_eq]
    split
    · exact ⟨hpq.classes, List.rel_append hpq.constants (.cons h .nil)⟩
    · exact hpq

/-- Lists that agree member by member are equal as lists. -/
theorem isEqv_of_forall₂ {r : Value → Value → Bool} {vs ws : List Value}
    (h : List.Forall₂ (fun v w => r v w = true) vs ws) : vs.isEqv ws r = true := by
  induction h with
  | nil => rfl
  | cons hhead _ ih => rw [List.isEqv_cons_cons, hhead, ih, Bool.and_self]

/-! ## Generators -/

/-- Generators that differ at most in constants that are equal. -/
structure Generator.Twins (g h : Generator) : Prop where
  /-- The code is the same. -/
  buffer : g.buffer = h.buffer
  /-- The names are the same. -/
  names : g.names = h.names
  /-- The literals are the same but for constants that are equal. -/
  literals : g.literals.Twins h.literals
  /-- The scopes are the same. -/
  scope : g.scope = h.scope
  /-- The events are the same. -/
  events : g.events = h.events

namespace Generation

open Generator

variable {α : Type}

/-- A step on the code gives the same for twins, which have the same code. -/
theorem alongside_onBuffer (step : Step CodeBuffer α) :
    Alongside Twins (onBuffer step) (onBuffer step) := by
  intro g h t
  rw [onBuffer_apply, onBuffer_apply, t.buffer]
  cases step h.buffer with
  | ok a buffer => exact .ok ⟨rfl, t.names, t.literals, t.scope, t.events⟩
  | error e buffer => exact .error ⟨rfl, t.names, t.literals, t.scope, t.events⟩

/-- Twins report the same event. -/
theorem alongside_report (event : Event) : Alongside Twins (report event) (report event) := by
  refine alongside_modify fun g h t => ?_
  exact ⟨t.buffer, t.names, t.literals, t.scope, congrArg (·.push event) t.events⟩

/-- Twins emit the same instruction. -/
theorem alongside_emit (opcode : Opcode) (operand : Option Nat) (display : Option String) :
    Alongside Twins (emit opcode operand display) (emit opcode operand display) :=
  (alongside_onBuffer _).bind fun _ => alongside_pure ()

/-- Twins patch the same jump. -/
theorem alongside_patch (label : Label) : Alongside Twins (patch label) (patch label) :=
  (alongside_onBuffer _).bind alongside_report

/-- Twins give a name the same identifier. -/
theorem alongside_intern (name : String) : Alongside Twins (intern name) (intern name) := by
  refine .within (alongside_self _) (fun _ _ t => t.names) ?_
  rintro g h names _ t rfl
  exact ⟨t.buffer, rfl, t.literals, t.scope, t.events⟩

/-- Twins give equal literals the same identifier. -/
theorem alongside_addConstant {v w : Value} (h : v.numEq w = true) :
    Alongside Twins (addConstant v) (addConstant w) := by
  refine .within (LiteralPool.alongside_add h) (fun _ _ t => t.literals) ?_
  intro g h literals literals' t hliterals
  exact ⟨t.buffer, t.names, hliterals, t.scope, t.events⟩

/-- Twins load a name from the same place. -/
theorem alongside_load (name : String) : Alongside Twins (load name) (load name) := by
  have hresolve : Alongside Twins (resolve name) (resolve name) := by
    intro g h t
    unfold resolve
    rw [bind_apply, bind_apply, get_apply, get_apply]
    dsimp only
    rw [t.scope]
    cases h.scope.slot? name with
    | some slot => exact alongside_pure (Place.slot slot) t
    | none => exact ((alongside_intern name).bind fun id => alongside_pure (Place.global id)) t
  refine hresolve.bind fun place => ?_
  cases place with
  | slot slot => exact alongside_emit _ _ _
  | global id => exact alongside_emit _ _ _

/-- Twins store to a name alike. -/
theorem alongside_store (name : String) :
    Alongside Twins (Generation.store name) (Generation.store name) :=
  (alongside_intern name).bind fun _ => alongside_emit _ _ _

/-- Twins enter the same function. -/
theorem alongside_enterScope (name : String) (params : List String) :
    Alongside Twins (enterScope name params) (enterScope name params) := by
  refine .bind (.within (alongside_self _) (fun _ _ t => t.scope) ?_) fun _ => ?_
  · rintro g h scope _ t rfl
    exact ⟨t.buffer, t.names, t.literals, rfl, t.events⟩
  · intro g h t
    rw [bind_apply, bind_apply, get_apply, get_apply]
    dsimp only
    rw [t.scope]
    exact alongside_report _ t

/-- Twins stay twins when they leave a function. -/
theorem twins_leaveScope {g h : Generator} (t : Twins g h) : Twins (leaveScope g) (leaveScope h) := by
  unfold leaveScope
  rw [← t.scope]
  split
  · exact ⟨t.buffer, t.names, t.literals, rfl, congrArg (Array.push · _) t.events⟩
  · exact ⟨t.buffer, t.names, t.literals, rfl, t.events⟩

/-- Steps that go alongside each other do so in the scope of a function. -/
theorem alongside_inScope (name : String) (params : List String) {body body' : Generation Unit}
    (hbody : Alongside Twins body body') :
    Alongside Twins (inScope name params body) (inScope name params body') := by
  refine (alongside_enterScope name params).bind fun _ g h t => ?_
  have hbodies := hbody t
  unfold leaving
  generalize body g = r, body' h = r' at hbodies ⊢
  cases hbodies with
  | ok t' => exact .ok (twins_leaveScope t')
  | error t' => exact .error (twins_leaveScope t')

end Generation

namespace Tree

open Generation Generator

mutual

/-- Equal trees are generated alongside each other. -/
theorem alongside_compile : ∀ (t u : Tree), t.numEq u = true → Alongside Twins t.compile u.compile
  | block _ ts, u, h => by
    cases u with
    | block _ us =>
      rw [numEq, Bool.and_eq_true] at h
      exact alongside_compileAll ts us h.2
    | _ => cases h
  | store _ x t, u, h => by
    cases u with
    | store _ y u =>
      simp only [numEq, Bool.and_eq_true, beq_iff_eq] at h
      obtain ⟨⟨-, rfl⟩, h⟩ := h
      exact (alongside_compile t u h).bind fun _ => alongside_store x
    | _ => cases h
  | read _ x, u, h => by
    cases u with
    | read _ y =>
      simp only [numEq, Bool.and_eq_true, beq_iff_eq] at h
      rw [h.2]
      exact alongside_load y
    | _ => cases h
  | function x ps t, u, h => by
    cases u with
    | function y qs u =>
      simp only [numEq, Bool.and_eq_true, beq_iff_eq] at h
      obtain ⟨⟨rfl, rfl⟩, h⟩ := h
      refine (alongside_emit _ _ _).bind fun _ => alongside_inScope x ps ?_
      exact (alongside_compile t u h).bind fun _ => alongside_store x
    | _ => cases h
  | print t, u, h => by
    cases u with
    | print u => exact (alongside_compile t u h).bind fun _ => alongside_emit _ _ _
    | _ => cases h
  | loop test body, u, h => by
    cases u with
    | loop test' body' =>
      rw [numEq, Bool.and_eq_true] at h
      refine (alongside_onBuffer _).bind fun start => ?_
      refine (alongside_compile test test' h.1).bind fun _ => ?_
      refine (alongside_onBuffer _).bind fun toEnd => ?_
      refine (alongside_compile body body' h.2).bind fun _ => ?_
      exact (alongside_emit _ _ _).bind fun _ => alongside_patch toEnd
    | _ => cases h
  | call f ts, u, h => by
    cases u with
    | call g us =>
      simp only [numEq, Bool.and_eq_true, beq_iff_eq] at h
      obtain ⟨rfl, h⟩ := h
      refine (alongside_load f).bind fun _ => ?_
      exact (alongside_compileAll ts us h).bind fun _ => alongside_emit _ _ _
    | _ => cases h
  | conditional test consequent alternate, u, h => by
    cases u with
    | conditional test' consequent' alternate' =>
      simp only [numEq, Bool.and_eq_true] at h
      obtain ⟨⟨htest, hconsequent⟩, halternate⟩ := h
      refine (alongside_compile test test' htest).bind fun _ => ?_
      refine (alongside_onBuffer _).bind fun toAlternate => ?_
      refine (alongside_compile consequent consequent' hconsequent).bind fun _ => ?_
      refine (alongside_onBuffer _).bind fun toEnd => ?_
      refine (alongside_patch toAlternate).bind fun _ => ?_
      exact (alongside_compile alternate alternate' halternate).bind fun _ => alongside_patch toEnd
    | _ => cases h
  | binary op left right, u, h => by
    cases u with
    | binary op' left' right' =>
      simp only [numEq, Bool.and_eq_true, beq_iff_eq] at h
      obtain ⟨⟨rfl, hleft⟩, hright⟩ := h
      refine (alongside_compile left left' hleft).bind fun _ => ?_
      exact (alongside_compile right right' hright).bind fun _ => alongside_emit _ _ _
    | _ => cases h
  | unary op t, u, h => by
    cases u with
    | unary op' u =>
      simp only [numEq, Bool.and_eq_true, beq_iff_eq] at h
      obtain ⟨rfl, h⟩ := h
      exact (alongside_compile t u h).bind fun _ => alongside_emit _ _ _
    | _ => cases h
  | literal v, u, h => by
    cases u with
    | literal w =>
      rw [numEq] at h
      refine (alongside_addConstant h).bind fun id => ?_
      rw [Value.text_of_numEq h]
      exact alongside_emit _ _ _
    | _ => cases h

/-- Equal lists of trees are generated alongside each other. -/
theorem alongside_compileAll : ∀ (ts us : List Tree), numEqAll ts us = true →
    Alongside Twins (compileAll ts) (compileAll us)
  | [], us, h => by
    cases us with
    | nil => exact alongside_pure ()
    | cons => cases h
  | t :: ts, us, h => by
    cases us with
    | nil => cases h
    | cons u us =>
      rw [numEqAll, Bool.and_eq_true] at h
      exact (alongside_compile t u h.1).bind fun _ => alongside_compileAll ts us h.2

end

/-- Equal trees have equal programs: generation of both fails with the same error, or both give programs
with the same code, the same names and equal constants. -/
theorem generate_of_numEq (t u : Tree) (h : t.numEq u = true) :
    (∃ e, t.generate = .error e ∧ u.generate = .error e) ∨
      ∃ p q, t.generate = .ok p ∧ u.generate = .ok q ∧ p.numEq q = true := by
  have hstart : Twins {} {} := ⟨rfl, rfl, ⟨rfl, .nil⟩, rfl, rfl⟩
  have hboth := alongside_compile t u h hstart
  generalize ht : t.compile {} = r, hu : u.compile {} = r' at hboth
  cases hboth with
  | ok twins =>
    refine .inr ⟨_, _, generate_of_compile ht, generate_of_compile hu, ?_⟩
    rw [Program.numEq, twins.buffer, twins.names, isEqv_of_forall₂ twins.literals.constants]
    simp
  | error => exact .inl ⟨_, generate_of_compile_error ht, generate_of_compile_error hu⟩

/-- Two zeros of different sign, in either order: each program keeps the zero that its tree has first, and
the programs are equal all the same. -/
theorem generate_of_numEq_zeros :
    ∃ t u, t = block .program [print (literal (.number ⟨false, 0, 0⟩)),
        loop (read .variable "x") (print (literal (.number ⟨true, 0, 0⟩)))] ∧
      u = block .program [print (literal (.number ⟨true, 0, 0⟩)),
        loop (read .variable "x") (print (literal (.number ⟨false, 0, 0⟩)))] ∧
      t.numEq u = true ∧ ∃ p q, t.generate = .ok p ∧ u.generate = .ok q ∧ p.numEq q = true ∧
      p.constants = [.number ⟨false, 0, 0⟩] ∧ q.constants = [.number ⟨true, 0, 0⟩] := by
  refine ⟨_, _, rfl, rfl, ?_⟩
  generalize ht : block _ _ = t
  generalize hu : block _ _ = u
  have heq : t.numEq u = true := by
    subst ht hu
    decide +kernel
  have hok : t.generate.isOk = true := by
    subst ht
    decide +kernel
  rcases generate_of_numEq t u heq with ⟨e, he, -⟩ | ⟨p, q, hp, hq, hpq⟩
  · rw [he] at hok
    cases hok
  · subst ht hu
    exact ⟨heq, p, q, hp, hq, hpq, (layout_of_generate hp).2.2, (layout_of_generate hq).2.2⟩

end Tree

end Backpatch
