import Backpatch.Machine
import Backpatch.Proofs.Equality
import Backpatch.Tree
import Mathlib.Logic.Function.Basic

/-!
# Evaluation of trees

What a tree does, without any code: it works on a stack, on globals that are found by name, and on
the values printed. Evaluation takes steps, and `Progress` carries how many are left, so that it
always ends. The steps have no other effect; in particular a loop goes on for as long as its test
holds (`Tree.evaluate_loop`), however its rounds are counted.
-/

namespace Backpatch

/-- What the evaluation of a tree works on. -/
structure State where
  /-- The stack, its top first. -/
  stack : List Value := []
  /-- The values of the globals, by name. -/
  globals : String → Option Value := fun _ => none
  /-- The values printed so far. -/
  printed : Array Value := #[]

/-- Why an evaluation ends before its tree does. -/
inductive Halt where
  /-- A global is read before it has a value. -/
  | unset (name : String)
  /-- A step fails as it does on the machine. -/
  | raised (error : MachineError)
  /-- There are no steps left. -/
  | exhausted

namespace State

/-- The top of the stack and the state without it. -/
def pop (s : State) : Except Halt (Value × State) :=
  match s.stack with
  | v :: stack => .ok (v, { s with stack := stack })
  | [] => .error (.raised .stackUnderflow)

/-- Pushes a value. -/
def push (v : Value) (s : State) : Except Halt State :=
  .ok { s with stack := v :: s.stack }

/-- Pushes the value of a global, which must have one. -/
def load (name : String) (s : State) : Except Halt State :=
  match s.globals name with
  | some v => s.push v
  | none => .error (.unset name)

/-- Pops the value of a global. -/
def assign (name : String) (s : State) : Except Halt State := do
  let (v, s) ← s.pop
  return { s with globals := Function.update s.globals name (some v) }

/-- Pops a value and prints it. -/
def print (s : State) : Except Halt State := do
  let (v, s) ← s.pop
  return { s with printed := s.printed.push v }

/-- Pushes a result, unless there is none. -/
def answer (result : Except MachineError Value) (s : State) : Except Halt State :=
  match result with
  | .ok v => s.push v
  | .error e => .error (.raised e)

/-- Pops an operand and pushes the result of an operator. -/
def unary (op : UnaryOp) (s : State) : Except Halt State := do
  let (v, s) ← s.pop
  s.answer (v.applyUnary op)

/-- Pops two operands, the right one first, and pushes the result of an operator. -/
def binary (op : BinaryOp) (s : State) : Except Halt State := do
  let (right, s) ← s.pop
  let (left, s) ← s.pop
  s.answer (Value.applyBinary op left right)

/-- Fails, for want of an operation. -/
def unsupported (opcode : Opcode) (_ : State) : Except Halt State :=
  .error (.raised (.unsupportedOpcode opcode))

end State

/-- How far an evaluation has come. -/
structure Progress where
  /-- The state. -/
  state : State
  /-- How many steps are left. -/
  left : Nat

namespace Progress

/-- Takes a step, if one is left. -/
def spend (w : Progress) : Except Halt Progress :=
  match w.left with
  | 0 => .error .exhausted
  | left + 1 => .ok ⟨w.state, left⟩

/-- Takes a step that has an effect on the state. -/
def perform (effect : State → Except Halt State) (w : Progress) : Except Halt Progress := do
  let w ← w.spend
  let s ← effect w.state
  return ⟨s, w.left⟩

/-- Takes a step that pops a value and goes one of two ways by it. -/
def branch (yes no : Progress → Except Halt Progress) (w : Progress) : Except Halt Progress := do
  let w ← w.spend
  let (v, s) ← w.state.pop
  if v.truthy then yes ⟨s, w.left⟩ else no ⟨s, w.left⟩

/-- Repeats a test and a body until the test leaves a value that counts as false, for at most `rounds`
rounds. To start the next round is a step of its own. -/
def repeatWhile (test body : Progress → Except Halt Progress) : Nat → Progress → Except Halt Progress
  -- Never reached with more rounds than steps: see `repeatWhile_eq`.
  | 0, _ => .error .exhausted
  | rounds + 1, w => do
    let w ← test w
    w.branch (fun w => body w >>= spend >>= repeatWhile test body rounds) .ok

end Progress

namespace Tree

open Progress

mutual

/-- Evaluates a tree, whose literals stand for what `denote` says. A round takes a step at least, so
one round more than there are steps left is never the last. -/
def evaluate (denote : Value → Value) : Tree → Progress → Except Halt Progress
  | block _ items, w => evaluateAll denote items w
  | store _ name value, w => value.evaluate denote w >>= perform (State.assign name)
  | read _ name, w => w.perform (State.load name)
  | function _ _ _, w => w.perform (State.unsupported .makeFunction)
  | print argument, w => argument.evaluate denote w >>= perform State.print
  | loop test body, w =>
    repeatWhile (test.evaluate denote) (body.evaluate denote) (w.left + 1) w
  | call callee arguments, w =>
    -- There are no calls on the machine, so the arguments are the last that is evaluated.
    w.perform (State.load callee) >>= evaluateAll denote arguments >>=
      perform (State.unsupported .call)
  | conditional test consequent alternate, w =>
    -- The consequent takes one step more, since the alternate stands behind it.
    test.evaluate denote w >>=
      branch (fun w => consequent.evaluate denote w >>= spend) (alternate.evaluate denote)
  | binary op left right, w =>
    left.evaluate denote w >>= right.evaluate denote >>= perform (State.binary op)
  | unary op operand, w => operand.evaluate denote w >>= perform (State.unary op)
  | literal v, w => w.perform (State.push (denote v))

/-- Evaluates trees one after the other. -/
def evaluateAll (denote : Value → Value) : List Tree → Progress → Except Halt Progress
  | [], w => .ok w
  | t :: ts, w => t.evaluate denote w >>= evaluateAll denote ts

end

/-- The value of a tree that is a literal. -/
def literal? : Tree → Option Value
  | literal v => some v
  | _ => none

/-- The literals of a tree, from left to right. -/
def literals (t : Tree) : List Value :=
  t.preorder.filterMap literal?

/-- What a literal of a tree stands for: the first literal of the tree that is the same to a table,
which for a zero may be the other zero, and for a NaN another NaN. -/
def denotes (t : Tree) (v : Value) : Value :=
  (t.literals.find? fun u => u.same v).getD v

end Tree

/-! ## Steps are only ever taken -/

namespace Halt

/-- One part of an evaluation after another succeeds exactly if both do. -/
theorem bind_eq_ok_iff {α β : Type} {x : Except Halt α} {f : α → Except Halt β} {b : β} :
    x >>= f = .ok b ↔ ∃ a, x = .ok a ∧ f a = .ok b := by
  cases x with
  | ok a =>
    constructor
    · intro h
      exact ⟨a, rfl, h⟩
    · rintro ⟨_, ha, h⟩
      cases ha
      exact h
  | error e =>
    constructor
    · intro h
      cases h
    · rintro ⟨_, ha, _⟩
      cases ha

/-- What follows a part of an evaluation matters only after what that part gives. -/
theorem bind_congr_ok {α β : Type} {x : Except Halt α} {f f' : α → Except Halt β}
    (h : ∀ a, x = .ok a → f a = f' a) : x >>= f = x >>= f' := by
  cases x with
  | ok a => exact h a rfl
  | error e => rfl

end Halt

open Halt

/-- The steps left after `f` were left before it. -/
def Spends (f : Progress → Except Halt Progress) : Prop :=
  ∀ w w', f w = .ok w' → w'.left ≤ w.left

namespace Progress

variable {w w' : Progress}

/-- To take a step is to have one less. -/
theorem left_of_spend (h : w.spend = .ok w') : w.left = w'.left + 1 := by
  unfold spend at h
  split at h
  · cases h
  · next hleft =>
    cases h
    exact hleft

/-- A step with an effect is one step. -/
theorem left_of_perform {effect : State → Except Halt State} (h : w.perform effect = .ok w') :
    w.left = w'.left + 1 := by
  obtain ⟨w₁, hspend, h⟩ := bind_eq_ok_iff.mp h
  obtain ⟨s, _, h⟩ := bind_eq_ok_iff.mp h
  have hleft : w.left = w₁.left + 1 := left_of_spend hspend
  cases h
  exact hleft

/-- A branch goes on with fewer steps. -/
theorem branch_congr {yes yes' no no' : Progress → Except Halt Progress}
    (hyes : ∀ w', w'.left < w.left → yes w' = yes' w')
    (hno : ∀ w', w'.left < w.left → no w' = no' w') :
    w.branch yes no = w.branch yes' no' := by
  unfold branch
  refine bind_congr_ok fun w₁ hspend => bind_congr_ok fun ⟨v, s⟩ _ => ?_
  have hlt : w₁.left < w.left := by
    rw [left_of_spend hspend]
    exact Nat.lt_succ_self _
  dsimp only
  split
  · exact hyes _ hlt
  · exact hno _ hlt

end Progress

namespace Spends

open Progress

variable {f g : Progress → Except Halt Progress}

/-- Doing nothing takes no step. -/
theorem ok : Spends .ok := by
  intro w w' h
  cases h
  exact Nat.le_refl _

/-- One part after another. -/
theorem bind (hf : Spends f) (hg : Spends g) : Spends fun w => f w >>= g := by
  intro w w' h
  obtain ⟨w₁, h₁, h₂⟩ := bind_eq_ok_iff.mp h
  exact Nat.le_trans (hg _ _ h₂) (hf _ _ h₁)

/-- A step. -/
theorem spend : Spends Progress.spend := by
  intro w w' h
  rw [left_of_spend h]
  exact Nat.le_succ _

/-- A step with an effect. -/
theorem perform (effect : State → Except Halt State) : Spends (Progress.perform effect) := by
  intro w w' h
  rw [left_of_perform h]
  exact Nat.le_succ _

/-- Either way of a branch. -/
theorem branch (hf : Spends f) (hg : Spends g) : Spends (Progress.branch f g) := by
  intro w w' h
  obtain ⟨w₁, hspend, h⟩ := bind_eq_ok_iff.mp h
  obtain ⟨⟨v, s⟩, _, h⟩ := bind_eq_ok_iff.mp h
  have hleft : w.left = w₁.left + 1 := left_of_spend hspend
  have hle : w'.left ≤ w₁.left := by
    dsimp only at h
    split at h
    · exact hf ⟨s, w₁.left⟩ w' h
    · exact hg ⟨s, w₁.left⟩ w' h
  omega

/-- Any number of rounds. -/
theorem repeatWhile (hf : Spends f) (hg : Spends g) :
    ∀ rounds, Spends (Progress.repeatWhile f g rounds)
  | 0 => by
    intro w w' h
    cases h
  | rounds + 1 => hf.bind (.branch ((hg.bind .spend).bind (repeatWhile hf hg rounds)) .ok)

end Spends

/-- Rounds that no step is left for do not matter. -/
theorem Progress.repeatWhile_eq {test body : Progress → Except Halt Progress} (htest : Spends test)
    (hbody : Spends body) : ∀ {rounds rounds' : Nat} {w : Progress}, w.left < rounds →
      w.left < rounds' → repeatWhile test body rounds w = repeatWhile test body rounds' w
  | 0, _, w, h, _ => absurd h (Nat.not_lt_zero _)
  | _, 0, w, _, h => absurd h (Nat.not_lt_zero _)
  | rounds + 1, rounds' + 1, w, h, h' => by
    refine bind_congr_ok fun w₁ h₁ => branch_congr (fun w₂ h₂ => ?_) fun _ _ => rfl
    refine bind_congr_ok fun w₃ h₃ => ?_
    -- The test, the branch, the body and the step to the next round come before that round.
    have hle : w₃.left ≤ w₂.left := (hbody.bind .spend) w₂ w₃ h₃
    have hle' : w₁.left ≤ w.left := htest w w₁ h₁
    exact repeatWhile_eq htest hbody (by omega) (by omega)

namespace Tree

open Progress

mutual

/-- Evaluation takes steps. -/
theorem spends_evaluate (denote : Value → Value) : ∀ t : Tree, Spends (t.evaluate denote)
  | block _ items => spends_evaluateAll denote items
  | store _ _ value => (spends_evaluate denote value).bind (.perform _)
  | read _ _ => .perform _
  | function _ _ _ => .perform _
  | print argument => (spends_evaluate denote argument).bind (.perform _)
  | loop test body => fun w =>
    Spends.repeatWhile (spends_evaluate denote test) (spends_evaluate denote body) (w.left + 1) w
  | call _ arguments =>
    ((Spends.perform _).bind (spends_evaluateAll denote arguments)).bind (.perform _)
  | conditional test consequent alternate =>
    (spends_evaluate denote test).bind
      (.branch ((spends_evaluate denote consequent).bind .spend) (spends_evaluate denote alternate))
  | binary _ left right =>
    ((spends_evaluate denote left).bind (spends_evaluate denote right)).bind (.perform _)
  | unary _ operand => (spends_evaluate denote operand).bind (.perform _)
  | literal _ => .perform _

/-- Evaluation of a list of trees takes steps. -/
theorem spends_evaluateAll (denote : Value → Value) :
    ∀ ts : List Tree, Spends (evaluateAll denote ts)
  | [] => .ok
  | t :: ts => (spends_evaluate denote t).bind (spends_evaluateAll denote ts)

end

/-- A loop evaluates its test and pops the value. If it counts as true, the body follows and then the
loop again; otherwise the loop is over. -/
theorem evaluate_loop (denote : Value → Value) (test body : Tree) (w : Progress) :
    (loop test body).evaluate denote w =
      test.evaluate denote w >>=
        branch (fun w => body.evaluate denote w >>= spend >>= (loop test body).evaluate denote)
          .ok := by
  have htest := spends_evaluate denote test
  have hbody := spends_evaluate denote body
  rw [evaluate, repeatWhile]
  refine bind_congr_ok fun w₁ h₁ => branch_congr (fun w₂ h₂ => ?_) fun _ _ => rfl
  refine bind_congr_ok fun w₃ h₃ => ?_
  have hle : w₃.left ≤ w₂.left := (hbody.bind .spend) w₂ w₃ h₃
  have hle' : w₁.left ≤ w.left := htest w w₁ h₁
  rw [evaluate]
  exact repeatWhile_eq htest hbody (by omega) (Nat.lt_succ_self _)

end Tree

end Backpatch
