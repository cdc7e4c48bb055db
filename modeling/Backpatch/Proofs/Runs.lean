import Backpatch.Proofs.Operands

/-!
# Steps and runs of the machine

What a step of the machine can do, said once for all operations. `Machine.Moves` is what a step that
succeeds changes: the next address is one that the instruction may go on to, the stack grows and
shrinks as the operation says, and the instruction is traced. `Machine.fails_of_step` lists the ways
in which a step fails with an instruction that fits its program. `Executes` follows the machine from
the start of a program for any number of steps, and a run ends where an execution does
(`Executes.of_runFrom_ok`, `Executes.of_runFrom_error`).
-/

namespace Backpatch

namespace Opcode

/-- How many values the machine pops for an operation. -/
def pops : Opcode → Nat
  | binary => 2
  | storeName | callBuiltin | not | negate | jumpIfFalse => 1
  | _ => 0

/-- How many values the machine pushes for an operation. -/
def pushes : Opcode → Nat
  | loadName | loadConst | binary | not | negate => 1
  | _ => 0

end Opcode

/-- The addresses at which the machine may go on after an instruction at `k`. After an operation that
it lacks it does not go on. -/
def Instruction.next (i : Instruction) (k : Nat) : List Nat :=
  match i.opcode with
  | .jump => i.operand.toList
  | .jumpIfFalse => (k + 1) :: i.operand.toList
  | .makeFunction | .loadFast | .call => []
  | _ => [k + 1]

namespace Machine

variable {p : Program} {i : Instruction} {m m' : Machine} {e : MachineError}

/-! ## Steps that succeed -/

/-- What a step with an instruction changes. -/
structure Moves (i : Instruction) (m m' : Machine) : Prop where
  /-- The machine goes on where the instruction may go on. -/
  pc : m'.pc ∈ i.next m.pc
  /-- The stack loses what the operation pops and gains what it pushes. -/
  stack : m'.stack.length + i.opcode.pops = m.stack.length + i.opcode.pushes
  /-- No global comes or goes. -/
  globals : m'.globals.length = m.globals.length
  /-- The instruction is traced. -/
  trace : m'.trace = m.trace.push i.address

/-- What goes on with an operand has one. -/
theorem exists_of_operand_bind {α : Type} {f : Nat → Except MachineError α} {a : α}
    (h : operand i >>= f = .ok a) : ∃ n, i.operand = some n ∧ f n = .ok a := by
  unfold operand at h
  cases hn : i.operand with
  | some n =>
    rw [hn] at h
    exact ⟨n, rfl, h⟩
  | none =>
    rw [hn] at h
    cases h

/-- What goes on with a popped value has one on the stack. -/
theorem exists_of_pop_bind {α : Type} {f : Value × Machine → Except MachineError α} {a : α}
    (h : m.pop >>= f = .ok a) :
    ∃ v stack, m.stack = v :: stack ∧ f (v, { m with stack := stack }) = .ok a := by
  unfold pop at h
  cases hstack : m.stack with
  | cons v stack =>
    rw [hstack] at h
    exact ⟨v, stack, rfl, h⟩
  | nil =>
    rw [hstack] at h
    cases h

/-- What pushes a result has one. -/
theorem exists_of_bind_push {result : Except MachineError Value}
    (h : (result >>= fun v => .ok (m.push v)) = .ok m') : ∃ v, m' = m.push v := by
  cases result with
  | ok v =>
    cases h
    exact ⟨v, rfl⟩
  | error e => cases h

section

attribute [local simp] Instruction.next Opcode.pops Opcode.pushes push

/-- A step that succeeds does what its operation says. -/
theorem moves_of_step (h : m.step p i = .ok m') : Moves i m m' := by
  obtain ⟨address, opcode, operand, display⟩ := i
  unfold step at h
  -- Case by case: what the instruction takes from the stack, and where it goes on.
  cases opcode with
  | loadName =>
    obtain ⟨id, rfl, h⟩ := exists_of_operand_bind h
    dsimp only at h
    split at h <;> cases h
    constructor <;> simp
  | storeName =>
    obtain ⟨id, rfl, h⟩ := exists_of_operand_bind h
    obtain ⟨v, stack, hstack, h⟩ := exists_of_pop_bind h
    dsimp only at hstack h
    split at h <;> cases h
    constructor <;> simp [hstack]
  | loadConst =>
    obtain ⟨id, rfl, h⟩ := exists_of_operand_bind h
    dsimp only at h
    split at h <;> cases h
    constructor <;> simp
  | callBuiltin =>
    obtain ⟨id, rfl, h⟩ := exists_of_operand_bind h
    dsimp only at h
    split at h
    · obtain ⟨v, stack, hstack, h⟩ := exists_of_pop_bind h
      dsimp only at hstack
      cases h
      constructor <;> simp [hstack]
    · cases h
  | binary =>
    obtain ⟨code, rfl, h⟩ := exists_of_operand_bind h
    dsimp only at h
    split at h
    · obtain ⟨right, stack, hstack, h⟩ := exists_of_pop_bind h
      obtain ⟨left, stack', rfl, h⟩ := exists_of_pop_bind h
      obtain ⟨v, rfl⟩ := exists_of_bind_push h
      dsimp only at hstack
      constructor <;> simp [hstack]
    · cases h
  | not =>
    obtain ⟨v, stack, hstack, h⟩ := exists_of_pop_bind h
    obtain ⟨v, rfl⟩ := exists_of_bind_push h
    dsimp only at hstack
    constructor <;> simp [hstack]
  | negate =>
    obtain ⟨v, stack, hstack, h⟩ := exists_of_pop_bind h
    obtain ⟨v, rfl⟩ := exists_of_bind_push h
    dsimp only at hstack
    constructor <;> simp [hstack]
  | jump =>
    obtain ⟨target, rfl, h⟩ := exists_of_operand_bind h
    cases h
    constructor <;> simp
  | jumpIfFalse =>
    obtain ⟨target, rfl, h⟩ := exists_of_operand_bind h
    obtain ⟨v, stack, hstack, h⟩ := exists_of_pop_bind h
    dsimp only at hstack
    cases h
    dsimp only
    split <;> constructor <;> simp [hstack]
  | makeFunction => cases h
  | loadFast => cases h
  | call => cases h

end

/-! ## Steps that fail -/

/-- A function of numbers fails only on a Boolean. -/
theorem error_of_onNumbers {f : Number → Number → Value} {left right : Value}
    (h : Value.onNumbers f left right = .error e) : ∃ found, e = .expectedNumber found := by
  cases left with
  | boolean b =>
    cases h
    exact ⟨b, rfl⟩
  | number x =>
    cases right with
    | boolean b =>
      cases h
      exact ⟨b, rfl⟩
    | number y => cases h

/-- A binary operator fails only on a Boolean in place of a number. -/
theorem error_of_applyBinary {op : BinaryOp} {left right : Value}
    (h : Value.applyBinary op left right = .error e) : ∃ found, e = .expectedNumber found := by
  cases op with
  | or | and | eq | ne => cases h
  | _ => exact error_of_onNumbers h

/-- A unary operator fails only on a Boolean in place of a number. -/
theorem error_of_applyUnary {op : UnaryOp} {v : Value} (h : v.applyUnary op = .error e) :
    ∃ found, e = .expectedNumber found := by
  cases op with
  | not => cases h
  | negate =>
    cases v with
    | boolean b =>
      cases h
      exact ⟨b, rfl⟩
    | number x => cases h

/-- The ways in which a step fails with an instruction that fits the program. -/
inductive Fails (i : Instruction) (m : Machine) : MachineError → Prop where
  /-- There are fewer values than the operation pops. -/
  | underflow (h : m.stack.length < i.opcode.pops) : Fails i m .stackUnderflow
  /-- A global has no value yet. -/
  | unset (id : Nat) : Fails i m (.unsetGlobal id)
  /-- An operand is a Boolean and not a number. -/
  | boolean (found : Bool) : Fails i m (.expectedNumber found)
  /-- The machine lacks the operation. -/
  | unsupported (h : i.opcode = .makeFunction ∨ i.opcode = .loadFast ∨ i.opcode = .call) :
      Fails i m (.unsupportedOpcode i.opcode)

/-- Popping fails only on an empty stack, where there are fewer values than the operation pops. -/
theorem Fails.of_pop {m₁ : Machine} {f : Value × Machine → Except MachineError Machine}
    (h : m₁.pop >>= f = .error e) (hempty : m₁.stack = [] → m.stack.length < i.opcode.pops)
    (hrest : ∀ v stack, m₁.stack = v :: stack → f (v, { m₁ with stack := stack }) = .error e →
      Fails i m e) : Fails i m e := by
  unfold pop at h
  cases hstack : m₁.stack with
  | cons v stack =>
    rw [hstack] at h
    exact hrest v stack hstack h
  | nil =>
    rw [hstack] at h
    cases h
    exact .underflow (hempty hstack)

/-- Where only a result is missing, an operand is a Boolean and not a number. -/
theorem Fails.of_result {m₁ : Machine} {result : Except MachineError Value}
    (h : (result >>= fun v => .ok (m₁.push v)) = .error e)
    (hresult : ∀ e, result = .error e → ∃ found, e = .expectedNumber found) : Fails i m e := by
  cases result with
  | ok v => cases h
  | error e =>
    cases h
    obtain ⟨found, rfl⟩ := hresult e rfl
    exact .boolean found

/-- A step with an instruction that fits the program fails in one of the four ways. -/
theorem fails_of_step (hfits : i.Fits p) (hglobals : m.globals.length = p.names.length)
    (h : m.step p i = .error e) : Fails i m e := by
  -- Where the operation pops one value, it is on the stack of `m` if it is anywhere.
  have hone (hpops : i.opcode.pops = 1) (hnil : m.stack = []) : m.stack.length < i.opcode.pops := by
    rw [hpops, hnil]
    exact Nat.one_pos
  unfold step at h
  cases hfits with
  | loadName _ =>
    simp only [execute, operand, bind, Except.bind] at h
    split at h <;> cases h
    exact .unset _
  | storeName hname =>
    refine .of_pop h (hone rfl) fun v stack _ h => ?_
    have hlt := (List.getElem?_eq_some_iff.mp hname).1
    rw [← hglobals] at hlt
    dsimp only at h
    rw [if_pos hlt] at h
    cases h
  | loadFast =>
    cases h
    exact .unsupported (.inr (.inl rfl))
  | loadConst hconstant =>
    simp only [execute, operand, bind, Except.bind, hconstant] at h
    cases h
  | makeFunction =>
    cases h
    exact .unsupported (.inl rfl)
  | call =>
    cases h
    exact .unsupported (.inr (.inr rfl))
  | print => exact .of_pop h (hone rfl) fun v stack _ h => by cases h
  | binary op =>
    rw [execute_binary] at h
    refine .of_pop h (fun hnil => ?_) fun right stack hstack h =>
      .of_pop h (fun hnil => ?_) fun left stack' _ h =>
        .of_result h fun e he => error_of_applyBinary he
    · have hempty : m.stack = [] := hnil
      rw [hempty]
      exact Nat.two_pos
    · have hlast : m.stack = [right] := hstack.trans (congrArg (right :: ·) hnil)
      rw [hlast]
      exact Nat.one_lt_two
  | not | negate =>
    exact .of_pop h (hone rfl) fun v stack _ h => .of_result h fun e he => error_of_applyUnary he
  | jump => cases h
  | jumpIfFalse => exact .of_pop h (hone rfl) fun v stack _ h => by cases h

end Machine

/-! ## Executions -/

/-- From the start of the program the instructions at the indices `ks` are executed, in this order, and
the machine is `m` then. -/
inductive Executes (p : Program) : List Nat → Machine → Prop where
  /-- Before the first step. -/
  | start : Executes p [] (Machine.start p)
  /-- After one step more. -/
  | step {ks : List Nat} {m m' : Machine} {i : Instruction} (h : Executes p ks m)
      (hi : p.code[m.pc]? = some i) (hstep : m.step p i = .ok m') : Executes p (ks ++ [m.pc]) m'

namespace Executes

variable {p : Program} {m' : Machine} {e : MachineError}

/-- A run that ends well is an execution up to a machine that has left the code. -/
theorem of_runFrom_ok : ∀ {fuel : Nat} {ks : List Nat} {m : Machine}, Executes p ks m →
    m.runFrom p fuel = .ok m' → (∃ ks, Executes p ks m') ∧ p.code[m'.pc]? = none
  | 0, ks, m, hexec, h => by
    rw [Machine.runFrom] at h
    split at h
    · cases h
    · next hnone =>
      cases h
      exact ⟨⟨ks, hexec⟩, hnone⟩
  | fuel + 1, ks, m, hexec, h => by
    rw [Machine.runFrom] at h
    split at h
    · next i hi =>
      split at h
      · next m₁ hstep => exact of_runFrom_ok (hexec.step hi hstep) h
      · cases h
    · next hnone =>
      cases h
      exact ⟨⟨ks, hexec⟩, hnone⟩

/-- A run that fails is an execution up to an instruction that fails, or that there is no step left
for. -/
theorem of_runFrom_error : ∀ {fuel : Nat} {ks : List Nat} {m : Machine}, Executes p ks m →
    m.runFrom p fuel = .error e →
    ∃ ks m' i, Executes p ks m' ∧ p.code[m'.pc]? = some i ∧
      (m'.step p i = .error e ∨ e = .stepLimit m'.pc)
  | 0, ks, m, hexec, h => by
    rw [Machine.runFrom] at h
    split at h
    · next i hi =>
      cases h
      exact ⟨ks, m, i, hexec, hi, .inr rfl⟩
    · cases h
  | fuel + 1, ks, m, hexec, h => by
    rw [Machine.runFrom] at h
    split at h
    · next i hi =>
      split at h
      · next m₁ hstep => exact of_runFrom_error (hexec.step hi hstep) h
      · next e' hstep =>
        cases h
        exact ⟨ks, m, i, hexec, hi, .inl hstep⟩
    · cases h

end Executes

end Backpatch
