import Backpatch.Event
import Backpatch.Instruction
import Backpatch.Step

/-!
# Code buffers

A code buffer grows at its end, and each instruction stands at the address that is the length of the
code before it. A forward jump is reserved before its target is known: it takes its address at once,
stays pending, and gets its target later in place, so that no instruction ever moves.
-/

namespace Backpatch

/-- The code so far and the jumps that wait for a target. -/
structure CodeBuffer where
  /-- The instructions, each at its address. -/
  code : Array Instruction := #[]
  /-- The addresses of the reserved jumps without a target, the oldest first. -/
  pending : List Nat := []
deriving DecidableEq, Repr

/-- A reserved jump, named by its address. -/
structure Label where
  /-- The address of the jump. -/
  address : Nat
deriving DecidableEq, Repr

namespace CodeBuffer

/-- Gives the address of the next instruction. -/
def nextAddress : Step CodeBuffer Nat := fun b =>
  if b.code.size < addressLimit then
    .ok b.code.size b
  else
    .error (.codeFull b.code.size) b

/-- Appends an instruction and gives its address. -/
def emit (opcode : Opcode) (operand : Option Nat) (display : Option String) :
    Step CodeBuffer Nat := do
  let address ← nextAddress
  modify fun b => { b with code := b.code.push ⟨address, opcode, operand, display⟩ }
  return address

/-- Appends a jump whose target is given later. -/
def reserve (branch : Branch) : Step CodeBuffer Label := do
  let address ← emit branch.opcode none none
  modify fun b => { b with pending := b.pending ++ [address] }
  return ⟨address⟩

/-- The addresses without the last occurrence of `address`. Inner jumps are closed first, so it is
mostly the last of all. -/
def withdraw (address : Nat) (addresses : List Nat) : List Nat :=
  (addresses.reverse.erase address).reverse

/-- Gives a pending jump its target and reports it. -/
def patchTo (label : Label) (target : Nat) : Step CodeBuffer Event := fun b =>
  if label.address ∈ b.pending then
    let b := { b with pending := withdraw label.address b.pending }
    match b.code[label.address]? with
    | some i =>
      .ok (.patched label.address target i.opcode)
        { b with code := b.code.setIfInBounds label.address { i with operand := some target } }
    | none => .error (.notPending label.address) b
  else
    .error (.notPending label.address) b

/-- Gives a pending jump the next address as its target and reports it. -/
def patch (label : Label) : Step CodeBuffer Event := do
  let target ← nextAddress
  patchTo label target

/-- Appends a jump back to a known address. -/
def loop (target : Nat) : Step CodeBuffer Nat :=
  emit .jump (some target) none

/-- The finished code, once no jump is pending. -/
def finish (b : CodeBuffer) : Except GenerationError (Array Instruction) :=
  match b.pending with
  | [] => .ok b.code
  | address :: _ => .error (.pendingJump address)

/-! ## The steps while there are addresses -/

/-- The next address is the length of the code. -/
theorem nextAddress_of_lt {b : CodeBuffer} (h : b.code.size < addressLimit) :
    nextAddress b = .ok b.code.size b := by
  simp [nextAddress, h]

/-- An instruction is appended at the next address, and the pending jumps stay. -/
theorem emit_of_lt {b : CodeBuffer} (h : b.code.size < addressLimit) (opcode : Opcode)
    (operand : Option Nat) (display : Option String) :
    emit opcode operand display b =
      .ok b.code.size
        { b with code := b.code.push ⟨b.code.size, opcode, operand, display⟩ } := by
  simp only [emit, Step.bind_apply, nextAddress_of_lt h, Step.modify_apply, Step.pure_apply]

/-- A reserved jump is appended without an operand and becomes the last pending one. -/
theorem reserve_of_lt {b : CodeBuffer} (h : b.code.size < addressLimit) (branch : Branch) :
    reserve branch b =
      .ok ⟨b.code.size⟩
        ⟨b.code.push ⟨b.code.size, branch.opcode, none, none⟩, b.pending ++ [b.code.size]⟩ := by
  simp only [reserve, Step.bind_apply, emit_of_lt h, Step.modify_apply, Step.pure_apply]

/-- Patching takes the next address for the target. -/
theorem patch_of_lt {b : CodeBuffer} (h : b.code.size < addressLimit) (label : Label) :
    patch label b = patchTo label b.code.size b := by
  simp only [patch, Step.bind_apply, nextAddress_of_lt h]

/-- A pending jump that stands in the code gets its target in place and is pending no more. -/
theorem patchTo_of_mem {b : CodeBuffer} {label : Label} {i : Instruction}
    (hmem : label.address ∈ b.pending) (hi : b.code[label.address]? = some i) (target : Nat) :
    patchTo label target b =
      .ok (.patched label.address target i.opcode)
        ⟨b.code.setIfInBounds label.address { i with operand := some target },
          withdraw label.address b.pending⟩ := by
  simp [patchTo, hmem, hi]

/-- What is not pending cannot be patched, and the attempt changes nothing. -/
theorem patchTo_of_not_mem {b : CodeBuffer} {label : Label} (h : label.address ∉ b.pending)
    (target : Nat) : patchTo label target b = .error (.notPending label.address) b := by
  simp [patchTo, h]

/-- The jump reserved last is the one withdrawn, also if an older one has its address. -/
theorem withdraw_append_cons {address : Nat} {younger : List Nat} (h : address ∉ younger)
    (older : List Nat) : withdraw address (older ++ address :: younger) = older ++ younger := by
  have h' : address ∉ younger.reverse := fun hm => h (List.mem_reverse.mp hm)
  simp [withdraw, List.erase_append_right _ h']

/-! ## The steps when the addresses have run out -/

/-- There is no next address. -/
theorem nextAddress_of_not_lt {b : CodeBuffer} (h : ¬ b.code.size < addressLimit) :
    nextAddress b = .error (.codeFull b.code.size) b := by
  simp [nextAddress, h]

/-- Nothing is appended. -/
theorem emit_of_not_lt {b : CodeBuffer} (h : ¬ b.code.size < addressLimit) (opcode : Opcode)
    (operand : Option Nat) (display : Option String) :
    emit opcode operand display b = .error (.codeFull b.code.size) b := by
  simp only [emit, Step.bind_apply, nextAddress_of_not_lt h]

/-- Nothing is reserved. -/
theorem reserve_of_not_lt {b : CodeBuffer} (h : ¬ b.code.size < addressLimit) (branch : Branch) :
    reserve branch b = .error (.codeFull b.code.size) b := by
  simp only [reserve, Step.bind_apply, emit_of_not_lt h]

/-- Nothing is patched to the next address. -/
theorem patch_of_not_lt {b : CodeBuffer} (h : ¬ b.code.size < addressLimit) (label : Label) :
    patch label b = .error (.codeFull b.code.size) b := by
  simp only [patch, Step.bind_apply, nextAddress_of_not_lt h]

/-! ## A step that succeeds had an address -/

/-- There is a next address only below the limit. -/
theorem size_lt_of_nextAddress {b b' : CodeBuffer} {a : Nat} (h : nextAddress b = .ok a b') :
    b.code.size < addressLimit := by
  unfold nextAddress at h
  split at h
  · assumption
  · cases h

/-- An instruction is appended only below the limit. -/
theorem size_lt_of_emit {b b' : CodeBuffer} {opcode : Opcode} {operand : Option Nat}
    {display : Option String} {a : Nat} (h : emit opcode operand display b = .ok a b') :
    b.code.size < addressLimit := by
  obtain ⟨_, _, haddress, _⟩ := Step.bind_eq_ok_iff.mp h
  exact size_lt_of_nextAddress haddress

/-- A jump is reserved only below the limit. -/
theorem size_lt_of_reserve {b b' : CodeBuffer} {branch : Branch} {label : Label}
    (h : reserve branch b = .ok label b') : b.code.size < addressLimit := by
  obtain ⟨_, _, hemit, _⟩ := Step.bind_eq_ok_iff.mp h
  exact size_lt_of_emit hemit

/-- A jump is patched only while there is a next address. -/
theorem size_lt_of_patch {b b' : CodeBuffer} {label : Label} {event : Event}
    (h : patch label b = .ok event b') : b.code.size < addressLimit := by
  obtain ⟨_, _, haddress, _⟩ := Step.bind_eq_ok_iff.mp h
  exact size_lt_of_nextAddress haddress

end CodeBuffer

end Backpatch
