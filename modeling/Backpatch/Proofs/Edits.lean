import Backpatch.Proofs.Sessions
import Mathlib.Data.List.Nodup

/-!
# Buffers under any edits

A code buffer may be edited in any order and with any labels: with one that was used before, with one
of another buffer, or with one that was never given. An edit that is refused changes nothing, so every
edit is one of four things (`Edit.effect`), and `CodeBuffer.Sound` goes through each of them. It ties the
pending jumps to the history of the buffer: they are the jumps that were reserved and not yet patched.
-/

namespace Backpatch

/-- The result of a step, if it succeeds. -/
def Step.result? {σ α : Type} (x : Step σ α) (s : σ) : Option α :=
  match x s with
  | .ok a _ => some a
  | .error _ _ => none

/-- One edit of a code buffer. -/
inductive Edit where
  /-- An instruction is appended. -/
  | emit (opcode : Opcode) (operand : Option Nat) (display : Option String)
  /-- A jump back is appended. -/
  | loop (target : Nat)
  /-- A jump is reserved. -/
  | reserve (branch : Branch)
  /-- A jump is given the next address as its target. -/
  | patch (label : Label)
  /-- A jump is given a target. -/
  | patchTo (label : Label) (target : Nat)
deriving DecidableEq, Repr

namespace Edit

/-- The buffer after an edit, whether it is refused or not. -/
def apply : Edit → CodeBuffer → CodeBuffer
  | emit opcode operand display => (CodeBuffer.emit opcode operand display).after
  | loop target => (CodeBuffer.loop target).after
  | reserve branch => (CodeBuffer.reserve branch).after
  | patch label => (CodeBuffer.patch label).after
  | patchTo label target => (CodeBuffer.patchTo label target).after

/-- The address that an edit reserves, if it does. -/
def reserved? : Edit → CodeBuffer → Option Nat
  | reserve branch, b => ((CodeBuffer.reserve branch).result? b).map Label.address
  | _, _ => none

/-- The address that an edit patches, if it does. -/
def patched? : Edit → CodeBuffer → Option Nat
  | patch label, b => ((CodeBuffer.patch label).result? b).map fun _ => label.address
  | patchTo label target, b => ((CodeBuffer.patchTo label target).result? b).map fun _ => label.address
  | _, _ => none

end Edit

namespace CodeBuffer

/-- The buffer after some edits, the refused ones among them. -/
def edit (b : CodeBuffer) (edits : List Edit) : CodeBuffer :=
  edits.foldl (fun b e => e.apply b) b

/-- The addresses that some edits reserve, in order. -/
def reservedBy : CodeBuffer → List Edit → List Nat
  | _, [] => []
  | b, e :: edits => (e.reserved? b).toList ++ reservedBy (e.apply b) edits

/-- The addresses that some edits patch, in order. -/
def patchedBy : CodeBuffer → List Edit → List Nat
  | _, [] => []
  | b, e :: edits => (e.patched? b).toList ++ patchedBy (e.apply b) edits

/-! ## What an edit can do -/

/-- The ways in which a buffer changes, each with the address that is reserved and the one that is
patched. -/
inductive Effect (b : CodeBuffer) : CodeBuffer → Option Nat → Option Nat → Prop where
  /-- The edit is refused. -/
  | refused : Effect b b none none
  /-- An instruction is appended at its address. -/
  | appended {i : Instruction} (h : i.address = b.code.size) :
      Effect b { b with code := b.code.push i } none none
  /-- A jump is appended at its address and becomes the last pending one. -/
  | reserved (branch : Branch) :
      Effect b ⟨b.code.push ⟨b.code.size, branch.opcode, none, none⟩, b.pending ++ [b.code.size]⟩
        (some b.code.size) none
  /-- A pending jump gets its target and is pending no more. -/
  | patched {address : Nat} {i : Instruction} (target : Nat) (hmem : address ∈ b.pending)
      (hi : b.code[address]? = some i) :
      Effect b ⟨b.code.setIfInBounds address { i with operand := some target },
        withdraw address b.pending⟩ none (some address)

variable {b b' : CodeBuffer}

/-- An instruction is appended while there is a next address. -/
theorem effect_emit (opcode : Opcode) (operand : Option Nat) (display : Option String) :
    Effect b ((emit opcode operand display).after b) none none := by
  by_cases hlt : b.code.size < addressLimit
  · rw [Step.after_of_ok (emit_of_lt hlt opcode operand display)]
    exact .appended rfl
  · rw [Step.after_of_error (emit_of_not_lt hlt opcode operand display)]
    exact .refused

/-- A jump is reserved while there is a next address. -/
theorem effect_reserve (branch : Branch) :
    Effect b ((reserve branch).after b) (((reserve branch).result? b).map Label.address) none := by
  by_cases hlt : b.code.size < addressLimit
  · have hok := reserve_of_lt hlt branch
    rw [Step.after_of_ok hok, Step.result?, hok]
    exact .reserved branch
  · have herror := reserve_of_not_lt hlt branch
    rw [Step.after_of_error herror, Step.result?, herror]
    exact .refused

/-- A pending jump that stands in the code is given its target, and nothing else is. -/
theorem effect_patchTo (hcode : ∀ a ∈ b.pending, a < b.code.size) (label : Label) (target : Nat) :
    Effect b ((patchTo label target).after b) none
      (((patchTo label target).result? b).map fun _ => label.address) := by
  by_cases hmem : label.address ∈ b.pending
  · have hi := Array.getElem?_eq_getElem (hcode _ hmem)
    have hok := patchTo_of_mem hmem hi target
    rw [Step.after_of_ok hok, Step.result?, hok]
    exact .patched target hmem hi
  · have herror := patchTo_of_not_mem hmem target
    rw [Step.after_of_error herror, Step.result?, herror]
    exact .refused

/-- The next address is a target while there is one. -/
theorem effect_patch (hcode : ∀ a ∈ b.pending, a < b.code.size) (label : Label) :
    Effect b ((patch label).after b) none
      (((patch label).result? b).map fun _ => label.address) := by
  by_cases hlt : b.code.size < addressLimit
  · have heffect := effect_patchTo hcode label b.code.size
    unfold Step.after Step.result? at heffect ⊢
    rw [patch_of_lt hlt]
    exact heffect
  · have herror := patch_of_not_lt hlt label
    rw [Step.after_of_error herror, Step.result?, herror]
    exact .refused

end CodeBuffer

/-- An edit of a buffer whose pending jumps stand in the code is one of the four things. -/
theorem Edit.effect {b : CodeBuffer} (hcode : ∀ a ∈ b.pending, a < b.code.size) (e : Edit) :
    b.Effect (e.apply b) (e.reserved? b) (e.patched? b) := by
  cases e with
  | emit opcode operand display => exact CodeBuffer.effect_emit opcode operand display
  | loop target => exact CodeBuffer.effect_emit .jump (some target) none
  | reserve branch => exact CodeBuffer.effect_reserve branch
  | patch label => exact CodeBuffer.effect_patch hcode label
  | patchTo label target => exact CodeBuffer.effect_patchTo hcode label target

namespace CodeBuffer

variable {b b' : CodeBuffer} {reserved patched : List Nat} {new done : Option Nat}

/-! ## What edits keep -/

/-- A buffer in which the jumps at `reserved` were reserved, in this order, and those at `patched` have
got their targets since. -/
structure Sound (b : CodeBuffer) (reserved patched : List Nat) : Prop where
  /-- Every instruction stands at its address. -/
  address : ∀ (k : Nat) (i : Instruction), b.code[k]? = some i → i.address = k
  /-- The pending jumps are those reserved and not patched. -/
  pending : b.pending = reserved.filter (· ∉ patched)
  /-- Jumps are reserved at ever greater addresses. -/
  increasing : reserved.Pairwise (· < ·)
  /-- What was reserved is in the code. -/
  inCode : ∀ a ∈ reserved, a < b.code.size
  /-- Only what was reserved is patched. -/
  subset : ∀ a ∈ patched, a ∈ reserved
  /-- The pending jumps have no target. -/
  jumps : ∀ a ∈ b.pending, ∃ branch : Branch, b.code[a]? = some ⟨a, branch.opcode, none, none⟩

/-- A new buffer is sound. -/
theorem sound_empty : Sound {} [] [] where
  address := by simp
  pending := rfl
  increasing := .nil
  inCode := by simp
  subset := by simp
  jumps := by simp

/-- From addresses that differ, withdrawing one takes it out wherever it is. -/
theorem withdraw_of_nodup {addresses : List Nat} (h : addresses.Nodup) (address : Nat) :
    withdraw address addresses = addresses.filter (· != address) := by
  rw [withdraw, (List.nodup_reverse.mpr h).erase_eq_filter, ← List.filter_reverse,
    List.reverse_reverse]

namespace Sound

variable (h : b.Sound reserved patched)

include h

/-- A jump is pending exactly if it was reserved and not patched. -/
theorem mem_pending_iff {a : Nat} : a ∈ b.pending ↔ a ∈ reserved ∧ a ∉ patched := by
  rw [h.pending, List.mem_filter, decide_eq_true_eq]

/-- The pending jumps stand in the code. -/
theorem lt_of_mem_pending : ∀ a ∈ b.pending, a < b.code.size :=
  fun a ha => h.inCode a (h.mem_pending_iff.mp ha).1

/-- The pending jumps are in the order of their addresses. -/
theorem pairwise_pending : b.pending.Pairwise (· < ·) := by
  rw [h.pending]
  exact h.increasing.filter _

/-- An appended instruction keeps a buffer sound. -/
theorem appended {i : Instruction} (hi : i.address = b.code.size) :
    Sound { b with code := b.code.push i } reserved patched where
  address k j hj := by
    rw [Array.getElem?_push] at hj
    split at hj
    · cases hj
      omega
    · exact h.address k j hj
  pending := h.pending
  increasing := h.increasing
  inCode a ha := by
    have := h.inCode a ha
    simp only [Array.size_push]
    omega
  subset := h.subset
  jumps a ha := by
    have hlt := h.lt_of_mem_pending a ha
    dsimp only
    rw [Array.getElem?_push_lt hlt, ← Array.getElem?_eq_getElem hlt]
    exact h.jumps a ha

/-- A reserved jump keeps a buffer sound: its address is greater than all before. -/
theorem reserve (branch : Branch) :
    Sound ⟨b.code.push ⟨b.code.size, branch.opcode, none, none⟩, b.pending ++ [b.code.size]⟩
      (reserved ++ [b.code.size]) patched := by
  -- The new address lies behind the code, so it has neither been reserved nor patched.
  have hnew : b.code.size ∉ patched :=
    fun hmem => Nat.lt_irrefl _ (h.inCode _ (h.subset _ hmem))
  have happended := h.appended (i := ⟨b.code.size, branch.opcode, none, none⟩) rfl
  refine ⟨happended.address, ?_, ?_, ?_, ?_, ?_⟩
  · rw [List.filter_append, ← h.pending, List.filter_cons_of_pos (by simpa using hnew)]
    rfl
  · refine List.pairwise_append.mpr ⟨h.increasing, List.pairwise_singleton _ _, ?_⟩
    intro a ha a' ha'
    rw [List.mem_singleton.mp ha']
    exact h.inCode a ha
  · intro a ha
    rcases List.mem_append.mp ha with ha | ha
    · exact happended.inCode a ha
    · rw [List.mem_singleton.mp ha, Array.size_push]
      exact Nat.lt_succ_self _
  · exact fun a ha => List.mem_append_left _ (h.subset a ha)
  · intro a ha
    rcases List.mem_append.mp ha with ha | ha
    · exact happended.jumps a ha
    · rw [List.mem_singleton.mp ha]
      exact ⟨branch, Array.getElem?_push_size⟩

/-- A patched jump keeps a buffer sound. -/
theorem patch {address : Nat} {i : Instruction} (target : Nat) (hmem : address ∈ b.pending)
    (hi : b.code[address]? = some i) :
    Sound ⟨b.code.setIfInBounds address { i with operand := some target },
      withdraw address b.pending⟩ reserved (patched ++ [address]) := by
  -- No address is pending twice, so to withdraw it once is to remove it.
  have hnodup : b.pending.Nodup := h.pairwise_pending.imp Nat.ne_of_lt
  have hwithdraw := withdraw_of_nodup hnodup address
  refine ⟨?_, ?_, h.increasing, ?_, ?_, ?_⟩
  · intro k j hj
    dsimp only at hj
    rw [Array.getElem?_setIfInBounds] at hj
    split at hj
    · next hk =>
      split at hj
      · cases hj
        exact (h.address address i hi).trans hk
      · cases hj
    · exact h.address k j hj
  · dsimp only
    rw [hwithdraw, h.pending, List.filter_filter]
    refine List.filter_congr fun a _ => ?_
    rw [Bool.eq_iff_iff]
    simp [and_comm]
  · intro a ha
    rw [Array.size_setIfInBounds]
    exact h.inCode a ha
  · intro a ha
    rcases List.mem_append.mp ha with ha | ha
    · exact h.subset a ha
    · rw [List.mem_singleton.mp ha]
      exact (h.mem_pending_iff.mp hmem).1
  · intro a ha
    rw [hwithdraw, List.mem_filter, bne_iff_ne] at ha
    dsimp only
    rw [Array.getElem?_setIfInBounds_ne (Ne.symm ha.2)]
    exact h.jumps a ha.1

omit h in
/-- What an edit reserves is behind all that was there. -/
theorem eq_size_of_effect (he : b.Effect b' new done) {a : Nat} (ha : a ∈ new.toList) :
    a = b.code.size := by
  cases he with
  | reserved branch => exact List.mem_singleton.mp ha
  | _ => cases ha

/-- Whatever an edit does keeps a buffer sound. -/
theorem effect (he : b.Effect b' new done) :
    b'.Sound (reserved ++ new.toList) (patched ++ done.toList) := by
  cases he with
  | refused => simpa using h
  | appended hi => simpa using h.appended hi
  | reserved branch => simpa using h.reserve branch
  | patched target hmem hi => simpa using h.patch target hmem hi

/-- Any number of edits keeps a buffer sound. -/
theorem edit (edits : List Edit) :
    (b.edit edits).Sound (reserved ++ b.reservedBy edits) (patched ++ b.patchedBy edits) := by
  induction edits generalizing b reserved patched with
  | nil => simpa [CodeBuffer.edit, reservedBy, patchedBy] using h
  | cons e edits ih =>
    have hstep := ih (h.effect (e.effect h.lt_of_mem_pending))
    rw [List.append_assoc, List.append_assoc] at hstep
    exact hstep

/-- An edit leaves an instruction as it is, or gives it the target that it was reserved for. -/
theorem keeps_of_effect (he : b.Effect b' new done) {k : Nat} {i : Instruction}
    (hi : b.code[k]? = some i) :
    b'.code[k]? = some i ∨
      i.operand = none ∧ k ∈ reserved ∧
        ∃ target, b'.code[k]? = some { i with operand := some target } := by
  have hlt : k < b.code.size := (Array.getElem?_eq_some_iff.mp hi).1
  -- Only a patch changes what is in the code, and only a pending jump, which has no target.
  cases he with
  | refused => exact .inl hi
  | appended _ => exact .inl (by rw [Array.getElem?_push_lt hlt, ← Array.getElem?_eq_getElem hlt, hi])
  | reserved _ => exact .inl (by rw [Array.getElem?_push_lt hlt, ← Array.getElem?_eq_getElem hlt, hi])
  | @patched address j target hmem hj =>
    by_cases hk : address = k
    · subst hk
      obtain ⟨branch, hjump⟩ := h.jumps address hmem
      have hnone : i.operand = none := by
        rw [hjump] at hi
        cases hi
        rfl
      rw [hj] at hi
      cases hi
      exact .inr ⟨hnone, (h.mem_pending_iff.mp hmem).1, target,
        Array.getElem?_setIfInBounds_self_of_lt hlt⟩
    · exact .inl (by rw [Array.getElem?_setIfInBounds_ne hk, hi])

/-- Any number of edits leave an instruction as it is, or give it one target, for which it was
reserved. -/
theorem keeps_of_edit (edits : List Edit) {k : Nat} {i : Instruction} (hi : b.code[k]? = some i) :
    (b.edit edits).code[k]? = some i ∨
      i.operand = none ∧ k ∈ reserved ∧
        ∃ target, (b.edit edits).code[k]? = some { i with operand := some target } := by
  induction edits generalizing b reserved patched i with
  | nil => exact .inl hi
  | cons e edits ih =>
    have he := e.effect h.lt_of_mem_pending
    have hsound := h.effect he
    rcases h.keeps_of_effect he hi with hsame | ⟨hnone, hmem, target, htarget⟩
    · refine (ih hsound hsame).imp id ?_
      rintro ⟨hnone, hmem, htarget⟩
      refine ⟨hnone, ?_, htarget⟩
      -- An edit reserves behind all that was there, so not at `k`.
      rcases List.mem_append.mp hmem with hmem | hnew
      · exact hmem
      · rw [eq_size_of_effect he hnew] at hi
        simp at hi
    · refine .inr ⟨hnone, hmem, ?_⟩
      -- With its target the instruction is open no more.
      rcases ih hsound htarget with hsame | ⟨hnone', -⟩
      · exact ⟨target, hsame⟩
      · cases hnone'

/-- A buffer can be finished exactly if all that was reserved is patched. -/
theorem finish_isOk_iff : (∃ code, b.finish = .ok code) ↔ ∀ a ∈ reserved, a ∈ patched := by
  have hnil : b.pending = [] ↔ ∀ a ∈ reserved, a ∈ patched := by
    rw [h.pending, List.filter_eq_nil_iff]
    simp
  rw [← hnil, finish]
  cases b.pending with
  | nil => simp
  | cons address rest => simp

/-- A buffer that cannot be finished names the pending jump with the smallest address. -/
theorem finish_error {e : GenerationError} (he : b.finish = .error e) :
    ∃ a ∈ b.pending, e = .pendingJump a ∧ ∀ a' ∈ b.pending, a ≤ a' := by
  have hpairwise := h.pairwise_pending
  unfold finish at he
  cases hpending : b.pending with
  | nil =>
    rw [hpending] at he
    cases he
  | cons address rest =>
    rw [hpending] at he hpairwise
    cases he
    refine ⟨address, List.mem_cons_self, rfl, fun a' ha' => ?_⟩
    rcases List.mem_cons.mp ha' with rfl | ha'
    · exact Nat.le_refl _
    · exact Nat.le_of_lt (List.rel_of_pairwise_cons hpairwise ha')

end Sound

/-- What holds of a buffer after any edits from the start, the refused ones among them and with
whatever labels:

- every instruction stands at its address;
- the pending jumps are in the order of their addresses, they are those that were reserved and not
  patched, and each stands in the code as a jump without an operand;
- an instruction that was there at some point is as it was then, or else it had no operand, was
  reserved, and has got a target and nothing else; and where it differs between two points it does not
  differ after the second, so that this happens once at most;
- the buffer can be finished exactly if all that was reserved is patched, it then gives its code, and
  otherwise it names the pending jump with the smallest address. -/
theorem edits_keep_buffer_sound (edits : List Edit) :
    (∀ (k : Nat) (i : Instruction), (edit {} edits).code[k]? = some i → i.address = k) ∧
    (edit {} edits).pending.Pairwise (· < ·) ∧
    (∀ a, a ∈ (edit {} edits).pending ↔ a ∈ reservedBy {} edits ∧ a ∉ patchedBy {} edits) ∧
    (∀ a ∈ (edit {} edits).pending, ∃ i, (edit {} edits).code[a]? = some i ∧
      i.opcode.isJump = true ∧ i.operand = none) ∧
    (∀ before after (k : Nat) (i : Instruction), edits = before ++ after →
      (edit {} before).code[k]? = some i →
      (edit {} edits).code[k]? = some i ∨
        i.operand = none ∧ k ∈ reservedBy {} before ∧
          ∃ target, (edit {} edits).code[k]? = some { i with operand := some target }) ∧
    (∀ before between after (k : Nat) (i j : Instruction), edits = before ++ (between ++ after) →
      (edit {} before).code[k]? = some i → (edit {} (before ++ between)).code[k]? = some j →
      i ≠ j → (edit {} edits).code[k]? = some j) ∧
    ((∃ code, (edit {} edits).finish = .ok code) ↔
      ∀ a ∈ reservedBy {} edits, a ∈ patchedBy {} edits) ∧
    (∀ code, (edit {} edits).finish = .ok code → code = (edit {} edits).code) ∧
    (∀ e, (edit {} edits).finish = .error e → ∃ a ∈ (edit {} edits).pending,
      e = .pendingJump a ∧ ∀ a' ∈ (edit {} edits).pending, a ≤ a') := by
  have hrun (edits : List Edit) : (edit {} edits).Sound (reservedBy {} edits) (patchedBy {} edits) :=
    sound_empty.edit edits
  have happend (before after : List Edit) : edit {} (before ++ after) = (edit {} before).edit after :=
    List.foldl_append
  have h := hrun edits
  refine ⟨h.address, h.pairwise_pending, fun a => h.mem_pending_iff, fun a ha => ?_, ?_, ?_,
    h.finish_isOk_iff, fun code hcode => ?_, fun e => h.finish_error⟩
  · obtain ⟨branch, hjump⟩ := h.jumps a ha
    exact ⟨_, hjump, branch.isJump_opcode, rfl⟩
  · rintro before after k i rfl hi
    rw [happend]
    exact (hrun before).keeps_of_edit after hi
  · rintro before between after k i j rfl hi hj hne
    rw [← List.append_assoc, happend (before ++ between)]
    rcases (hrun (before ++ between)).keeps_of_edit after hj with hsame | ⟨hnone, -⟩
    · exact hsame
    · -- At the second point there is a target already, since the instruction differs.
      rw [happend] at hj
      rcases (hrun before).keeps_of_edit between hi with hsame | ⟨-, -, target, htarget⟩
      · rw [hsame] at hj
        cases hj
        exact absurd rfl hne
      · rw [htarget] at hj
        cases hj
        cases hnone
  · unfold finish at hcode
    split at hcode
    · cases hcode
      rfl
    · cases hcode

-- The younger of two jumps is patched twice, a jump that was never reserved is patched too, and the
-- older jump is the one that is missed.
example :
    (edit {} [.reserve .ifFalse, .reserve .always, .patchTo ⟨1⟩ 7, .patch ⟨1⟩, .patch ⟨5⟩]).finish =
      .error (.pendingJump 0) := by
  decide

end CodeBuffer

end Backpatch
