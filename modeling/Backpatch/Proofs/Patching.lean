import Backpatch.Proofs.Edits

/-!
# Patches

A patch takes a jump off the pending ones before it looks for it in the code. That it does its whole
job or nothing rests on what edits keep (`CodeBuffer.Sound`): what is pending stands in the code, and
is pending once. `CodeBuffer.given` is the buffer that a patch then leaves, as a plain function. Patches
of different jumps change different places (`CodeBuffer.given_comm`), so that any number of them may be
made in any order.
-/

namespace Backpatch

namespace CodeBuffer

/-- The buffer in which a jump has got a target and is pending no more. -/
def given (b : CodeBuffer) (patch : Label × Nat) : CodeBuffer where
  code := b.code.modify patch.1.address fun i => { i with operand := some patch.2 }
  pending := withdraw patch.1.address b.pending

/-- Patches one after the other, with their reports. -/
def patchAll : List (Label × Nat) → Step CodeBuffer (List Event)
  | [] => pure []
  | (label, target) :: patches => do
    let event ← patchTo label target
    let events ← patchAll patches
    return event :: events

variable {b b' : CodeBuffer} {reserved patched : List Nat}

/-! ## One patch -/

/-- To change an instruction that is there is to set another in its place. -/
theorem modify_of_getElem? {code : Array Instruction} {a : Nat} {i : Instruction}
    (hi : code[a]? = some i) (f : Instruction → Instruction) :
    code.modify a f = code.setIfInBounds a (f i) := by
  have hlt : a < code.size := (Array.getElem?_eq_some_iff.mp hi).1
  apply Array.ext_getElem?
  intro k
  rw [Array.getElem?_modify, Array.getElem?_setIfInBounds]
  by_cases hk : a = k
  · subst hk
    rw [if_pos rfl, if_pos rfl, if_pos hlt, hi, Option.map_some]
  · rw [if_neg hk, if_neg hk]

/-- A pending jump of a sound buffer is given its target. -/
theorem Sound.patchTo_eq_ok (h : b.Sound reserved patched) {label : Label}
    (hmem : label.address ∈ b.pending) (target : Nat) :
    ∃ event, patchTo label target b = .ok event (b.given (label, target)) := by
  have hi := Array.getElem?_eq_getElem (h.lt_of_mem_pending _ hmem)
  have hok := patchTo_of_mem hmem hi target
  unfold CodeBuffer.given
  rw [modify_of_getElem? hi]
  exact ⟨_, hok⟩

/-- A buffer stays sound when a pending jump is given its target. -/
theorem Sound.given (h : b.Sound reserved patched) (patch : Label × Nat)
    (hmem : patch.1.address ∈ b.pending) :
    (b.given patch).Sound reserved (patched ++ [patch.1.address]) := by
  have hi := Array.getElem?_eq_getElem (h.lt_of_mem_pending _ hmem)
  unfold CodeBuffer.given
  rw [modify_of_getElem? hi]
  exact h.patch patch.2 hmem hi

/-- The pending jumps of a sound buffer without the one that is given its target. -/
theorem Sound.pending_given (h : b.Sound reserved patched) (patch : Label × Nat) :
    (b.given patch).pending = b.pending.filter (· != patch.1.address) :=
  withdraw_of_nodup (h.pairwise_pending.imp Nat.ne_of_lt) _

/-- A buffer before and after a patch: the jump at `address` has got its target and is pending no more,
and nothing else has changed. -/
structure Patched (b b' : CodeBuffer) (address target : Nat) : Prop where
  /-- The code is as long as it was. -/
  size : b'.code.size = b.code.size
  /-- Of the jump, only the operand is another. -/
  jump : ∃ i, b.code[address]? = some i ∧ b'.code[address]? = some { i with operand := some target }
  /-- The other instructions are as they were. -/
  others : ∀ k, k ≠ address → b'.code[k]? = b.code[k]?
  /-- The other pending jumps are as they were, in their order. -/
  pending : b'.pending = b.pending.filter (· != address)

/-- What a patch leaves of a sound buffer. -/
theorem Sound.patched_given (h : b.Sound reserved patched) {patch : Label × Nat}
    (hmem : patch.1.address ∈ b.pending) :
    Patched b (b.given patch) patch.1.address patch.2 where
  size := Array.size_modify
  jump := by
    have hi := Array.getElem?_eq_getElem (h.lt_of_mem_pending _ hmem)
    refine ⟨_, hi, ?_⟩
    unfold CodeBuffer.given
    rw [Array.getElem?_modify, if_pos rfl, hi, Option.map_some]
  others k hk := by
    unfold CodeBuffer.given
    rw [Array.getElem?_modify, if_neg (Ne.symm hk)]
  pending := h.pending_given patch

/-- A step that gives the jump at `address` a target, all of it or nothing. -/
structure AllOrNothing (step : Step CodeBuffer Event) (b : CodeBuffer) (address target : Nat) :
    Prop where
  /-- It succeeds exactly if the jump is pending. -/
  succeeds : (∃ event b', step b = .ok event b') ↔ address ∈ b.pending
  /-- If it succeeds, the jump has its target. -/
  done : ∀ event b', step b = .ok event b' → Patched b b' address target
  /-- If it fails, it names the address, and the buffer is as it was. -/
  refused : ∀ e b', step b = .error e b' → e = .notPending address ∧ b' = b

/-- A sound buffer is patched all or nothing. -/
theorem Sound.allOrNothing (h : b.Sound reserved patched) (label : Label) (target : Nat) :
    AllOrNothing (patchTo label target) b label.address target := by
  by_cases hmem : label.address ∈ b.pending
  · obtain ⟨event, hok⟩ := h.patchTo_eq_ok hmem target
    constructor
    · exact ⟨fun _ => hmem, fun _ => ⟨event, _, hok⟩⟩
    · intro event' b' hok'
      cases hok.symm.trans hok'
      exact h.patched_given hmem
    · intro e b' herror
      cases hok.symm.trans herror
  · have hrefused := patchTo_of_not_mem hmem target
    constructor
    · refine ⟨?_, fun hmem' => absurd hmem' hmem⟩
      rintro ⟨event, b', hok⟩
      cases hrefused.symm.trans hok
    · intro event b' hok
      cases hrefused.symm.trans hok
    · intro e b' herror
      cases hrefused.symm.trans herror
      exact ⟨rfl, rfl⟩

/-- A patch does its whole job or nothing. After any edits from the start, and for any label, wherever it
comes from, and any target:

- giving the label the target succeeds exactly if its address is pending; if so, that instruction has the
  target for operand and its address is pending no more, and that is all that has changed; if not, the
  error names the address, and the buffer is as it was;
- an address that is pending is in the code, so that no jump is taken off the pending ones without being
  given its target;
- giving the label the next address does the same with the length of the code for a target, and once there
  is no next address it says so and changes nothing. -/
theorem patch_does_all_or_nothing (edits : List Edit) (label : Label) (target : Nat) :
    AllOrNothing (patchTo label target) (edit {} edits) label.address target ∧
    (label.address ∈ (edit {} edits).pending → (edit {} edits).code[label.address]? ≠ none) ∧
    ((edit {} edits).code.size < addressLimit →
      AllOrNothing (patch label) (edit {} edits) label.address (edit {} edits).code.size) ∧
    (addressLimit ≤ (edit {} edits).code.size →
      patch label (edit {} edits) =
        .error (.codeFull (edit {} edits).code.size) (edit {} edits)) := by
  have h := sound_empty.edit edits
  refine ⟨h.allOrNothing label target, fun hmem hnone => ?_, fun hlt => ?_, fun hle => ?_⟩
  · have hlt := h.lt_of_mem_pending _ hmem
    rw [Array.getElem?_eq_none_iff] at hnone
    omega
  · have hsame := h.allOrNothing label (edit {} edits).code.size
    have hpatch := patch_of_lt hlt label
    exact ⟨hpatch ▸ hsame.succeeds, hpatch ▸ hsame.done, hpatch ▸ hsame.refused⟩
  · exact patch_of_not_lt (Nat.not_lt.mpr hle) label

/-- Reserved jumps take the addresses one by one, and all of them are pending. -/
theorem edit_replicate_reserve (branch : Branch) {n : Nat} (h : n ≤ addressLimit) :
    (edit {} (List.replicate n (.reserve branch))).code.size = n ∧
      (edit {} (List.replicate n (.reserve branch))).pending = List.range n := by
  induction n with
  | zero => exact ⟨rfl, rfl⟩
  | succ n ih =>
    obtain ⟨hsize, hpending⟩ := ih (Nat.le_of_succ_le h)
    have hstep : edit {} (List.replicate (n + 1) (.reserve branch)) =
        (reserve branch).after (edit {} (List.replicate n (.reserve branch))) := by
      rw [List.replicate_succ', edit, List.foldl_append]
      rfl
    have hlt : (edit {} (List.replicate n (.reserve branch))).code.size < addressLimit :=
      hsize.symm ▸ h
    rw [hstep, Step.after_of_ok (reserve_of_lt hlt branch)]
    exact ⟨(Array.size_push _).trans (congrArg (· + 1) hsize), by
      rw [hpending, hsize, List.range_succ]⟩

/-- The jumps that have been reserved fill all addresses. The first of them is pending still, and can be
given a target, but not the next address, as there is none. -/
theorem patch_does_all_or_nothing_full :
    ∃ b, b = edit {} (List.replicate addressLimit (.reserve .always)) ∧ 0 ∈ b.pending ∧
      patch ⟨0⟩ b = .error (.codeFull addressLimit) b ∧ ∃ event b', patchTo ⟨0⟩ 7 b = .ok event b' := by
  obtain ⟨hsize, hpending⟩ := edit_replicate_reserve .always (Nat.le_refl addressLimit)
  obtain ⟨hto, -, -, hfull⟩ :=
    patch_does_all_or_nothing (List.replicate addressLimit (.reserve .always)) ⟨0⟩ 7
  refine ⟨_, rfl, ?_⟩
  generalize edit {} (List.replicate addressLimit (.reserve .always)) = b at *
  have hmem : 0 ∈ b.pending := by
    rw [hpending, List.mem_range]
    decide
  exact ⟨hmem, hsize ▸ hfull (Nat.le_of_eq hsize.symm), hto.succeeds.mpr hmem⟩

/-! ## Patches in any order -/

/-- What is withdrawn first does not matter. -/
theorem withdraw_comm (a a' : Nat) (addresses : List Nat) :
    withdraw a (withdraw a' addresses) = withdraw a' (withdraw a addresses) := by
  unfold withdraw
  rw [List.reverse_reverse, List.reverse_reverse, List.erase_comm]

/-- Two jumps may be given their targets in either order. -/
theorem given_comm {patch patch' : Label × Nat} (hne : patch.1 ≠ patch'.1) (b : CodeBuffer) :
    (b.given patch).given patch' = (b.given patch').given patch := by
  have haddress : patch.1.address ≠ patch'.1.address := fun h => hne (congrArg Label.mk h)
  unfold given
  congr 1
  · -- At each place at most one of the two changes anything.
    apply Array.ext_getElem?
    intro k
    rw [Array.getElem?_modify, Array.getElem?_modify, Array.getElem?_modify, Array.getElem?_modify]
    by_cases hk : patch.1.address = k
    · have hk' : patch'.1.address ≠ k := fun hk' => haddress (hk.trans hk'.symm)
      rw [if_neg hk', if_neg hk']
    · rw [if_neg hk, if_neg hk]
  · exact withdraw_comm _ _ _

/-- Different pending jumps of a sound buffer are all given their targets. -/
theorem Sound.patchAll_eq_ok : ∀ {patches : List (Label × Nat)} {b : CodeBuffer} {patched : List Nat},
    b.Sound reserved patched → (patches.map Prod.fst).Nodup →
    (∀ patch ∈ patches, patch.1.address ∈ b.pending) →
    ∃ events, patchAll patches b = .ok events (patches.foldl CodeBuffer.given b)
  | [], b, _, _, _, _ => ⟨[], rfl⟩
  | (label, target) :: patches, b, patched, h, hnodup, hopen => by
    rw [List.map_cons, List.nodup_cons] at hnodup
    have hmem : label.address ∈ b.pending := hopen _ List.mem_cons_self
    -- The labels behind the first are others, and so are pending still.
    have hopen' : ∀ patch ∈ patches, patch.1.address ∈ (b.given (label, target)).pending := by
      intro patch hpatch
      rw [h.pending_given, List.mem_filter, bne_iff_ne]
      refine ⟨hopen patch (List.mem_cons_of_mem _ hpatch), fun haddress => hnodup.1 ?_⟩
      exact List.mem_map.mpr ⟨patch, hpatch, congrArg Label.mk haddress⟩
    obtain ⟨event, hok⟩ := h.patchTo_eq_ok hmem target
    obtain ⟨events, hrest⟩ := (h.given (label, target) hmem).patchAll_eq_ok hnodup.2 hopen'
    refine ⟨event :: events, ?_⟩
    rw [patchAll, Step.bind_apply, hok]
    dsimp only
    rw [Step.bind_apply, hrest]
    rfl

/-- The pending jumps, if they differ, without those that are given their targets. -/
theorem pending_foldl_given : ∀ {patches : List (Label × Nat)} {b : CodeBuffer}, b.pending.Nodup →
    (patches.foldl given b).pending = b.pending.filter (· ∉ patches.map (·.1.address))
  | [], b, _ => by simp
  | patch :: patches, b, h => by
    have hpending : (b.given patch).pending = b.pending.filter (· != patch.1.address) :=
      withdraw_of_nodup h _
    rw [List.foldl_cons, pending_foldl_given (hpending ▸ h.filter _), hpending, List.filter_filter]
    refine List.filter_congr fun a _ => ?_
    rw [Bool.eq_iff_iff]
    simp [and_comm]

/-- The order of patches does not matter. After any edits from the start, patches of different labels
whose addresses are all pending succeed one after the other, and so they do in any other order, with the
same buffer at the end. Its pending jumps are those before without the addresses of the patches, in the
order in which they were. -/
theorem patches_in_any_order (edits : List Edit) (patches patches' : List (Label × Nat))
    (hopen : ∀ patch ∈ patches, patch.1.address ∈ (edit {} edits).pending)
    (hdistinct : (patches.map Prod.fst).Nodup) (hperm : patches.Perm patches') :
    ∃ b events events',
      patchAll patches (edit {} edits) = .ok events b ∧
      patchAll patches' (edit {} edits) = .ok events' b ∧
      b.pending = (edit {} edits).pending.filter (· ∉ patches.map (·.1.address)) := by
  have h := sound_empty.edit edits
  have hdistinct' : (patches'.map Prod.fst).Nodup := (hperm.map Prod.fst).nodup_iff.mp hdistinct
  have hopen' : ∀ patch ∈ patches', patch.1.address ∈ (edit {} edits).pending :=
    fun patch hpatch => hopen patch (hperm.mem_iff.mpr hpatch)
  have hsame : patches.foldl given (edit {} edits) = patches'.foldl given (edit {} edits) := by
    refine hperm.foldl_eq' (fun patch hpatch patch' hpatch' b => ?_) _
    -- The labels differ, so two patches of one label are the same patch.
    by_cases heq : patch = patch'
    · rw [heq]
    · exact given_comm (fun hlabel => heq (List.inj_on_of_nodup_map hdistinct hpatch hpatch' hlabel)) b
  obtain ⟨events, hok⟩ := h.patchAll_eq_ok hdistinct hopen
  obtain ⟨events', hok'⟩ := h.patchAll_eq_ok hdistinct' hopen'
  exact ⟨_, events, events', hok, hsame ▸ hok',
    pending_foldl_given (h.pairwise_pending.imp Nat.ne_of_lt)⟩

/-- The oldest and the youngest of three pending jumps, in either order: the one between them stays, and
it is the one that the buffer then misses. -/
theorem patches_in_any_order_around :
    ∃ edits, edits = [.reserve .ifFalse, .reserve .always, .loop 0, .reserve .always] ∧
      ∃ b events events', patchAll [(⟨0⟩, 9), (⟨3⟩, 1)] (edit {} edits) = .ok events b ∧
        patchAll [(⟨3⟩, 1), (⟨0⟩, 9)] (edit {} edits) = .ok events' b ∧
        b.pending = [1] ∧ b.finish = .error (.pendingJump 1) := by
  refine ⟨_, rfl, ?_⟩
  generalize hedits : (List.cons _ _ : List Edit) = edits
  obtain ⟨b, events, events', hok, hok', hpending⟩ :=
    patches_in_any_order edits [(⟨0⟩, 9), (⟨3⟩, 1)] [(⟨3⟩, 1), (⟨0⟩, 9)] (by subst hedits; decide)
      (by decide) (.swap _ _ _)
  subst hedits
  have hone : b.pending = [1] := hpending.trans (by decide)
  refine ⟨b, events, events', hok, hok', hone, ?_⟩
  rw [finish, hone]

end CodeBuffer

end Backpatch
