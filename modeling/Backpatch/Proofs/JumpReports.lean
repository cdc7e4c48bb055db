import Backpatch.Proofs.Appending

/-!
# Jumps are reported as they are in the code

A jump is reported when it gets its target, long before the code around it is complete. That the reports
are true of the code is an invariant of the generator (`Generator.Truthful`): the jumps reported so far
are those of the code that have a target and go forward, and what is pending has no target yet. Every
step keeps it, also where it fails, and so does the generation of a tree (`Tree.truthful_compile`).
-/

namespace Backpatch

namespace Event

/-- Whether the event is that a jump gets its target. -/
def isPatch : Event → Bool
  | patched _ _ _ => true
  | _ => false

/-- The address of the jump that gets its target. -/
def patchedAddress? : Event → Option Nat
  | patched address _ _ => some address
  | _ => none

/-- Whether the event is that a program is complete. -/
def isGenerated : Event → Bool
  | generated _ _ _ => true
  | _ => false

end Event

/-- The event that an instruction got its target, if it is a jump that was reserved: a conditional one,
or one that goes forward. -/
def Instruction.patched? (i : Instruction) : Option Event :=
  match i.opcode, i.operand with
  | .jumpIfFalse, some target => some (.patched i.address target .jumpIfFalse)
  | .jump, some target => if i.address < target then some (.patched i.address target .jump) else none
  | _, _ => none

/-- What is no jump is not reported. -/
theorem Instruction.patched?_of_not_isJump {i : Instruction} (h : i.opcode.isJump = false) :
    i.patched? = none := by
  obtain ⟨address, opcode, operand, display⟩ := i
  cases opcode with
  | jump => cases h
  | jumpIfFalse => cases h
  | _ => rfl

/-- The event is true of the instruction. -/
theorem Instruction.patched?_eq_some_iff {i : Instruction} {address target : Nat} {opcode : Opcode} :
    i.patched? = some (.patched address target opcode) ↔
      i.address = address ∧ i.opcode = opcode ∧ i.operand = some target ∧
        (opcode = .jumpIfFalse ∨ opcode = .jump ∧ address < target) := by
  unfold patched?
  split
  · grind
  · grind
  · grind

/-- The addresses of the events are those of the instructions that have them. -/
theorem Instruction.filterMap_patched? (code : List Instruction) :
    (code.filterMap patched?).filterMap Event.patchedAddress? =
      (code.filter (·.patched?.isSome)).map Instruction.address := by
  -- An instruction that was patched is reported under its own address.
  induction code with
  | nil => rfl
  | cons i code ih =>
    cases hi : i.patched? with
    | none => rw [List.filterMap_cons_none hi, ih, List.filter_cons_of_neg (by simp [hi])]
    | some e =>
      have haddress : e.patchedAddress? = some i.address := by
        unfold patched? at hi
        split at hi
        · cases hi
          rfl
        · split at hi <;> cases hi
          rfl
        · cases hi
      rw [List.filterMap_cons_some hi, List.filterMap_cons_some haddress, ih,
        List.filter_cons_of_pos (by simp [hi]), List.map_cons]

/-- One more member that counts makes the list of those that count longer by one. -/
theorem perm_filterMap_set {α β : Type} {f : α → Option β} {l : List α} {k : Nat} {x y : α} {b : β}
    (hx : l[k]? = some x) (hfx : f x = none) (hfy : f y = some b) :
    ((l.set k y).filterMap f).Perm (b :: l.filterMap f) := by
  obtain ⟨hk, hget⟩ := List.getElem?_eq_some_iff.mp hx
  have hl : l = l.take k ++ x :: l.drop (k + 1) := by
    rw [← hget, ← List.drop_eq_getElem_cons hk, List.take_append_drop]
  have hset : l.set k y = l.take k ++ y :: l.drop (k + 1) := List.set_eq_take_append_cons_drop ▸ if_pos hk
  rw [hset]
  nth_rewrite 3 [hl]
  rw [List.filterMap_append, List.filterMap_append, List.filterMap_cons_some hfy,
    List.filterMap_cons_none hfx]
  exact List.perm_middle

namespace CodeBuffer

/-- The events are those of the jumps that have got their targets, in some order. -/
structure Reported (b : CodeBuffer) (events : List Event) : Prop where
  /-- What is pending is a jump without a target. -/
  jumps : ∀ a ∈ b.pending, ∃ branch : Branch, b.code[a]? = some ⟨a, branch.opcode, none, none⟩
  /-- Nothing is pending twice. -/
  nodup : b.pending.Nodup
  /-- There is one event for each jump of the code that has got its target. -/
  events : events.Perm (b.code.toList.filterMap Instruction.patched?)

namespace Reported

variable {b : CodeBuffer} {events : List Event}

/-- What is pending stays a jump without a target when the code grows. -/
theorem jumps_push (h : b.Reported events) (i : Instruction) : ∀ a ∈ b.pending,
    ∃ branch : Branch, (b.code.push i)[a]? = some ⟨a, branch.opcode, none, none⟩ := by
  intro a ha
  obtain ⟨branch, hbranch⟩ := h.jumps a ha
  exact ⟨branch, getElem?_of_prefix (Array.toList_push ▸ List.prefix_append _ _) hbranch⟩

/-- An instruction that is no forward jump. -/
theorem push (h : b.Reported events) {i : Instruction} (hi : i.patched? = none) :
    Reported { b with code := b.code.push i } events where
  jumps := h.jumps_push i
  nodup := h.nodup
  events := by
    rw [Array.toList_push, List.filterMap_append, List.filterMap_cons_none hi]
    simpa using h.events

/-- A jump is reserved. -/
theorem reserve (h : b.Reported events) (branch : Branch) :
    Reported ⟨b.code.push ⟨b.code.size, branch.opcode, none, none⟩, b.pending ++ [b.code.size]⟩
      events where
  jumps := by
    rw [List.forall_mem_append, List.forall_mem_singleton]
    exact ⟨h.jumps_push _, branch, Array.getElem?_push_size⟩
  nodup := by
    show (b.pending ++ [b.code.size]).Nodup
    rw [← List.concat_eq_append]
    refine h.nodup.concat fun hmem => ?_
    obtain ⟨_, hbranch⟩ := h.jumps _ hmem
    rw [Array.getElem?_eq_none (Nat.le_refl _)] at hbranch
    cases hbranch
  events := (h.push (by cases branch <;> rfl)).events

/-- A pending jump gets the next address for its target. -/
theorem patch (h : b.Reported events) {a : Nat} {branch : Branch}
    (hi : b.code[a]? = some ⟨a, branch.opcode, none, none⟩) :
    Reported ⟨b.code.setIfInBounds a ⟨a, branch.opcode, some b.code.size, none⟩,
      withdraw a b.pending⟩ (events ++ [.patched a b.code.size branch.opcode]) where
  jumps := by
    intro a' ha'
    rw [withdraw_of_nodup h.nodup, List.mem_filter, bne_iff_ne] at ha'
    obtain ⟨branch', hbranch'⟩ := h.jumps a' ha'.1
    exact ⟨branch', by rw [Array.getElem?_setIfInBounds_ne ha'.2.symm, hbranch']⟩
  nodup := by
    rw [withdraw_of_nodup h.nodup]
    exact h.nodup.filter _
  events := by
    -- The target is behind the jump, so this is an event of the code from now on.
    have hlt : a < b.code.size := (Array.getElem?_eq_some_iff.mp hi).1
    have hnow : Instruction.patched? ⟨a, branch.opcode, some b.code.size, none⟩ =
        some (.patched a b.code.size branch.opcode) := by
      cases branch with
      | always => exact if_pos hlt
      | ifFalse => rfl
    have hbefore : Instruction.patched? ⟨a, branch.opcode, none, none⟩ = none := by
      cases branch <;> rfl
    rw [← Array.getElem?_toList] at hi
    rw [Array.toList_setIfInBounds]
    refine .trans ?_ (perm_filterMap_set hi hbefore hnow).symm
    exact (List.perm_append_comm).trans (h.events.cons _)

end Reported

end CodeBuffer

/-- The events of a generator are true of its code, and no program is complete. -/
structure Generator.Truthful (g : Generator) : Prop where
  /-- The jumps reported are those of the code. -/
  jumps : g.buffer.Reported (g.events.toList.filter Event.isPatch)
  /-- No program is reported. -/
  unfinished : ∀ e ∈ g.events.toList, e.isGenerated = false

namespace Generator.Truthful

variable {α β : Type} {g g' : Generator}

/-- A new generator has nothing to report. -/
theorem start : Truthful {} where
  jumps := ⟨by simp, .nil, .nil⟩
  unfinished := by simp

/-- Neither the code nor the events change. -/
theorem of_eq (h : g.Truthful) (hbuffer : g'.buffer = g.buffer) (hevents : g'.events = g.events) :
    g'.Truthful where
  jumps := by
    rw [hbuffer, hevents]
    exact h.jumps
  unfinished := by
    rw [hevents]
    exact h.unfinished

/-- Two steps keep the truth if the first one does, and the second does after a first that succeeds. -/
theorem bind {x : Generation α} {f : α → Generation β} (hx : (x.after g).Truthful)
    (hf : ∀ a g', x g = .ok a g' → g'.Truthful → ((f a).after g').Truthful) :
    ((x >>= f).after g).Truthful := by
  cases h : x g with
  | ok a g' =>
    rw [Step.after_of_ok h] at hx
    rw [Step.after_bind_of_ok h]
    exact hf a g' h hx
  | error e g' =>
    rw [Step.after_of_error h] at hx
    rw [Step.after_bind_of_error h]
    exact hx

/-- An event that is neither about a jump nor about a program. -/
theorem push (h : g.Truthful) {e : Event} (hpatch : e.isPatch = false)
    (hgenerated : e.isGenerated = false) (hbuffer : g'.buffer = g.buffer)
    (hevents : g'.events = g.events.push e) : g'.Truthful where
  jumps := by
    rw [hbuffer, hevents, Array.toList_push, List.filter_append, List.filter_singleton, hpatch]
    exact (List.append_nil _).symm ▸ h.jumps
  unfinished := by
    rw [hevents, Array.toList_push, List.forall_mem_append, List.forall_mem_singleton]
    exact ⟨h.unfinished, hgenerated⟩

/-- A jump is reported exactly if it is in the code. -/
theorem mem_patched_iff (h : g.Truthful) {address target : Nat} {opcode : Opcode} :
    .patched address target opcode ∈ g.events.toList ↔
      ∃ i ∈ g.buffer.code, i.address = address ∧ i.opcode = opcode ∧ i.operand = some target ∧
        (opcode = .jumpIfFalse ∨ opcode = .jump ∧ address < target) := by
  have hfilter : Event.patched address target opcode ∈ g.events.toList ↔
      .patched address target opcode ∈ g.events.toList.filter Event.isPatch := by
    rw [List.mem_filter]
    exact (and_iff_left rfl).symm
  rw [hfilter, h.jumps.events.mem_iff, List.mem_filterMap]
  simp only [Array.mem_toList_iff, Instruction.patched?_eq_some_iff]

/-- No jump is reported twice, if instructions have different addresses. -/
theorem nodup_patched (h : g.Truthful)
    (hcode : (g.buffer.code.toList.map Instruction.address).Nodup) :
    (g.events.toList.filterMap Event.patchedAddress?).Nodup := by
  have hfilter : g.events.toList.filterMap Event.patchedAddress? =
      (g.events.toList.filter Event.isPatch).filterMap Event.patchedAddress? := by
    rw [List.filterMap_filter]
    refine List.filterMap_congr fun e _ => ?_
    cases e <;> rfl
  rw [hfilter, (h.jumps.events.filterMap _).nodup_iff, Instruction.filterMap_patched?]
  exact (List.filter_sublist.map _).nodup hcode

end Generator.Truthful

namespace Generation

open Generator (Truthful)

variable {α β : Type} {g : Generator}

/-- A step that keeps the events true, whether it fails or not. -/
def KeepsTruth (x : Generation α) : Prop :=
  ∀ g : Generator, g.Truthful → (x.after g).Truthful

/-- Two steps that keep the events true are one that does. -/
theorem KeepsTruth.bind {x : Generation α} {f : α → Generation β} (hx : KeepsTruth x)
    (hf : ∀ a, KeepsTruth (f a)) : KeepsTruth (x >>= f) :=
  fun g h => .bind (hx g h) fun a g' _ => hf a g'

/-- An instruction that is no forward jump. -/
theorem truthful_emit (h : g.Truthful) {opcode : Opcode} {operand : Option Nat}
    {display : Option String}
    (hplain : Instruction.patched? ⟨g.buffer.code.size, opcode, operand, display⟩ = none) :
    ((emit opcode operand display).after g).Truthful := by
  refine Truthful.bind ?_ fun _ _ _ h => h
  rw [after_onBuffer]
  refine ⟨?_, h.unfinished⟩
  by_cases hlt : g.buffer.code.size < addressLimit
  · rw [Step.after_of_ok (CodeBuffer.emit_of_lt hlt opcode operand display)]
    exact h.jumps.push hplain
  · rw [Step.after_of_error (CodeBuffer.emit_of_not_lt hlt opcode operand display)]
    exact h.jumps

/-- The next address changes neither the code nor the events. -/
theorem keepsTruth_nextAddress : KeepsTruth nextAddress := by
  intro g h
  unfold nextAddress
  rw [after_onBuffer]
  refine h.of_eq ?_ rfl
  by_cases hlt : g.buffer.code.size < addressLimit
  · exact Step.after_of_ok (CodeBuffer.nextAddress_of_lt hlt)
  · exact Step.after_of_error (CodeBuffer.nextAddress_of_not_lt hlt)

/-- A jump without a target is not reported. -/
theorem keepsTruth_reserve (branch : Branch) : KeepsTruth (reserve branch) := by
  intro g h
  unfold reserve
  rw [after_onBuffer]
  refine ⟨?_, h.unfinished⟩
  by_cases hlt : g.buffer.code.size < addressLimit
  · rw [Step.after_of_ok (CodeBuffer.reserve_of_lt hlt branch)]
    exact h.jumps.reserve branch
  · rw [Step.after_of_error (CodeBuffer.reserve_of_not_lt hlt branch)]
    exact h.jumps

/-- A patch that is refused changes nothing. -/
theorem after_patch_of_error {label : Label} {e : GenerationError}
    (h : CodeBuffer.patch label g.buffer = .error e g.buffer) : (patch label).after g = g := by
  have herror := onBuffer_apply (CodeBuffer.patch label) g
  rw [h] at herror
  exact Step.after_bind_of_error herror

/-- A patch reports the jump that it gives a target. -/
theorem keepsTruth_patch (label : Label) : KeepsTruth (patch label) := by
  intro g h
  by_cases hlt : g.buffer.code.size < addressLimit
  · by_cases hmem : label.address ∈ g.buffer.pending
    · -- A pending jump is in the code, so the patch succeeds and reports it.
      obtain ⟨branch, hi⟩ := h.jumps.jumps _ hmem
      have hpatch := (CodeBuffer.patch_of_lt hlt label).trans (CodeBuffer.patchTo_of_mem hmem hi _)
      have hok := onBuffer_apply (CodeBuffer.patch label) g
      rw [hpatch] at hok
      rw [patch, Step.after_bind_of_ok hok]
      constructor
      · show CodeBuffer.Reported _ ((g.events.push _).toList.filter Event.isPatch)
        rw [Array.toList_push, List.filter_append]
        exact h.jumps.patch hi
      · show ∀ e ∈ (g.events.push _).toList, _
        rw [Array.toList_push, List.forall_mem_append, List.forall_mem_singleton]
        exact ⟨h.unfinished, rfl⟩
    · -- Whatever else is asked for is refused, and nothing is reported.
      have hpatch := (CodeBuffer.patch_of_lt hlt label).trans (CodeBuffer.patchTo_of_not_mem hmem _)
      rw [after_patch_of_error hpatch]
      exact h
  · rw [after_patch_of_error (CodeBuffer.patch_of_not_lt hlt label)]
    exact h

/-- Leaving a function is reported, and nothing about jumps is. -/
theorem truthful_leaveScope (h : g.Truthful) : (leaveScope g).Truthful := by
  unfold leaveScope
  split
  · exact h.push rfl rfl rfl rfl
  · exact h.of_eq rfl rfl

/-- The scope of a function reports nothing about jumps. -/
theorem KeepsTruth.inScope {body : Generation Unit} (hbody : KeepsTruth body) (name : String)
    (params : List String) : KeepsTruth (inScope name params body) := by
  intro g h
  refine .bind (.bind ?_ fun _ g₁ _ h₁ => h₁.push rfl rfl rfl rfl) fun _ g₁ _ h₁ => ?_
  · rw [Step.after_within]
    exact h.of_eq rfl rfl
  · exact (after_leaving body g₁).symm ▸ truthful_leaveScope (hbody g₁ h₁)

/-- The way back of a loop does not go forward: the code has only grown since the start. -/
theorem keepsTruth_loop {test body : Tree} (htest : KeepsTruth test.compile)
    (hbody : KeepsTruth body.compile) : KeepsTruth (Tree.loop test body).compile := by
  intro g h
  rw [Tree.compile]
  refine .bind (keepsTruth_nextAddress g h) fun start g₁ hstart h₁ => ?_
  obtain ⟨rfl, rfl⟩ := eq_of_nextAddress hstart
  refine .bind (htest g₁ h₁) fun _ g₂ htest' h₂ => ?_
  refine .bind (keepsTruth_reserve .ifFalse g₂ h₂) fun toEnd g₃ hreserve h₃ => ?_
  refine .bind (hbody g₃ h₃) fun _ g₄ hbody' h₄ => ?_
  -- The jump back has a target from the start, and it is no patch, since it goes backwards.
  have hle : g₁.buffer.code.size ≤ g₄.buffer.code.size := by
    have k := (Tree.continues_of_compile test htest').trans
      ((continues_of_reserve hreserve).2.trans (Tree.continues_of_compile body hbody'))
    rw [k.size]
    exact Nat.le_add_right _ _
  refine .bind (truthful_emit h₄ (if_neg (Nat.not_lt.mpr hle))) fun _ g₅ _ h₅ => ?_
  exact keepsTruth_patch toEnd g₅ h₅

/-- A conditional reports its two jumps when they get their targets. -/
theorem keepsTruth_conditional {test consequent alternate : Tree} (htest : KeepsTruth test.compile)
    (hconsequent : KeepsTruth consequent.compile) (halternate : KeepsTruth alternate.compile) :
    KeepsTruth (Tree.conditional test consequent alternate).compile := by
  rw [Tree.compile]
  exact htest.bind fun _ => (keepsTruth_reserve .ifFalse).bind fun toAlternate =>
    hconsequent.bind fun _ => (keepsTruth_reserve .always).bind fun toEnd =>
      (keepsTruth_patch toAlternate).bind fun _ => halternate.bind fun _ => keepsTruth_patch toEnd

/-- That the events stay true is lifted to every tree. -/
theorem lifts_keepsTruth : Lifts fun _ _ => KeepsTruth where
  mono h _ := h
  pure _ _ h := h
  get _ h := h
  bind := KeepsTruth.bind
  intern name g h := by
    rw [intern, Step.after_within]
    exact h.of_eq rfl rfl
  addConstant v g h := by
    rw [addConstant, Step.after_within]
    exact h.of_eq rfl rfl
  inScope name params h := h.inScope name params
  emit opcode hplain operand display g h := truthful_emit h (Instruction.patched?_of_not_isJump hplain)
  loop := keepsTruth_loop
  conditional := keepsTruth_conditional

end Generation

/-- Generation of a tree keeps the events true, whether it fails or not. -/
theorem Tree.truthful_compile (t : Tree) {g : Generator} (h : g.Truthful) :
    (t.compile.after g).Truthful :=
  compile_of_lifts Generation.lifts_keepsTruth t g h

end Backpatch
