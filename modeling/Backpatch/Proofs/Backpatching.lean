import Backpatch.Proofs.Layout

/-!
# Backpatching is direct layout

Code generation reserves a jump before it knows where the jump goes, and while the jump is pending,
the code inside it reserves and patches jumps of its own. `Generator.Continues` says what a stretch of
generation has added to a generator, the jumps that it leaves pending included, whatever was there
before. Stretches compose (`Continues.trans`), and patching fills in a jump of the stretch
(`Continues.patch`). `Tree.continues_of_compile` puts this together: what a tree adds is its direct
layout, and it leaves no jump pending.
-/

namespace Backpatch

namespace Generator

/-- `g'` is `g` after a stretch of generation: the stretch has appended `code` and left the jumps at
`pending` without a target, and the tables are now `T`. -/
structure Continues (g g' : Generator) (code : List Instruction) (pending : List Nat)
    (T : Tables) : Prop where
  /-- The code is the code before and then `code`. -/
  code : g'.buffer.code.toList = g.buffer.code.toList ++ code
  /-- The pending jumps are those before and then `pending`. -/
  pending : g'.buffer.pending = g.buffer.pending ++ pending
  /-- The tables are `T`. -/
  tables : g'.tables = T

namespace Continues

variable {g g₁ g₂ g' : Generator} {code code₁ code₂ : List Instruction}
  {pending pending₁ pending₂ : List Nat} {T T₁ T₂ : Tables}

/-- The code has grown by the length of what was appended. -/
theorem size (h : g.Continues g' code pending T) :
    g'.buffer.code.size = g.buffer.code.size + code.length := by
  rw [← Array.length_toList, ← Array.length_toList, h.code, List.length_append]

/-- A stretch after a stretch is a stretch. -/
theorem trans (h₁ : g.Continues g₁ code₁ pending₁ T₁) (h₂ : g₁.Continues g₂ code₂ pending₂ T₂) :
    g.Continues g₂ (code₁ ++ code₂) (pending₁ ++ pending₂) T₂ where
  code := by rw [h₂.code, h₁.code, List.append_assoc]
  pending := by rw [h₂.pending, h₁.pending, List.append_assoc]
  tables := h₂.tables

/-- A step that keeps the code adds nothing to it. -/
theorem of_buffer_eq (h : g'.buffer = g.buffer) : g.Continues g' [] [] g'.tables where
  code := by rw [h, List.append_nil]
  pending := by rw [h, List.append_nil]
  tables := rfl

end Continues

end Generator

namespace Generation

variable {g g' : Generator}

/-- A step on the code succeeds exactly if it does so on the code alone. -/
theorem onBuffer_eq_ok_iff {α : Type} {step : Step CodeBuffer α} {a : α} :
    onBuffer step g = .ok a g' ↔
      ∃ buffer, step g.buffer = .ok a buffer ∧ g' = { g with buffer := buffer } := by
  rw [onBuffer_apply]
  cases step g.buffer with
  | ok a' buffer =>
    constructor
    · intro h
      cases h
      exact ⟨buffer, rfl, rfl⟩
    · rintro ⟨_, h, rfl⟩
      cases h
      rfl
  | error e buffer =>
    constructor
    · intro h
      cases h
    · rintro ⟨_, h, -⟩
      cases h

/-- What appending an instruction adds. -/
theorem continues_of_emit {opcode : Opcode} {operand : Option Nat} {display : Option String}
    (h : emit opcode operand display g = .ok () g') :
    g.Continues g' [⟨g.buffer.code.size, opcode, operand, display⟩] [] g.tables := by
  -- The step has succeeded, so there was an address for the instruction.
  have hlt : g.buffer.code.size < addressLimit := by
    obtain ⟨_, _, hemit, _⟩ := Step.bind_eq_ok_iff.mp h
    obtain ⟨_, hbuffer, _⟩ := onBuffer_eq_ok_iff.mp hemit
    exact CodeBuffer.size_lt_of_emit hbuffer
  rw [emit_of_lt hlt] at h
  cases h
  exact ⟨Array.toList_push, (List.append_nil _).symm, rfl⟩

/-- The next address is the length of the code, and asking for it changes nothing. -/
theorem eq_of_nextAddress {a : Nat} (h : nextAddress g = .ok a g') :
    a = g.buffer.code.size ∧ g' = g := by
  have hlt : g.buffer.code.size < addressLimit := by
    obtain ⟨_, hbuffer, _⟩ := onBuffer_eq_ok_iff.mp h
    exact CodeBuffer.size_lt_of_nextAddress hbuffer
  rw [nextAddress_of_lt hlt] at h
  cases h
  exact ⟨rfl, rfl⟩

/-- What reserving a jump adds: the jump without a target, which is pending. -/
theorem continues_of_reserve {branch : Branch} {label : Label}
    (h : reserve branch g = .ok label g') :
    label = ⟨g.buffer.code.size⟩ ∧
      g.Continues g' [⟨g.buffer.code.size, branch.opcode, none, none⟩] [g.buffer.code.size]
        g.tables := by
  obtain ⟨buffer, hbuffer, rfl⟩ := onBuffer_eq_ok_iff.mp h
  rw [CodeBuffer.reserve_of_lt (CodeBuffer.size_lt_of_reserve hbuffer)] at hbuffer
  cases hbuffer
  exact ⟨rfl, Array.toList_push, rfl, rfl⟩

end Generation

/-- Patching fills in the oldest pending jump of a stretch, if no younger one has its address: the
jump now goes to the end of the code, and it is pending no more. -/
theorem Generator.Continues.patch {g g₁ g' : Generator} {before after : List Instruction}
    {jump : Instruction} {address : Nat} {younger : List Nat} {T : Tables}
    (h : g.Continues g₁ (before ++ jump :: after) (address :: younger) T)
    (haddress : address = g.buffer.code.size + before.length) (hyounger : address ∉ younger)
    (hpatch : Generation.patch ⟨address⟩ g₁ = .ok () g') :
    g.Continues g' (before ++ { jump with operand := some g₁.buffer.code.size } :: after) younger
      T := by
  obtain ⟨event, g₂, hstep, hreport⟩ := Step.bind_eq_ok_iff.mp hpatch
  obtain ⟨buffer, hbuffer, rfl⟩ := Generation.onBuffer_eq_ok_iff.mp hstep
  have hmem : address ∈ g₁.buffer.pending := by
    rw [h.pending]
    simp
  -- The jump stands where its address says: after the code before the stretch and `before`.
  have hlength : (g.buffer.code.toList ++ before).length = address := by
    rw [haddress, List.length_append, Array.length_toList]
  have hcode : g₁.buffer.code.toList = (g.buffer.code.toList ++ before) ++ jump :: after := by
    rw [h.code, List.append_assoc]
  have hjump : g₁.buffer.code[address]? = some jump := by
    rw [← Array.getElem?_toList, hcode, List.getElem?_append_right (Nat.le_of_eq hlength), hlength,
      Nat.sub_self, List.getElem?_cons_zero]
  rw [CodeBuffer.patch_of_lt (CodeBuffer.size_lt_of_patch hbuffer),
    CodeBuffer.patchTo_of_mem hmem hjump] at hbuffer
  cases hbuffer
  cases hreport
  constructor
  · show (g₁.buffer.code.setIfInBounds _ _).toList = _
    rw [Array.toList_setIfInBounds, hcode, List.set_append_right _ _ (Nat.le_of_eq hlength),
      hlength, Nat.sub_self, List.set_cons_zero, List.append_assoc]
  · -- An older pending jump of the same address stays, since the last occurrence is withdrawn.
    show CodeBuffer.withdraw _ g₁.buffer.pending = _
    rw [h.pending, CodeBuffer.withdraw_append_cons hyounger]
  · exact h.tables

namespace Generation

variable {g g' : Generator}

/-- Patching neither adds code nor changes the tables. -/
theorem size_tables_of_patch {label : Label} (h : patch label g = .ok () g') :
    g'.buffer.code.size = g.buffer.code.size ∧ g'.tables = g.tables := by
  obtain ⟨event, g₁, hstep, hreport⟩ := Step.bind_eq_ok_iff.mp h
  obtain ⟨buffer, hbuffer, rfl⟩ := onBuffer_eq_ok_iff.mp hstep
  rw [CodeBuffer.patch_of_lt (CodeBuffer.size_lt_of_patch hbuffer)] at hbuffer
  cases hreport
  refine ⟨?_, rfl⟩
  unfold CodeBuffer.patchTo at hbuffer
  split at hbuffer
  · dsimp only at hbuffer
    split at hbuffer
    · cases hbuffer
      exact Array.size_setIfInBounds
    · cases hbuffer
  · cases hbuffer

/-- Interning changes the globals only. -/
theorem eq_of_intern {name : String} {id : Nat} (h : intern name g = .ok id g') :
    id = g.names.place name ∧ g' = { g with names := g.names.insert name } := by
  unfold intern Step.within at h
  cases hi : SymbolTable.intern name g.names with
  | error e names =>
    rw [hi] at h
    cases h
  | ok i names =>
    obtain ⟨rfl, rfl⟩ := SymbolTable.eq_of_intern_eq_ok hi
    rw [hi] at h
    cases h
    exact ⟨rfl, rfl⟩

/-- Adding a literal changes the literals only. -/
theorem eq_of_addConstant {v : Value} {id : Nat} (h : addConstant v g = .ok id g') :
    id = g.literals.place v ∧ g' = { g with literals := g.literals.insert v } := by
  unfold addConstant Step.within at h
  cases hi : LiteralPool.add v g.literals with
  | error e literals =>
    rw [hi] at h
    cases h
  | ok i literals =>
    obtain ⟨rfl, rfl⟩ := LiteralPool.eq_of_add_eq_ok hi
    rw [hi] at h
    cases h
    exact ⟨rfl, rfl⟩

/-- What the read of a name adds. -/
theorem continues_of_load {name : String} (h : load name g = .ok () g') :
    g.Continues g' [g.tables.readCode g.buffer.code.size name] [] (g.tables.withRead name) := by
  obtain ⟨place, g₁, hplace, h⟩ := Step.bind_eq_ok_iff.mp h
  unfold Tables.readCode Tables.withRead
  cases hslot : g.scope.slot? name with
  | some slot =>
    rw [resolve_of_slot? hslot] at hplace
    cases hplace
    rw [show g.tables.scope.slot? name = some slot from hslot]
    exact continues_of_emit h
  | none =>
    simp only [resolve, Step.bind_apply, Step.get_apply, hslot] at hplace
    cases hi : intern name g with
    | error e g₂ =>
      rw [hi] at hplace
      cases hplace
    | ok id g₂ =>
      obtain ⟨rfl, rfl⟩ := eq_of_intern hi
      rw [hi] at hplace
      cases hplace
      rw [show g.tables.scope.slot? name = none from hslot]
      have hglobal : g.Continues { g with names := g.names.insert name } [] [] _ := .of_buffer_eq rfl
      exact hglobal.trans (continues_of_emit h)

/-- What the store to a name adds. -/
theorem continues_of_store {name : String} (h : store name g = .ok () g') :
    g.Continues g' [g.tables.storeCode g.buffer.code.size name] [] (g.tables.withGlobal name) := by
  obtain ⟨id, g₁, hid, h⟩ := Step.bind_eq_ok_iff.mp h
  obtain ⟨rfl, rfl⟩ := eq_of_intern hid
  have hglobal : g.Continues { g with names := g.names.insert name } [] [] _ := .of_buffer_eq rfl
  exact hglobal.trans (continues_of_emit h)

/-- What the load of a literal adds. -/
theorem continues_of_literal {v : Value} {text : String} {id : Nat} {g₁ : Generator}
    (hid : addConstant v g = .ok id g₁) (h : emit .loadConst (some id) (some text) g₁ = .ok () g') :
    g.Continues g' [⟨g.buffer.code.size, .loadConst, some (g.literals.place v), some text⟩] []
      (g.tables.withLiteral v) := by
  obtain ⟨rfl, rfl⟩ := eq_of_addConstant hid
  have hliteral : g.Continues { g with literals := g.literals.insert v } [] [] _ := .of_buffer_eq rfl
  exact hliteral.trans (continues_of_emit h)

/-- Entering a function adds nothing and opens its scope, outside all functions only. -/
theorem continues_of_enterScope {function : String} {params : List String}
    (h : enterScope function params g = .ok () g') :
    g.scope.function = none ∧ g.Continues g' [] [] (g.tables.within function params) := by
  obtain ⟨_, g₁, henter, hreport⟩ := Step.bind_eq_ok_iff.mp h
  have hnone : g.scope.function = none := by
    cases hf : g.scope.function with
    | none => rfl
    | some outer =>
      simp only [Step.within, FunctionScope.enter_of_some hf] at henter
      cases henter
  simp only [Step.within, FunctionScope.enter, hnone] at henter
  split at henter
  · next hscope =>
    split at hscope
    · cases hscope
      cases henter
      cases hreport
      exact ⟨hnone, Generator.Continues.of_buffer_eq rfl⟩
    · cases hscope
  · cases henter

/-- Leaving a function adds nothing and ends outside all functions. -/
theorem continues_leaveScope (g : Generator) :
    g.Continues (leaveScope g) [] [] g.tables.outside := by
  unfold leaveScope
  split <;> exact Generator.Continues.of_buffer_eq rfl

/-- A step in the scope of a function is entered, taken, and left. -/
theorem exists_of_inScope {function : String} {params : List String} {body : Generation Unit}
    (h : inScope function params body g = .ok () g') :
    ∃ g₁ g₂, enterScope function params g = .ok () g₁ ∧ body g₁ = .ok () g₂ ∧
      g' = leaveScope g₂ := by
  obtain ⟨_, g₁, henter, h⟩ := Step.bind_eq_ok_iff.mp h
  cases hbody : body g₁ with
  | ok _ g₂ =>
    rw [leaving_of_ok hbody] at h
    cases h
    exact ⟨g₁, g₂, henter, hbody, rfl⟩
  | error e g₂ =>
    rw [leaving_of_error hbody] at h
    cases h

end Generation

namespace Tree

open Generation

variable {g g' : Generator}

/-- The steps of generating a function. -/
theorem steps_of_function {name : String} {params : List String} {body : Tree}
    (h : (function name params body).compile g = .ok () g') :
    ∃ g₁ g₂ g₃ g₄, emit .makeFunction none none g = .ok () g₁ ∧
      enterScope name params g₁ = .ok () g₂ ∧ body.compile g₂ = .ok () g₃ ∧
      Generation.store name g₃ = .ok () g₄ ∧ g' = leaveScope g₄ := by
  rw [compile] at h
  obtain ⟨_, g₁, hmake, hscope⟩ := Step.bind_eq_ok_iff.mp h
  obtain ⟨g₂, g₄, henter, hbody, hleave⟩ := exists_of_inScope hscope
  obtain ⟨_, g₃, hbody, hstore⟩ := Step.bind_eq_ok_iff.mp hbody
  exact ⟨g₁, g₂, g₃, g₄, hmake, henter, hbody, hstore, hleave⟩

/-- The steps of generating a loop. -/
theorem steps_of_loop {test body : Tree} (h : (loop test body).compile g = .ok () g') :
    ∃ start g₁ g₂ toEnd g₃ g₄ g₅, nextAddress g = .ok start g₁ ∧ test.compile g₁ = .ok () g₂ ∧
      reserve .ifFalse g₂ = .ok toEnd g₃ ∧ body.compile g₃ = .ok () g₄ ∧
      emit .jump (some start) none g₄ = .ok () g₅ ∧ patch toEnd g₅ = .ok () g' := by
  rw [compile] at h
  obtain ⟨start, g₁, hstart, h⟩ := Step.bind_eq_ok_iff.mp h
  obtain ⟨_, g₂, htest, h⟩ := Step.bind_eq_ok_iff.mp h
  obtain ⟨toEnd, g₃, hreserve, h⟩ := Step.bind_eq_ok_iff.mp h
  obtain ⟨_, g₄, hbody, h⟩ := Step.bind_eq_ok_iff.mp h
  obtain ⟨_, g₅, hback, hpatch⟩ := Step.bind_eq_ok_iff.mp h
  exact ⟨start, g₁, g₂, toEnd, g₃, g₄, g₅, hstart, htest, hreserve, hbody, hback, hpatch⟩

/-- The steps of generating a call. -/
theorem steps_of_call {callee : String} {arguments : List Tree}
    (h : (call callee arguments).compile g = .ok () g') :
    ∃ g₁ g₂, load callee g = .ok () g₁ ∧ compileAll arguments g₁ = .ok () g₂ ∧
      emit .call none none g₂ = .ok () g' := by
  rw [compile] at h
  obtain ⟨_, g₁, hload, h⟩ := Step.bind_eq_ok_iff.mp h
  obtain ⟨_, g₂, harguments, hcall⟩ := Step.bind_eq_ok_iff.mp h
  exact ⟨g₁, g₂, hload, harguments, hcall⟩

/-- The steps of generating a conditional. -/
theorem steps_of_conditional {test consequent alternate : Tree}
    (h : (conditional test consequent alternate).compile g = .ok () g') :
    ∃ g₁ toAlternate g₂ g₃ toEnd g₄ g₅ g₆, test.compile g = .ok () g₁ ∧
      reserve .ifFalse g₁ = .ok toAlternate g₂ ∧ consequent.compile g₂ = .ok () g₃ ∧
      reserve .always g₃ = .ok toEnd g₄ ∧ patch toAlternate g₄ = .ok () g₅ ∧
      alternate.compile g₅ = .ok () g₆ ∧ patch toEnd g₆ = .ok () g' := by
  rw [compile] at h
  obtain ⟨_, g₁, htest, h⟩ := Step.bind_eq_ok_iff.mp h
  obtain ⟨toAlternate, g₂, hreserve, h⟩ := Step.bind_eq_ok_iff.mp h
  obtain ⟨_, g₃, hconsequent, h⟩ := Step.bind_eq_ok_iff.mp h
  obtain ⟨toEnd, g₄, hreserve', h⟩ := Step.bind_eq_ok_iff.mp h
  obtain ⟨_, g₅, hpatch, h⟩ := Step.bind_eq_ok_iff.mp h
  obtain ⟨_, g₆, halternate, hpatch'⟩ := Step.bind_eq_ok_iff.mp h
  exact ⟨g₁, toAlternate, g₂, g₃, toEnd, g₄, g₅, g₆, htest, hreserve, hconsequent, hreserve',
    hpatch, halternate, hpatch'⟩

/-- The steps of generating a binary operator. -/
theorem steps_of_binary {op : BinaryOp} {left right : Tree}
    (h : (binary op left right).compile g = .ok () g') :
    ∃ g₁ g₂, left.compile g = .ok () g₁ ∧ right.compile g₁ = .ok () g₂ ∧
      emit .binary (some op.code) (some op.symbol) g₂ = .ok () g' := by
  rw [compile] at h
  obtain ⟨_, g₁, hleft, h⟩ := Step.bind_eq_ok_iff.mp h
  obtain ⟨_, g₂, hright, hop⟩ := Step.bind_eq_ok_iff.mp h
  exact ⟨g₁, g₂, hleft, hright, hop⟩

mutual

/-- What a tree adds is its direct layout, and it leaves no jump pending. -/
theorem continues_of_compile : ∀ (t : Tree) {g g' : Generator}, t.compile g = .ok () g' →
    g.Continues g' (t.layout g.buffer.code.size g.tables) [] (t.fill g.tables)
  | block _ items, g, g', h => continues_of_compileAll items h
  | store _ name value, g, g', h => by
    rw [compile] at h
    obtain ⟨_, g₁, hvalue, hstore⟩ := Step.bind_eq_ok_iff.mp h
    have c₁ := continues_of_compile value hvalue
    have s₁ : g₁.buffer.code.size = g.buffer.code.size + value.size := by
      rw [c₁.size, length_layout]
    have c₂ := continues_of_store hstore
    rw [s₁, c₁.tables] at c₂
    exact c₁.trans c₂
  | read _ name, g, g', h => continues_of_load h
  | function name params body, g, g', h => by
    obtain ⟨g₁, g₂, g₃, g₄, hmake, henter, hbody, hstore, rfl⟩ := steps_of_function h
    have c₁ := continues_of_emit hmake
    obtain ⟨-, c₂⟩ := continues_of_enterScope henter
    have s₂ : g₂.buffer.code.size = g.buffer.code.size + 1 := (c₁.trans c₂).size
    rw [c₁.tables] at c₂
    have c₃ := continues_of_compile body hbody
    rw [s₂, c₂.tables] at c₃
    have s₃ : g₃.buffer.code.size = g.buffer.code.size + 1 + body.size := by
      rw [c₃.size, length_layout, s₂]
    have c₄ := continues_of_store hstore
    rw [s₃, c₃.tables] at c₄
    -- The store is generated in the scope of the function too, and the scope is left after it.
    have c₅ := continues_leaveScope g₄
    rw [c₄.tables] at c₅
    have c := (c₁.trans c₂).trans ((c₃.trans c₄).trans c₅)
    rw [List.append_nil (_ ++ _)] at c
    exact c
  | print argument, g, g', h => by
    rw [compile] at h
    obtain ⟨_, g₁, hargument, hprint⟩ := Step.bind_eq_ok_iff.mp h
    have c₁ := continues_of_compile argument hargument
    have s₁ : g₁.buffer.code.size = g.buffer.code.size + argument.size := by
      rw [c₁.size, length_layout]
    have c₂ := continues_of_emit hprint
    rw [s₁, c₁.tables] at c₂
    exact c₁.trans c₂
  | loop test body, g, g', h => by
    obtain ⟨start, g₁, g₂, toEnd, g₃, g₄, g₅, hstart, htest, hreserve, hbody, hback, hpatch⟩ :=
      steps_of_loop h
    obtain ⟨rfl, rfl⟩ := eq_of_nextAddress hstart
    have c₂ := continues_of_compile test htest
    have s₂ : g₂.buffer.code.size = g₁.buffer.code.size + test.size := by
      rw [c₂.size, length_layout]
    obtain ⟨rfl, c₃⟩ := continues_of_reserve hreserve
    rw [s₂, c₂.tables] at c₃
    have s₃ : g₃.buffer.code.size = g₁.buffer.code.size + test.size + 1 := by
      rw [c₃.size, s₂, List.length_singleton]
    have c₄ := continues_of_compile body hbody
    rw [s₃, c₃.tables] at c₄
    have s₄ : g₄.buffer.code.size = g₁.buffer.code.size + test.size + 1 + body.size := by
      rw [c₄.size, s₃, length_layout]
    have c₅ := continues_of_emit hback
    rw [s₄, c₄.tables] at c₅
    have s₅ : g₅.buffer.code.size = g₁.buffer.code.size + (loop test body).size := by
      rw [c₅.size, s₄, List.length_singleton, size]
      omega
    -- The exit waits through the whole body and then gets the address after the jump back.
    have c := (c₂.trans c₃).trans (c₄.trans c₅)
    rw [List.append_assoc, List.singleton_append] at c
    rw [s₂] at hpatch
    have c' := c.patch (by rw [length_layout]) List.not_mem_nil hpatch
    rw [s₅] at c'
    exact c'
  | call callee arguments, g, g', h => by
    obtain ⟨g₁, g₂, hload, harguments, hcall⟩ := steps_of_call h
    have c₁ := continues_of_load hload
    have s₁ : g₁.buffer.code.size = g.buffer.code.size + 1 := c₁.size
    have c₂ := continues_of_compileAll arguments harguments
    rw [s₁, c₁.tables] at c₂
    have s₂ : g₂.buffer.code.size = g.buffer.code.size + 1 + sizeAll arguments := by
      rw [c₂.size, s₁, length_layoutAll]
    have c₃ := continues_of_emit hcall
    rw [s₂, c₂.tables] at c₃
    exact c₁.trans (c₂.trans c₃)
  | conditional test consequent alternate, g, g', h => by
    obtain ⟨g₁, toAlternate, g₂, g₃, toEnd, g₄, g₅, g₆, htest, hreserve, hconsequent, hreserve',
      hpatch, halternate, hpatch'⟩ := steps_of_conditional h
    have c₁ := continues_of_compile test htest
    have s₁ : g₁.buffer.code.size = g.buffer.code.size + test.size := by
      rw [c₁.size, length_layout]
    obtain ⟨rfl, c₂⟩ := continues_of_reserve hreserve
    rw [s₁, c₁.tables] at c₂
    have s₂ : g₂.buffer.code.size = g.buffer.code.size + test.size + 1 := by
      rw [c₂.size, s₁, List.length_singleton]
    have c₃ := continues_of_compile consequent hconsequent
    rw [s₂, c₂.tables] at c₃
    have s₃ : g₃.buffer.code.size = g.buffer.code.size + test.size + 1 + consequent.size := by
      rw [c₃.size, s₂, length_layout]
    obtain ⟨rfl, c₄⟩ := continues_of_reserve hreserve'
    rw [s₃, c₃.tables] at c₄
    have s₄ : g₄.buffer.code.size =
        g.buffer.code.size + test.size + 1 + consequent.size + 1 := by
      rw [c₄.size, s₃, List.length_singleton]
    -- Both jumps are pending when the first one gets its target.
    have c := (c₁.trans c₂).trans (c₃.trans c₄)
    rw [List.append_assoc, List.singleton_append] at c
    rw [s₁] at hpatch
    have c₅ := c.patch (by rw [length_layout]) (by simp; omega) hpatch
    rw [s₄] at c₅
    have s₅ : g₅.buffer.code.size =
        g.buffer.code.size + test.size + 1 + consequent.size + 1 :=
      (size_tables_of_patch hpatch).1.trans s₄
    have c₆ := continues_of_compile alternate halternate
    rw [s₅, c₅.tables] at c₆
    have s₆ : g₆.buffer.code.size =
        g.buffer.code.size + (conditional test consequent alternate).size := by
      rw [c₆.size, s₅, length_layout, size]
      omega
    -- The second jump is now in the middle of the stretch, with the alternate behind it.
    have c₇ := c₅.trans c₆
    rw [List.append_assoc, List.cons_append, List.append_assoc, List.singleton_append,
      ← List.cons_append, ← List.append_assoc] at c₇
    rw [s₃] at hpatch'
    have c₈ := c₇.patch (by simp; omega) List.not_mem_nil hpatch'
    rw [s₆, List.append_assoc] at c₈
    exact c₈
  | binary op left right, g, g', h => by
    obtain ⟨g₁, g₂, hleft, hright, hop⟩ := steps_of_binary h
    have c₁ := continues_of_compile left hleft
    have s₁ : g₁.buffer.code.size = g.buffer.code.size + left.size := by
      rw [c₁.size, length_layout]
    have c₂ := continues_of_compile right hright
    rw [s₁, c₁.tables] at c₂
    have s₂ : g₂.buffer.code.size = g.buffer.code.size + left.size + right.size := by
      rw [c₂.size, s₁, length_layout]
    have c₃ := continues_of_emit hop
    rw [s₂, c₂.tables] at c₃
    exact c₁.trans (c₂.trans c₃)
  | unary op operand, g, g', h => by
    rw [compile] at h
    obtain ⟨_, g₁, hoperand, hop⟩ := Step.bind_eq_ok_iff.mp h
    have c₁ := continues_of_compile operand hoperand
    have s₁ : g₁.buffer.code.size = g.buffer.code.size + operand.size := by
      rw [c₁.size, length_layout]
    have c₂ := continues_of_emit hop
    rw [s₁, c₁.tables] at c₂
    exact c₁.trans c₂
  | literal v, g, g', h => by
    rw [compile] at h
    obtain ⟨id, g₁, hid, hload⟩ := Step.bind_eq_ok_iff.mp h
    exact continues_of_literal hid hload

/-- What a list of trees adds is its direct layout, and it leaves no jump pending. -/
theorem continues_of_compileAll : ∀ (ts : List Tree) {g g' : Generator},
    compileAll ts g = .ok () g' →
    g.Continues g' (layoutAll ts g.buffer.code.size g.tables) [] (fillAll ts g.tables)
  | [], g, g', h => by
    cases h
    exact .of_buffer_eq rfl
  | t :: ts, g, g', h => by
    rw [compileAll] at h
    obtain ⟨_, g₁, hhead, htail⟩ := Step.bind_eq_ok_iff.mp h
    have c₁ := continues_of_compile t hhead
    have s₁ : g₁.buffer.code.size = g.buffer.code.size + t.size := by
      rw [c₁.size, length_layout]
    have c₂ := continues_of_compileAll ts htail
    rw [s₁, c₁.tables] at c₂
    exact c₁.trans c₂

end

/-- Generation refines direct layout. From any generator, whatever its code, its pending jumps, its
tables and its scope, a tree whose generation succeeds appends exactly the instructions of its
direct layout at the next address, as many as its size. The tables end as the layout leaves them, and
the pending jumps are those that were pending before. -/
theorem compile_appends_layout (t : Tree) (g g' : Generator) (h : t.compile g = .ok () g') :
    g'.buffer.code = g.buffer.code ++ (t.layout g.buffer.code.size g.tables).toArray ∧
      g'.buffer.code.size = g.buffer.code.size + t.size ∧
      g'.buffer.pending = g.buffer.pending ∧
      g'.names = (t.fill g.tables).names ∧
      g'.literals = (t.fill g.tables).literals ∧
      g'.scope = (t.fill g.tables).scope := by
  have c := continues_of_compile t h
  refine ⟨?_, ?_, ?_, congrArg Tables.names c.tables, congrArg Tables.literals c.tables,
    congrArg Tables.scope c.tables⟩
  · apply Array.toList_inj.mp
    rw [c.code, Array.toList_append]
  · rw [c.size, length_layout]
  · rw [c.pending, List.append_nil]

/-- A conditional in a loop, generated behind a jump that is still pending: every jump inside has its
target, and the one before is pending as it was. -/
theorem compile_appends_layout_nested :
    ∃ t g, t = loop (read .variable "x") (conditional (literal (.boolean true))
        (print (read .variable "x")) (block .sequence [])) ∧
      g = { buffer := ⟨#[⟨0, .jumpIfFalse, none, none⟩], [0]⟩ } ∧
      ∃ g', t.compile g = .ok () g' ∧
        g'.buffer.code.toList.map Instruction.target =
          [none, none, some 9, none, some 8, none, none, some 8, some 1] ∧
        g'.buffer.pending = [0] := by
  refine ⟨_, _, rfl, rfl, ?_⟩
  generalize ht : loop _ _ = t
  generalize hg : Generator.mk _ _ _ _ _ = g
  obtain ⟨g', h⟩ : ∃ g', t.compile g = .ok () g' := by
    subst ht hg
    exact ⟨_, rfl⟩
  obtain ⟨hcode, -, hpending, -⟩ := compile_appends_layout t g g' h
  subst ht hg
  exact ⟨g', h, by rw [hcode]; rfl, hpending⟩

/-- A tree that is generated gives a program, since it leaves nothing pending. -/
theorem generate_of_compile {t : Tree} {g : Generator} (h : t.compile {} = .ok () g) :
    t.generate = .ok ⟨g.buffer.code, g.names.keys, g.literals.constants⟩ := by
  have hpending : g.buffer.pending = [] := (continues_of_compile t h).pending
  unfold generate compileProgram
  rw [Step.bind_apply, h]
  -- `finish` refuses pending jumps only, and there are none.
  unfold finish CodeBuffer.finish
  dsimp only
  rw [hpending]

/-- A tree whose generation fails gives the error. -/
theorem generate_of_compile_error {t : Tree} {e : GenerationError} {g : Generator}
    (h : t.compile {} = .error e g) : t.generate = .error e := by
  unfold generate compileProgram
  rw [Step.bind_apply, h]

/-- A program comes from generating the code of its tree. -/
theorem exists_compile_of_generate {t : Tree} {p : Program} (h : t.generate = .ok p) :
    ∃ g, t.compile {} = .ok () g ∧ p = ⟨g.buffer.code, g.names.keys, g.literals.constants⟩ := by
  cases hcompile : t.compile {} with
  | ok _ g =>
    rw [generate_of_compile hcompile] at h
    cases h
    exact ⟨g, rfl, rfl⟩
  | error e g =>
    rw [generate_of_compile_error hcompile] at h
    cases h

/-- A generation that is seen to succeed has a program. -/
theorem exists_of_isOk {t : Tree} (h : t.generate.isOk = true) : ∃ p, t.generate = .ok p := by
  cases hp : t.generate with
  | ok p => exact ⟨p, rfl⟩
  | error e =>
    rw [hp] at h
    cases h

/-- A program is the direct layout of its tree at address 0, with the tables that the tree fills. -/
theorem layout_of_generate {t : Tree} {p : Program} (h : t.generate = .ok p) :
    p.code.toList = t.layout 0 {} ∧ p.names = (t.fill {}).names.keys ∧
      p.constants = (t.fill {}).literals.constants := by
  obtain ⟨g, hcompile, rfl⟩ := exists_compile_of_generate h
  have c := continues_of_compile t hcompile
  exact ⟨c.code, congrArg (·.names.keys) c.tables, congrArg (·.literals.constants) c.tables⟩

end Tree

end Backpatch
