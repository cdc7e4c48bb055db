import Backpatch.Proofs.Edits

/-!
# Generation only appends

Whether generation succeeds or fails, and at whatever point it fails, what was there before stays as it
was: `Generator.Extends` says so of the code, the pending jumps and the tables. Every step but a patch
extends every generator. A patch changes the code, but only at a jump that the same tree has reserved
(`Generator.Extends.patch`), so it extends the generator from before that jump. The scope, which does
change on the way, is empty in the end, with one exception (`Tree.keepsScope_compile`): a function with
more parameters than there are slots is given up before it is entered, and the slots that it has filled
are not taken back (`Tree.compile_leaves_param_behind`).
-/

namespace Backpatch

/-! ## Buffers and tables that grow -/

namespace CodeBuffer

/-- `b'` has all the code and all the pending jumps of `b`, in place. -/
structure Extends (b b' : CodeBuffer) : Prop where
  /-- The code before is unchanged. -/
  code : b.code.toList <+: b'.code.toList
  /-- The pending jumps before are unchanged. -/
  pending : b.pending <+: b'.pending

namespace Extends

variable {b b₁ b₂ : CodeBuffer}

/-- A buffer has all that it has. -/
theorem refl (b : CodeBuffer) : b.Extends b :=
  ⟨List.prefix_refl _, List.prefix_refl _⟩

/-- What grows twice has all that it had at first. -/
theorem trans (h₁ : b.Extends b₁) (h₂ : b₁.Extends b₂) : b.Extends b₂ :=
  ⟨h₁.code.trans h₂.code, h₁.pending.trans h₂.pending⟩

end Extends

/-- The next address changes nothing. -/
theorem extends_nextAddress (b : CodeBuffer) : b.Extends (nextAddress.after b) := by
  by_cases h : b.code.size < addressLimit
  · rw [Step.after_of_ok (nextAddress_of_lt h)]
    exact .refl b
  · rw [Step.after_of_error (nextAddress_of_not_lt h)]
    exact .refl b

/-- What an edit does extends the buffer, unless it patches a jump. -/
theorem extends_of_effect {b b' : CodeBuffer} {new : Option Nat} (h : b.Effect b' new none) :
    b.Extends b' := by
  cases h with
  | refused => exact .refl b
  | appended _ => exact ⟨Array.toList_push ▸ List.prefix_append _ _, List.prefix_refl _⟩
  | reserved _ => exact ⟨Array.toList_push ▸ List.prefix_append _ _, List.prefix_append _ _⟩

/-- Of jumps of which the youngest ones include it, an address is withdrawn from among these. -/
theorem withdraw_append {address : Nat} {younger : List Nat} (h : address ∈ younger)
    (older : List Nat) : withdraw address (older ++ younger) = older ++ withdraw address younger := by
  unfold withdraw
  rw [List.reverse_append, List.erase_append_left _ (List.mem_reverse.mpr h), List.reverse_append,
    List.reverse_reverse]

/-- A patch of a jump that stands behind a buffer, in the code and among the pending ones, leaves that
buffer as it is. -/
theorem Extends.patch {b b₁ : CodeBuffer} (h : b.Extends b₁) {address : Nat} {younger : List Nat}
    (hpending : b₁.pending = b.pending ++ younger) (hmem : address ∈ younger)
    (hle : b.code.size ≤ address) : b.Extends ((CodeBuffer.patch ⟨address⟩).after b₁) := by
  -- Only a younger jump is withdrawn, and only an instruction behind `b` is changed.
  have hwithdraw : b.pending <+: withdraw address b₁.pending := by
    rw [hpending, withdraw_append hmem]
    exact List.prefix_append _ _
  have hmem₁ : address ∈ b₁.pending := hpending ▸ List.mem_append_right _ hmem
  by_cases hlt : b₁.code.size < addressLimit
  · cases hi : b₁.code[address]? with
    | some i =>
      have hok := (patch_of_lt hlt ⟨address⟩).trans (patchTo_of_mem hmem₁ hi _)
      rw [Step.after_of_ok hok]
      refine ⟨?_, hwithdraw⟩
      obtain ⟨rest, hrest⟩ := h.code
      rw [Array.toList_setIfInBounds, ← hrest, List.set_append_right _ _ hle]
      exact List.prefix_append _ _
    | none =>
      have herror : CodeBuffer.patch ⟨address⟩ b₁ =
          .error (.notPending address) { b₁ with pending := withdraw address b₁.pending } := by
        rw [patch_of_lt hlt]
        simp [patchTo, hmem₁, hi]
      rw [Step.after_of_error herror]
      exact ⟨h.code, hwithdraw⟩
  · rw [Step.after_of_error (patch_of_not_lt hlt ⟨address⟩)]
    exact h

end CodeBuffer

/-- Interning keeps the keys before it, in place, whether there is room or not. -/
theorem SymbolTable.prefix_intern {κ : Type} [DecidableEq κ] (key : κ) (t : SymbolTable κ) :
    t.keys <+: ((intern key).after t).keys := by
  cases h : intern key t with
  | ok id t' =>
    rw [Step.after_of_ok h]
    exact keys_prefix_of_intern h
  | error e t' =>
    rw [Step.after_of_error h]
    unfold intern at h
    split at h
    · cases h
    · split at h <;> cases h
      exact List.prefix_refl _

/-- Adding a literal keeps the constants before it, in place, whether there is room or not. -/
theorem LiteralPool.prefix_add (v : Value) (p : LiteralPool) :
    p.constants <+: ((add v).after p).constants := by
  -- The class comes first, and interning it leaves the constants alone.
  have hclass : ((internClass v).after p).constants = p.constants := by
    unfold internClass
    rw [Step.after_within]
  cases h : internClass v p with
  | ok id p' =>
    rw [Step.after_of_ok h] at hclass
    rw [add, Step.after_bind_of_ok h, ← hclass]
    show p'.constants <+: (if id = p'.constants.length then
      { p' with constants := p'.constants ++ [v] } else p' : LiteralPool).constants
    split
    · exact List.prefix_append _ _
    · exact List.prefix_refl _
  | error e p' =>
    rw [Step.after_of_error h] at hclass
    rw [add, Step.after_bind_of_error h]
    exact hclass ▸ List.prefix_refl _

/-! ## Generators that grow -/

namespace Generator

/-- `g'` has all that `g` has, in place. -/
structure Extends (g g' : Generator) : Prop where
  /-- The code and the pending jumps before are unchanged. -/
  buffer : g.buffer.Extends g'.buffer
  /-- The names before keep their identifiers. -/
  names : g.names.keys <+: g'.names.keys
  /-- The constants before keep their identifiers. -/
  constants : g.literals.constants <+: g'.literals.constants

namespace Extends

variable {α β : Type} {g g₁ g₂ : Generator} {x : Generation α} {f : α → Generation β}

/-- A generator has all that it has. -/
theorem refl (g : Generator) : g.Extends g :=
  ⟨.refl _, List.prefix_refl _, List.prefix_refl _⟩

/-- What grows twice has all that it had at first. -/
theorem trans (h₁ : g.Extends g₁) (h₂ : g₁.Extends g₂) : g.Extends g₂ :=
  ⟨h₁.buffer.trans h₂.buffer, h₁.names.trans h₂.names, h₁.constants.trans h₂.constants⟩

/-- Two steps extend a generator if the first one does, and the second does after a first that
succeeds. -/
theorem bind (hx : g.Extends (x.after g₁))
    (hf : ∀ a g₂, x g₁ = .ok a g₂ → g.Extends g₂ → g.Extends ((f a).after g₂)) :
    g.Extends ((x >>= f).after g₁) := by
  cases h : x g₁ with
  | ok a g₂ =>
    rw [Step.after_of_ok h] at hx
    rw [Step.after_bind_of_ok h]
    exact hf a g₂ h hx
  | error e g₂ =>
    rw [Step.after_of_error h] at hx
    rw [Step.after_bind_of_error h]
    exact hx

/-- A patch of a jump that stands behind a generator leaves that generator as it is. -/
theorem patch (h : g.Extends g₁) {address : Nat} {younger : List Nat}
    (hpending : g₁.buffer.pending = g.buffer.pending ++ younger) (hmem : address ∈ younger)
    (hle : g.buffer.code.size ≤ address) :
    g.Extends ((Generation.patch ⟨address⟩).after g₁) := by
  refine bind ?_ fun event g₂ _ h₂ => ⟨h₂.buffer, h₂.names, h₂.constants⟩
  rw [Generation.after_onBuffer]
  exact ⟨h.buffer.patch hpending hmem hle, h.names, h.constants⟩

end Extends

end Generator

namespace Generation

open Generator (Extends)

variable {α β : Type} {x : Generation α} {f : α → Generation β}

/-- A step that extends every generator, whether it fails or not. -/
def Appends (x : Generation α) : Prop :=
  ∀ g : Generator, g.Extends (x.after g)

/-- Two steps that append are one that does. -/
theorem Appends.bind (hx : Appends x) (hf : ∀ a, Appends (f a)) : Appends (x >>= f) :=
  fun g => (hx g).bind fun a g₁ _ h₁ => h₁.trans (hf a g₁)

/-- A step that appends to the code. -/
theorem Appends.onBuffer {y : Step CodeBuffer α} (h : ∀ b : CodeBuffer, b.Extends (y.after b)) :
    Appends (onBuffer y) := by
  intro g
  rw [after_onBuffer]
  exact ⟨h g.buffer, List.prefix_refl _, List.prefix_refl _⟩

/-- An instruction is appended. -/
theorem appends_emit (opcode : Opcode) (operand : Option Nat) (display : Option String) :
    Appends (emit opcode operand display) := by
  refine Appends.bind (.onBuffer fun b => ?_) fun _ => .refl
  exact CodeBuffer.extends_of_effect (CodeBuffer.effect_emit opcode operand display)

/-- A jump is appended. -/
theorem appends_reserve (branch : Branch) : Appends (reserve branch) :=
  .onBuffer fun _ => CodeBuffer.extends_of_effect (CodeBuffer.effect_reserve branch)

/-- A name is appended to the names, if it is new. -/
theorem appends_intern (name : String) : Appends (intern name) := by
  intro g
  unfold intern
  rw [Step.after_within]
  exact ⟨.refl _, SymbolTable.prefix_intern name g.names, List.prefix_refl _⟩

/-- A literal is appended to the constants, if it is new. -/
theorem appends_addConstant (v : Value) : Appends (addConstant v) := by
  intro g
  unfold addConstant
  rw [Step.after_within]
  exact ⟨.refl _, List.prefix_refl _, LiteralPool.prefix_add v g.literals⟩

/-- Neither entering nor leaving a function takes anything away. -/
theorem Appends.inScope {body : Generation Unit} (h : Appends body) (name : String)
    (params : List String) : Appends (inScope name params body) := by
  have henter : Appends (enterScope name params) := by
    refine Appends.bind (fun g => ?_) fun _ g => ⟨.refl _, List.prefix_refl _, List.prefix_refl _⟩
    rw [Step.after_within]
    exact ⟨.refl _, List.prefix_refl _, List.prefix_refl _⟩
  have hleaving : Appends (leaving body) := by
    intro g
    rw [after_leaving]
    refine (h g).trans ?_
    unfold leaveScope
    split <;> exact ⟨.refl _, List.prefix_refl _, List.prefix_refl _⟩
  exact henter.bind fun _ => hleaving

/-- A loop patches its own exit only. -/
theorem appends_loop {test body : Tree} (htest : Appends test.compile)
    (hbody : Appends body.compile) : Appends (Tree.loop test body).compile := by
  rw [Tree.compile]
  refine Appends.bind (.onBuffer CodeBuffer.extends_nextAddress) fun start => htest.bind fun _ => ?_
  intro g
  -- From here on all is behind `g`, the exit of the loop among it.
  refine (appends_reserve .ifFalse g).bind fun toEnd g₁ hreserve h₁ => ?_
  obtain ⟨rfl, k₁⟩ := continues_of_reserve hreserve
  refine (h₁.trans (hbody g₁)).bind fun _ g₂ hok h₂ => ?_
  refine (h₂.trans (appends_emit _ _ _ g₂)).bind fun _ g₃ hback h₃ => ?_
  have k := k₁.trans ((Tree.continues_of_compile body hok).trans (continues_of_emit hback))
  exact h₃.patch k.pending (List.mem_append_left _ (List.mem_singleton.mpr rfl)) (Nat.le_refl _)

/-- A conditional patches its own two jumps only. -/
theorem appends_conditional {test consequent alternate : Tree} (htest : Appends test.compile)
    (hconsequent : Appends consequent.compile) (halternate : Appends alternate.compile) :
    Appends (Tree.conditional test consequent alternate).compile := by
  rw [Tree.compile]
  refine htest.bind fun _ => fun g => ?_
  -- From here on all is behind `g`, both jumps among it.
  refine (appends_reserve .ifFalse g).bind fun toAlternate g₁ hreserve h₁ => ?_
  obtain ⟨rfl, k₁⟩ := continues_of_reserve hreserve
  refine (h₁.trans (hconsequent g₁)).bind fun _ g₂ hok h₂ => ?_
  refine (h₂.trans (appends_reserve .always g₂)).bind fun toEnd g₃ hreserve' h₃ => ?_
  obtain ⟨rfl, k₃⟩ := continues_of_reserve hreserve'
  have k₂ := k₁.trans (Tree.continues_of_compile consequent hok)
  have k : g.Continues g₃ ([] ++ _ :: _) (g.buffer.code.size :: [g₂.buffer.code.size]) _ :=
    k₂.trans k₃
  have hlt : g.buffer.code.size < g₂.buffer.code.size := by
    rw [k₂.size]
    simp
  have hpatched := h₃.patch k.pending List.mem_cons_self (Nat.le_refl _)
  refine hpatched.bind fun _ g₄ hpatch h₄ => ?_
  refine (h₄.trans (halternate g₄)).bind fun _ g₅ hok' h₅ => ?_
  have k₄ := k.patch rfl (by simp; omega) hpatch
  have k₅ := k₄.trans (Tree.continues_of_compile alternate hok')
  exact h₅.patch k₅.pending (List.mem_append_left _ (List.mem_singleton.mpr rfl)) (Nat.le_of_lt hlt)

/-- That a step appends is lifted to every tree. -/
theorem lifts_appends : Lifts fun _ _ => Appends where
  mono h _ := h
  pure _ := Extends.refl
  get := Extends.refl
  bind := Appends.bind
  intern := appends_intern
  addConstant := appends_addConstant
  inScope name params h := h.inScope name params
  emit opcode _ := appends_emit opcode
  loop := appends_loop
  conditional := appends_conditional

end Generation

/-- Generation of a tree extends every generator. -/
theorem Tree.appends_compile (t : Tree) : Generation.Appends t.compile :=
  compile_of_lifts Generation.lifts_appends t

/-! ## The scope after a tree -/

namespace FunctionScope

/-- The scopes that code leaves behind in which `declarations` are the functions, if it finds the scope
`s`. Inside a function nothing changes. Outside all functions the scope is empty after a function, but
one with too many parameters is not entered and leaves the slots of the first ones. -/
inductive Leaves (declarations : List (String × List String)) (s : FunctionScope) :
    FunctionScope → Prop where
  /-- No function was entered. -/
  | same : Leaves declarations s s
  /-- The last function was left. -/
  | left (h : s.function = none) : Leaves declarations s {}
  /-- The last function was not entered, for want of slots. -/
  | refused {name : String} {params : List String} (h : s.function = none)
      (hmem : (name, params) ∈ declarations) (hlen : addressLimit < params.length) :
      Leaves declarations s ⟨none, slotsOf (params.take addressLimit)⟩

namespace Leaves

variable {s s₁ s₂ : FunctionScope} {ds ds' : List (String × List String)}

/-- The function around the code is the one before. -/
theorem function_eq (h : s.Leaves ds s₁) : s₁.function = s.function := by
  cases h with
  | same => rfl
  | left h => exact h.symm
  | refused h _ _ => exact h.symm

/-- More functions leave no fewer scopes. -/
theorem mono (h : s.Leaves ds s₁) (hsub : ds ⊆ ds') : s.Leaves ds' s₁ := by
  cases h with
  | same => exact .same
  | left h => exact .left h
  | refused h hmem hlen => exact .refused h (hsub hmem) hlen

/-- One stretch of code after another. -/
theorem trans (h₁ : s.Leaves ds s₁) (h₂ : s₁.Leaves ds' s₂) : s.Leaves (ds ++ ds') s₂ := by
  have hfunction := h₁.function_eq
  cases h₂ with
  | same => exact h₁.mono (List.subset_append_left _ _)
  | left h => exact .left (hfunction ▸ h)
  | refused h hmem hlen =>
    exact .refused (hfunction ▸ h) (List.mem_append_right _ hmem) hlen

/-- What an empty scope becomes. -/
theorem empty_cases (h : Leaves ds {} s) : s = {} ∨ ∃ name params, (name, params) ∈ ds ∧
    addressLimit < params.length ∧ s = ⟨none, slotsOf (params.take addressLimit)⟩ := by
  cases h with
  | same => exact .inl rfl
  | left _ => exact .inl rfl
  | refused _ hmem hlen => exact .inr ⟨_, _, hmem, hlen, rfl⟩

/-- With slots for all parameters an empty scope stays empty. -/
theorem eq_empty (h : Leaves ds {} s) (hfit : ∀ declaration ∈ ds, declaration.2.length ≤ addressLimit) :
    s = {} := by
  obtain hempty | ⟨name, params, hmem, hlen, -⟩ := h.empty_cases
  · exact hempty
  · exact absurd (hfit _ hmem) (Nat.not_le.mpr hlen)

end Leaves

/-- However often a parameter is repeated, its slot is the last one. -/
theorem lookup_slotsOf_replicate (name : String) {n : Nat} (h : 0 < n) :
    (slotsOf (List.replicate n name)).lookup name = some (n - 1) := by
  obtain ⟨k, rfl⟩ : ∃ k, n = k + 1 := ⟨n - 1, by omega⟩
  rw [List.replicate_succ', slotsOf, List.zipIdx_append, List.foldl_append, List.length_replicate]
  simp [lookup_assign_self]

end FunctionScope

namespace Generation

variable {α β : Type} {c c' : Contents} {x : Generation α} {f : α → Generation β}

/-- A step with the contents `c` leaves a scope as its functions do, whether it fails or not. -/
def KeepsScope (c : Contents) (x : Generation α) : Prop :=
  ∀ g : Generator, g.scope.Leaves c.functions (x.after g).scope

/-- One step after another. -/
theorem KeepsScope.bind (hx : KeepsScope c x) (hf : ∀ a, KeepsScope c' (f a)) :
    KeepsScope (c ++ c') (x >>= f) := by
  intro g
  have hg := hx g
  cases h : x g with
  | ok a g₁ =>
    rw [Step.after_of_ok h] at hg
    rw [Step.after_bind_of_ok h]
    exact hg.trans (hf a g₁)
  | error e g₁ =>
    rw [Step.after_of_error h] at hg
    rw [Step.after_bind_of_error h]
    exact hg.mono (List.subset_append_left _ _)

/-- A step that does not look at the scope. -/
theorem KeepsScope.of_eq (h : ∀ g, (x.after g).scope = g.scope) : KeepsScope c x :=
  fun g => h g ▸ .same

/-- A step on the code does not look at the scope. -/
theorem KeepsScope.onBuffer (y : Step CodeBuffer α) : KeepsScope c (onBuffer y) :=
  .of_eq fun g => by rw [after_onBuffer]

/-- An instruction does not look at the scope. -/
theorem keepsScope_emit (opcode : Opcode) (operand : Option Nat) (display : Option String) :
    KeepsScope { code := 1 } (emit opcode operand display) :=
  (KeepsScope.onBuffer (c := { code := 1 }) _).bind fun _ => .of_eq (c := {}) fun _ => rfl

/-- A patch does not look at the scope. -/
theorem keepsScope_patch (label : Label) : KeepsScope {} (patch label) :=
  (KeepsScope.onBuffer (c := {}) _).bind fun _ => .of_eq (c := {}) fun _ => rfl

/-- Where a function is entered, the scope is empty after it. Inside another function it is not entered,
and the scope of that one stays. -/
theorem keepsScope_inScope (name : String) (params : List String) (body : Generation Unit) :
    KeepsScope { functions := [(name, params)] } (inScope name params body) := by
  intro g
  cases hf : g.scope.function with
  | some outer =>
    rw [Step.after_of_error (inScope_of_some hf name params body)]
    exact .same
  | none =>
    -- Outside all functions it depends on the number of parameters whether it is entered.
    rcases Nat.lt_or_ge addressLimit params.length with hlt | hle
    · have hafter : (inScope name params body).after g = _ :=
        Step.after_bind_of_error (enterScope_of_lt hf name hlt)
      rw [hafter]
      exact .refused hf List.mem_cons_self hlt
    · have hafter : (inScope name params body).after g = leaveScope _ :=
        (Step.after_bind_of_ok (enterScope_of_le hf name hle)).trans (after_leaving body _)
      rw [hafter, show (leaveScope _).scope = {} from
        congrArg Tables.scope (continues_leaveScope _).tables]
      exact .left hf

/-- What becomes of the scope is lifted to every tree. -/
theorem stepLifts_keepsScope : StepLifts fun _ => KeepsScope where
  mono h hle g := hle.2.2 ▸ h g
  pure _ := .of_eq fun _ => rfl
  get := .of_eq fun _ => rfl
  bind := KeepsScope.bind
  intern name := .of_eq fun g => by rw [intern, Step.after_within]
  addConstant v := .of_eq fun g => by rw [addConstant, Step.after_within]
  inScope name params _ g :=
    (keepsScope_inScope name params _ g).mono (List.subset_append_left _ _)
  emit := keepsScope_emit
  nextAddress := .onBuffer _
  reserve _ := .onBuffer _
  patch := keepsScope_patch

end Generation

/-- Generation of a tree leaves a scope as the functions in the tree do. -/
theorem Tree.keepsScope_compile (t : Tree) : Generation.KeepsScope t.contents t.compile :=
  compile_of_lifts Generation.stepLifts_keepsScope.lifts t

/-! ## Requests to a generator -/

/-- What a generator may be asked for. -/
inductive Request where
  /-- To generate the code of a tree. -/
  | compile (t : Tree)
  /-- To find a name. -/
  | resolve (name : String)

namespace Request

/-- The generator after a request, whether it fails or not. -/
def after : Request → Generator → Generator
  | compile t => t.compile.after
  | resolve name => (Generation.resolve name).after

/-- The functions declared in a request. -/
def declarations : Request → List (String × List String)
  | compile t => t.declarations
  | resolve _ => []

/-- There are slots for the parameters of every function in the request. -/
def Fits (r : Request) : Prop :=
  ∀ declaration ∈ r.declarations, declaration.2.length ≤ addressLimit

/-- A request only appends. -/
theorem extends_after (r : Request) (g : Generator) : g.Extends (r.after g) := by
  cases r with
  | compile t => exact Tree.appends_compile t g
  | resolve name => exact Generation.lifts_appends.resolve name g

/-- A request leaves a scope as the functions in it do. -/
theorem leaves_after (r : Request) (g : Generator) :
    g.scope.Leaves r.declarations (r.after g).scope := by
  cases r with
  | compile t => exact Tree.keepsScope_compile t g
  | resolve name => exact Generation.stepLifts_keepsScope.lifts.resolve name g

end Request

namespace Generator

/-- The generator after some requests, the failed ones among them. -/
def serve (g : Generator) (requests : List Request) : Generator :=
  requests.foldl (fun g r => r.after g) g

variable {g : Generator}

/-- Requests only append. -/
theorem extends_serve (requests : List Request) : g.Extends (g.serve requests) := by
  induction requests generalizing g with
  | nil => exact .refl g
  | cons r requests ih => exact (r.extends_after g).trans ih

/-- Requests leave a scope as the functions in them do. -/
theorem leaves_serve (requests : List Request) :
    g.scope.Leaves (requests.flatMap Request.declarations) (g.serve requests).scope := by
  induction requests generalizing g with
  | nil => exact .same
  | cons r requests ih => exact (r.leaves_after g).trans ih

/-- Requests end with no parameters if they begin with none. -/
theorem scope_serve {requests : List Request} (hfit : ∀ r ∈ requests, r.Fits)
    (h : g.scope = {}) : (g.serve requests).scope = {} := by
  have hleaves := g.leaves_serve requests
  rw [h] at hleaves
  refine hleaves.eq_empty fun declaration hmem => ?_
  obtain ⟨r, hr, hdeclaration⟩ := List.mem_flatMap.mp hmem
  exact hfit r hr declaration hdeclaration

/-- Outside all functions a name is found among the globals. -/
theorem resolve_of_intern (h : g.scope = {}) {name : String} {id : Nat} {g' : Generator}
    (hintern : Generation.intern name g = .ok id g') :
    Generation.resolve name g = .ok (.global id) g' := by
  have hslot : g.scope.slot? name = none := by
    rw [h]
    rfl
  simp only [Generation.resolve, Step.bind_apply, Step.get_apply, hslot, hintern, Step.pure_apply]

/-- A name that has an identifier is found under it after any requests, and to look it up changes
nothing. -/
theorem resolve_of_mem (h : g.scope = {}) {name : String} (hmem : name ∈ g.names.keys)
    (requests : List Request) (hfit : ∀ r ∈ requests, r.Fits) :
    Generation.resolve name (g.serve requests) =
      .ok (.global (g.names.place name)) (g.serve requests) := by
  have hkeys := (extends_serve (g := g) requests).names
  have hplace : g.names.place name = (g.serve requests).names.place name :=
    hkeys.idxOf_eq_of_mem hmem
  have hintern : Generation.intern name (g.serve requests) =
      .ok (g.names.place name) (g.serve requests) := by
    rw [Generation.intern, Step.within, SymbolTable.intern_of_mem (hkeys.subset hmem), hplace]
  exact resolve_of_intern (scope_serve hfit h) hintern

/-- Outside all functions a name is found under an identifier that it keeps, unless it is new and there
are none left. -/
theorem exists_resolve (h : g.scope = {}) (name : String) :
    (∃ id g', Generation.resolve name g = .ok (.global id) g' ∧
      ∀ requests, (∀ r ∈ requests, r.Fits) →
        Generation.resolve name (g'.serve requests) = .ok (.global id) (g'.serve requests)) ∨
    name ∉ g.names.keys ∧ addressLimit ≤ g.names.keys.length := by
  by_cases hmem : name ∈ g.names.keys
  · have hfound := resolve_of_mem h hmem [] (by simp)
    exact .inl ⟨_, g, hfound, resolve_of_mem h hmem⟩
  · by_cases hlt : g.names.keys.length < addressLimit
    · have hintern : Generation.intern name g =
          .ok (g.names.place name) { g with names := g.names.insert name } := by
        rw [Generation.intern, Step.within, SymbolTable.intern_of_lt hlt]
      refine .inl ⟨_, _, resolve_of_intern h hintern, ?_⟩
      rw [← g.names.place_insert_self name]
      exact resolve_of_mem (g := { g with names := g.names.insert name }) h
        (g.names.mem_keys_insert name)
    · exact .inr ⟨hmem, Nat.le_of_not_lt hlt⟩

end Generator

namespace Tree

/-- Generation only appends. Take the generator `g` after any requests, failed ones among them, and let
`g'` be what the generation of one more tree leaves, whether it succeeds or fails. Then the code, the
names, the constants and the pending jumps of `g` are unchanged at the front of those of `g'`, and if
the tree is generated no jump is pending that was not before.

In the end `g'` is outside all functions, and no parameter is left, unless a function had more
parameters than there are slots: it is then the slots of its first parameters that are left. If there
were slots for all parameters, so it is after any later requests: every name is then found among the
globals, under an identifier that it keeps, unless the name is new and the identifiers have run out. -/
theorem compile_only_appends (requests : List Request) (t : Tree) (g g' : Generator)
    (hg : g = Generator.serve {} requests) (hg' : g' = t.compile.after g) :
    g.buffer.code.toList <+: g'.buffer.code.toList ∧
    g.names.keys <+: g'.names.keys ∧
    g.literals.constants <+: g'.literals.constants ∧
    g.buffer.pending <+: g'.buffer.pending ∧
    (t.compile g = .ok () g' → g'.buffer.pending = g.buffer.pending) ∧
    g'.scope.function = none ∧
    (g'.scope = {} ∨ ∃ r ∈ requests ++ [Request.compile t], ∃ name params, (name, params) ∈ r.declarations ∧
      addressLimit < params.length ∧
      g'.scope = ⟨none, FunctionScope.slotsOf (params.take addressLimit)⟩) ∧
    ((∀ r ∈ requests ++ [.compile t], r.Fits) →
      g'.scope = {} ∧
      ∀ later name, (∀ r ∈ later, r.Fits) →
        (∃ id h, Generation.resolve name (g'.serve later) = .ok (.global id) h ∧
          ∀ more, (∀ r ∈ more, r.Fits) →
            Generation.resolve name (h.serve more) = .ok (.global id) (h.serve more)) ∨
        name ∉ (g'.serve later).names.keys ∧
          addressLimit ≤ (g'.serve later).names.keys.length) := by
  -- The tree is one more request, so that what holds of requests holds of it.
  have hextends : g.Extends g' := hg' ▸ appends_compile t g
  have hserve : g' = Generator.serve {} (requests ++ [.compile t]) := by
    rw [hg', hg, Generator.serve, Generator.serve, List.foldl_append]
    rfl
  have hleaves : FunctionScope.Leaves ((requests ++ [Request.compile t]).flatMap Request.declarations) {}
      g'.scope := by
    rw [hserve]
    exact Generator.leaves_serve (g := {}) _
  refine ⟨hextends.buffer.code, hextends.names, hextends.constants, hextends.buffer.pending, ?_,
    hleaves.function_eq, ?_, ?_⟩
  · intro hok
    rw [(continues_of_compile t hok).pending, List.append_nil]
  · refine hleaves.empty_cases.imp_right ?_
    rintro ⟨name, params, hmem, hlen, hscope⟩
    obtain ⟨r, hr, hdeclaration⟩ := List.mem_flatMap.mp hmem
    exact ⟨r, hr, name, params, hdeclaration, hlen, hscope⟩
  · intro hfit
    have hscope : g'.scope = {} := by
      rw [hserve]
      exact Generator.scope_serve hfit rfl
    exact ⟨hscope, fun later name hlater =>
      Generator.exists_resolve (Generator.scope_serve hlater hscope) name⟩

/-- The function inside `f` fails, which leaves the exit of the loop pending and `a` a parameter no more:
the tree behind it reads the global `a`, which has the first identifier from then on. -/
theorem compile_only_appends_after_failure :
    ∃ t g g', t = loop (literal (.boolean true))
        (function "f" ["a"] (function "h" [] (literal (.boolean true)))) ∧
      g = Generator.serve {} [.compile t] ∧ g' = (print (read .variable "a")).compile.after g ∧
      g.buffer.code.toList <+: g'.buffer.code.toList ∧
      g.buffer.pending = [1] ∧ g'.buffer.pending = [1] ∧ g'.scope = {} ∧
      ∀ more, (∀ r ∈ more, r.Fits) →
        Generation.resolve "a" (g'.serve more) = .ok (.global 0) (g'.serve more) := by
  refine ⟨_, _, _, rfl, rfl, rfl, ?_⟩
  generalize ht : loop _ _ = t
  obtain ⟨hcode, -, -, -, hpending, -, -, hscope⟩ :=
    compile_only_appends [.compile t] (print (read .variable "a")) _ _ rfl rfl
  subst ht
  obtain ⟨hempty, hresolve⟩ := hscope <| by
    simp only [List.cons_append, List.nil_append, List.forall_mem_cons, Request.Fits]
    decide
  refine ⟨hcode, by decide +kernel, (hpending rfl).trans (by decide +kernel), hempty, ?_⟩
  obtain ⟨id, h, hfound, hkeeps⟩ | ⟨hnew, -⟩ := hresolve [] "a" (by simp)
  · cases hfound
    exact hkeeps
  · exact absurd (by decide +kernel) hnew

/-- A function that is declared outside all others, with more parameters than there are slots, fails
and leaves the slots of the first ones. -/
theorem compile_of_too_many_params {g : Generator} (hf : g.scope.function = none)
    (hroom : g.buffer.code.size < addressLimit) (name : String) {params : List String}
    (hlen : addressLimit < params.length) (body : Tree) :
    ∃ g', (function name params body).compile g = .error (.tableFull addressLimit) g' ∧
      g'.scope = ⟨none, FunctionScope.slotsOf (params.take addressLimit)⟩ := by
  obtain ⟨g₁, hmake, hscope⟩ : ∃ g₁, Generation.emit .makeFunction none none g = .ok () g₁ ∧
      g₁.scope = g.scope := ⟨_, Generation.emit_of_lt hroom _ _ _, rfl⟩
  rw [compile, Step.bind_apply, hmake]
  dsimp only
  rw [Generation.inScope, Step.bind_apply,
    Generation.enterScope_of_lt (hscope.symm ▸ hf) name hlen]
  exact ⟨_, rfl, rfl⟩

/-- If it has one parameter again and again, that name is found in the last slot from then on, and not
among the globals. -/
theorem resolve_of_too_many_params {g : Generator} (hf : g.scope.function = none)
    (hroom : g.buffer.code.size < addressLimit) (name param : String) {n : Nat}
    (hlen : addressLimit < n) (body : Tree) :
    ∃ g', (function name (List.replicate n param) body).compile g =
        .error (.tableFull addressLimit) g' ∧ g'.scope.function = none ∧
      Generation.resolve param g' = .ok (.slot (addressLimit - 1)) g' := by
  have hlength : addressLimit < (List.replicate n param).length := by
    rw [List.length_replicate]
    exact hlen
  obtain ⟨g', hcompile, hscope⟩ := compile_of_too_many_params hf hroom name hlength body
  refine ⟨g', hcompile, congrArg FunctionScope.function hscope, Generation.resolve_of_slot? ?_⟩
  have hpos : 0 < addressLimit := by decide
  rw [hscope, List.take_replicate, Nat.min_eq_left (Nat.le_of_lt hlen), FunctionScope.slot?,
    FunctionScope.lookup_slotsOf_replicate param hpos]

/-- Outside all functions the scope is not always empty. A function that has a parameter once more often
than there are slots is refused and leaves the parameter behind: with no function around it, the name is
still found in a slot, and not among the globals. -/
theorem compile_leaves_param_behind :
    ∃ t g, t = function "f" (List.replicate (addressLimit + 1) "x") (block .sequence []) ∧
      t.compile {} = .error (.tableFull addressLimit) g ∧
      g.scope.function = none ∧ g.scope ≠ {} ∧
      Generation.resolve "x" g = .ok (.slot (addressLimit - 1)) g := by
  obtain ⟨g, hcompile, hfunction, hresolve⟩ := resolve_of_too_many_params (g := {}) rfl (by decide)
    "f" "x" (Nat.lt_succ_self addressLimit) (block .sequence [])
  refine ⟨_, g, rfl, hcompile, hfunction, fun hempty => ?_, hresolve⟩
  have hslot : g.scope.slot? "x" = none := by
    rw [hempty]
    rfl
  simp only [Generation.resolve, Step.bind_apply, Step.get_apply, hslot] at hresolve
  split at hresolve <;> cases hresolve

end Tree

end Backpatch
