import Backpatch.Proofs.Faults
import Mathlib.Algebra.Group.Nat.Defs

/-!
# When generation fails

The one fault of a tree is a function declared inside the body of another. What generation uses up is
bounded by what the tree holds, whether it fails or not, and where there is room for that much it does
not fail for want of it (`Tree.uses_compile`). So a tree of moderate size fails at the first function
inside another, in the order in which generation reaches them, and at nothing else
(`Tree.generate_fails_iff_nested`).
-/

namespace Backpatch

namespace Tree

/-- The parameters of every function among some trees can be numbered. -/
def ParamsFit (ts : List Tree) : Prop :=
  ∀ name params body, function name params body ∈ ts → params.length < addressLimit

/-- Some function within the tree is declared inside the body of another. -/
def HasNesting (t : Tree) : Prop :=
  ∃ outer params body, function outer params body ∈ t.preorder ∧
    ∃ inner params' body', function inner params' body' ∈ body.preorder

/-! ## What a tree uses up -/

mutual

/-- A tree has at most two instructions for each tree within it. -/
theorem size_le : ∀ t : Tree, t.size ≤ 2 * t.nodes
  | block _ items => by
    have := sizeAll_le items
    rw [size, nodes]
    omega
  | store _ _ value => by
    have := size_le value
    rw [size, nodes]
    omega
  | read _ _ => by rw [size, nodes]; decide
  | function _ _ body => by
    have := size_le body
    rw [size, nodes]
    omega
  | print argument => by
    have := size_le argument
    rw [size, nodes]
    omega
  | loop test body => by
    have := size_le test
    have := size_le body
    rw [size, nodes]
    omega
  | call _ arguments => by
    have := sizeAll_le arguments
    rw [size, nodes]
    omega
  | conditional test consequent alternate => by
    have := size_le test
    have := size_le consequent
    have := size_le alternate
    rw [size, nodes]
    omega
  | binary _ left right => by
    have := size_le left
    have := size_le right
    rw [size, nodes]
    omega
  | unary _ operand => by
    have := size_le operand
    rw [size, nodes]
    omega
  | literal _ => by rw [size, nodes]; decide

/-- A list of trees has at most two instructions for each tree within it. -/
theorem sizeAll_le : ∀ ts : List Tree, sizeAll ts ≤ 2 * nodesAll ts
  | [] => Nat.zero_le _
  | t :: ts => by
    have := size_le t
    have := sizeAll_le ts
    rw [sizeAll, nodesAll]
    omega

end

end Tree

/-! ## What a step uses up -/

namespace Step

variable {σ α β : Type}

/-- A step that makes `size` greater by at most `n`, whether it fails or not. -/
def Raises (size : σ → Nat) (n : Nat) (x : Step σ α) : Prop :=
  ∀ s, size (x.after s) ≤ size s + n

namespace Raises

variable {size : σ → Nat} {x : Step σ α} {f : α → Step σ β} {m n : Nat}

/-- What two steps use up adds up. -/
theorem bind (hx : x.Raises size m) (hf : ∀ a, (f a).Raises size n) :
    (x >>= f).Raises size (m + n) := by
  intro s
  have hs := hx s
  cases h : x s with
  | ok a t =>
    rw [after_of_ok h] at hs
    have ht := hf a t
    rw [after_bind_of_ok h]
    omega
  | error e t =>
    rw [after_of_error h] at hs
    rw [after_bind_of_error h]
    omega

/-- A bound may be raised. -/
theorem mono (hx : x.Raises size m) (hle : m ≤ n) : x.Raises size n := by
  intro s
  have hs := hx s
  omega

/-- A step that keeps `size` uses nothing up. -/
theorem of_eq (h : ∀ s, size (x.after s) = size s) : x.Raises size 0 :=
  fun s => Nat.le_of_eq (h s)

end Raises

end Step

namespace CodeBuffer

/-- The next address takes no room. -/
theorem raises_nextAddress : nextAddress.Raises (·.code.size) 0 := by
  refine .of_eq fun b => ?_
  by_cases h : b.code.size < addressLimit <;> simp [Step.after, nextAddress, h]

/-- An instruction takes up one address. -/
theorem raises_emit (opcode : Opcode) (operand : Option Nat) (display : Option String) :
    (emit opcode operand display).Raises (·.code.size) 1 := by
  have h : (emit opcode operand display).Raises (·.code.size) (0 + 1) :=
    raises_nextAddress.bind fun _ _ => Nat.le_of_eq (Array.size_push _)
  exact h

/-- A reserved jump takes up one address. -/
theorem raises_reserve (branch : Branch) : (reserve branch).Raises (·.code.size) 1 :=
  (raises_emit _ _ _).bind fun _ => .of_eq fun _ => rfl

/-- A patch takes no room. -/
theorem raises_patch (label : Label) : (patch label).Raises (·.code.size) 0 := by
  refine raises_nextAddress.bind fun target => .of_eq fun b => ?_
  by_cases hmem : label.address ∈ b.pending
  · cases hi : b.code[label.address]? <;> simp [Step.after, patchTo, hmem, hi]
  · rw [Step.after_of_error (patchTo_of_not_mem hmem target)]

end CodeBuffer

/-- A key takes up one identifier at most. -/
theorem SymbolTable.raises_intern {κ : Type} [DecidableEq κ] (key : κ) :
    (intern key).Raises (·.keys.length) 1 := by
  intro t
  cases hid : t.id? key with
  | some id =>
    rw [Step.after_of_ok (intern_of_id? hid)]
    exact Nat.le_succ _
  | none =>
    by_cases hlt : t.keys.length < addressLimit
    · rw [Step.after_of_ok (intern_of_id?_eq_none hid hlt)]
      exact Nat.le_of_eq List.length_append
    · rw [Step.after_of_error (intern_of_full hid (Nat.le_of_not_lt hlt))]
      exact Nat.le_succ _

/-- A literal takes up one identifier at most. -/
theorem LiteralPool.raises_add (v : Value) : (add v).Raises (·.classes.keys.length) 1 := by
  have hclass : (internClass v).Raises (·.classes.keys.length) 1 := fun p => by
    unfold internClass
    rw [Step.after_within]
    exact SymbolTable.raises_intern v.canonical p.classes
  refine hclass.bind fun id => .of_eq fun p => ?_
  show (if id = p.constants.length then { p with constants := p.constants ++ [v] } else p
    : LiteralPool).classes.keys.length = _
  split <;> rfl

/-! ## Room for what a step uses up -/

/-- There is room for what is held by `c`: addresses with one more behind them, identifiers of each kind,
and slots for the parameters. -/
structure Generator.HasRoom (g : Generator) (c : Contents) : Prop where
  /-- The code may grow and still have a next address. -/
  code : g.buffer.code.size + c.code < addressLimit
  /-- The globals may grow. -/
  names : g.names.keys.length + c.identifiers ≤ addressLimit
  /-- The literals may grow. -/
  literals : g.literals.classes.keys.length + c.identifiers ≤ addressLimit
  /-- Every function has slots for its parameters. -/
  params : ∀ declaration ∈ c.functions, declaration.2.length ≤ addressLimit

namespace Generator.HasRoom

variable {g g' : Generator} {c c' : Contents}

/-- Who needs less has room too. -/
theorem mono (h : g.HasRoom c') (hle : c ≤ c') : g.HasRoom c := by
  obtain ⟨hcode, hidentifiers, hfunctions⟩ := hle
  obtain ⟨code, names, literals, params⟩ := h
  exact ⟨by omega, by omega, by omega, hfunctions ▸ params⟩

/-- Who has room for both has room for the first. -/
theorem left (h : g.HasRoom (c ++ c')) : g.HasRoom c := by
  obtain ⟨code, names, literals, params⟩ := h
  simp only [Contents.code_append, Contents.identifiers_append] at code names literals
  exact ⟨by omega, by omega, by omega, fun d hd => params d (List.mem_append_left _ hd)⟩

/-- Who has room for both has room for the second after the first. -/
theorem right (h : g.HasRoom (c ++ c')) (hcode : g'.buffer.code.size ≤ g.buffer.code.size + c.code)
    (hnames : g'.names.keys.length ≤ g.names.keys.length + c.identifiers)
    (hliterals : g'.literals.classes.keys.length ≤
      g.literals.classes.keys.length + c.identifiers) : g'.HasRoom c' := by
  obtain ⟨code, names, literals, params⟩ := h
  simp only [Contents.code_append, Contents.identifiers_append] at code names literals
  exact ⟨by omega, by omega, by omega, fun d hd => params d (List.mem_append_right _ hd)⟩

/-- There is a next address. -/
theorem size_lt (h : g.HasRoom c) : g.buffer.code.size < addressLimit :=
  Nat.lt_of_le_of_lt (Nat.le_add_right _ _) h.code

end Generator.HasRoom

namespace Generation

/-- A step that uses up at most `c`, whether it fails or not, and does not fail for want of room where
there is room for that. -/
structure Uses {α : Type} (c : Contents) (x : Generation α) : Prop where
  /-- The instructions that it appends. -/
  code : x.Raises (·.buffer.code.size) c.code
  /-- The globals that it adds. -/
  names : x.Raises (·.names.keys.length) c.identifiers
  /-- The classes of literals that it adds. -/
  literals : x.Raises (·.literals.classes.keys.length) c.identifiers
  /-- With room it does not fail for want of room. -/
  room : ∀ g : Generator, g.HasRoom c → ∀ e g', x g = .error e g' → e.isLimit = false

namespace Uses

variable {α β : Type} {x : Generation α} {f : α → Generation β} {c c' : Contents}

/-- What two steps use up adds up. -/
theorem bind (hx : Uses c x) (hf : ∀ a, Uses c' (f a)) : Uses (c ++ c') (x >>= f) where
  code := hx.code.bind fun a => (hf a).code
  names := hx.names.bind fun a => (hf a).names
  literals := hx.literals.bind fun a => (hf a).literals
  room := by
    intro g hroom e g' h
    rw [Step.bind_apply] at h
    cases hx' : x g with
    | ok a g₁ =>
      rw [hx'] at h
      have hcode := hx.code g
      have hnames := hx.names g
      have hliterals := hx.literals g
      rw [Step.after_of_ok hx'] at hcode hnames hliterals
      -- What the first step has used up leaves room for the second.
      exact (hf a).room g₁ (hroom.right hcode hnames hliterals) e g' h
    | error e₁ g₁ =>
      rw [hx'] at h
      cases h
      exact hx.room g hroom.left _ _ hx'

/-- A bound may be raised. -/
theorem mono (hx : Uses c x) (hle : c ≤ c') : Uses c' x where
  code := hx.code.mono hle.1
  names := hx.names.mono hle.2.1
  literals := hx.literals.mono hle.2.1
  room := fun g hroom => hx.room g (hroom.mono hle)

/-- A step that succeeds and keeps the code and the tables. -/
theorem of_ok (h : ∀ g, ∃ a g', x g = .ok a g' ∧ g'.buffer = g.buffer ∧ g'.names = g.names ∧
    g'.literals = g.literals) : Uses {} x := by
  refine ⟨.of_eq fun g => ?_, .of_eq fun g => ?_, .of_eq fun g => ?_, fun g _ e g' he => ?_⟩
  all_goals obtain ⟨a, g₁, hok, hbuffer, hnames, hliterals⟩ := h g
  · rw [Step.after_of_ok hok, hbuffer]
  · rw [Step.after_of_ok hok, hnames]
  · rw [Step.after_of_ok hok, hliterals]
  · rw [hok] at he
    cases he

/-- A step on the code that fails for want of addresses only where there are none. -/
theorem onBuffer {y : Step CodeBuffer α} {k : Nat} (h : y.Raises (·.code.size) k)
    (hlimit : ∀ b : CodeBuffer, b.code.size < addressLimit → ∀ e b', y b = .error e b' →
      e.isLimit = false) : Uses { code := k } (onBuffer y) := by
  refine ⟨fun g => ?_, .of_eq fun g => ?_, .of_eq fun g => ?_, fun g hroom e g' he => ?_⟩
  · rw [after_onBuffer]
    exact h g.buffer
  · rw [after_onBuffer]
  · rw [after_onBuffer]
  · rw [onBuffer_apply] at he
    split at he
    · cases he
    · next hy =>
      cases he
      exact hlimit g.buffer hroom.size_lt _ _ hy

end Uses

/-- An instruction takes an address. -/
theorem uses_emit (opcode : Opcode) (operand : Option Nat) (display : Option String) :
    Uses { code := 1 } (emit opcode operand display) := by
  refine (Uses.onBuffer (CodeBuffer.raises_emit opcode operand display) ?_).bind fun _ =>
    .of_ok fun g => ⟨(), g, rfl, rfl, rfl, rfl⟩
  intro b hlt e b' he
  rw [CodeBuffer.emit_of_lt hlt] at he
  cases he

/-- The next address is not taken yet. -/
theorem uses_nextAddress : Uses {} nextAddress := by
  refine Uses.onBuffer CodeBuffer.raises_nextAddress fun b hlt e b' he => ?_
  rw [CodeBuffer.nextAddress_of_lt hlt] at he
  cases he

/-- A jump takes an address. -/
theorem uses_reserve (branch : Branch) : Uses { code := 1 } (reserve branch) := by
  refine Uses.onBuffer (CodeBuffer.raises_reserve branch) fun b hlt e b' he => ?_
  rw [CodeBuffer.reserve_of_lt hlt] at he
  cases he

/-- A patch takes nothing, and what is not pending is refused for another reason than want of room. -/
theorem uses_patch (label : Label) : Uses {} (patch label) := by
  have hreport (event : Event) : Uses {} (report event) :=
    .of_ok fun g => ⟨(), { g with events := g.events.push event }, rfl, rfl, rfl, rfl⟩
  refine (Uses.onBuffer (CodeBuffer.raises_patch label) ?_).bind hreport
  intro b hlt e b' he
  rw [CodeBuffer.patch_of_lt hlt, CodeBuffer.patchTo] at he
  split at he
  · dsimp only at he
    split at he <;> cases he
    rfl
  · cases he
    rfl

/-- A name takes an identifier at most. -/
theorem uses_intern (name : String) : Uses { identifiers := 1 } (intern name) := by
  have hafter (g) : (intern name).after g =
      { g with names := (SymbolTable.intern name).after g.names } := Step.after_within _ _ _ g
  refine ⟨.of_eq fun g => ?_, fun g => ?_, fun g => ?_, fun g hroom e g' he => ?_⟩
  · rw [hafter]
  · rw [hafter]
    exact SymbolTable.raises_intern name g.names
  · rw [hafter]
    exact Nat.le_succ _
  · simp only [intern, Step.within, SymbolTable.intern_of_lt (Nat.lt_of_succ_le hroom.names)] at he
    cases he

/-- A literal takes an identifier at most. -/
theorem uses_addConstant (v : Value) : Uses { identifiers := 1 } (addConstant v) := by
  have hafter (g) : (addConstant v).after g =
      { g with literals := (LiteralPool.add v).after g.literals } := Step.after_within _ _ _ g
  refine ⟨.of_eq fun g => ?_, fun g => ?_, fun g => ?_, fun g hroom e g' he => ?_⟩
  · rw [hafter]
  · rw [hafter]
    exact Nat.le_succ _
  · rw [hafter]
    exact LiteralPool.raises_add v g.literals
  · simp only [addConstant, Step.within,
      LiteralPool.add_of_lt (Nat.lt_of_succ_le hroom.literals)] at he
    cases he

/-- A function takes slots for its parameters, and one inside another is refused for another reason
than want of room. -/
theorem uses_enterScope (name : String) (params : List String) :
    Uses { functions := [(name, params)] } (enterScope name params) := by
  -- Whether it is entered or refused, the code and the tables stay.
  have hafter (g : Generator) : ((enterScope name params).after g).buffer = g.buffer ∧
      ((enterScope name params).after g).names = g.names ∧
      ((enterScope name params).after g).literals = g.literals := by
    cases hf : g.scope.function with
    | some outer => rw [Step.after_of_error (enterScope_of_some hf name params)]; simp
    | none =>
      rcases Nat.lt_or_ge addressLimit params.length with hlt | hle
      · rw [Step.after_of_error (enterScope_of_lt hf name hlt)]; simp
      · rw [Step.after_of_ok (enterScope_of_le hf name hle)]; simp
  refine ⟨.of_eq fun g => by rw [(hafter g).1], .of_eq fun g => by rw [(hafter g).2.1],
    .of_eq fun g => by rw [(hafter g).2.2], fun g hroom e g' he => ?_⟩
  cases hf : g.scope.function with
  | some outer =>
    rw [enterScope_of_some hf] at he
    cases he
    rfl
  | none =>
    rw [enterScope_of_le hf name (hroom.params _ List.mem_cons_self)] at he
    cases he

/-- To leave a function takes nothing. -/
theorem Uses.leaving {c : Contents} {body : Generation Unit} (h : Uses c body) :
    Uses c (leaving body) := by
  have hleave (g) : (leaveScope g).buffer = g.buffer ∧ (leaveScope g).names = g.names ∧
      (leaveScope g).literals = g.literals := by
    unfold leaveScope
    split <;> exact ⟨rfl, rfl, rfl⟩
  refine ⟨fun g => ?_, fun g => ?_, fun g => ?_, fun g hroom e g' he => ?_⟩
  · rw [after_leaving]
    dsimp only
    rw [(hleave _).1]
    exact h.code g
  · rw [after_leaving]
    dsimp only
    rw [(hleave _).2.1]
    exact h.names g
  · rw [after_leaving]
    dsimp only
    rw [(hleave _).2.2]
    exact h.literals g
  · cases hbody : body g with
    | ok _ g₁ =>
      rw [leaving_of_ok hbody] at he
      cases he
    | error e₁ g₁ =>
      rw [leaving_of_error hbody] at he
      cases he
      exact h.room g hroom _ _ hbody

/-- What is used up adds up along every tree. -/
theorem stepLifts_uses : StepLifts fun _ => Uses where
  mono := Uses.mono
  pure a := .of_ok fun g => ⟨a, g, rfl, rfl, rfl, rfl⟩
  get := .of_ok fun g => ⟨g, g, rfl, rfl, rfl, rfl⟩
  bind := Uses.bind
  intern := uses_intern
  addConstant := uses_addConstant
  inScope name params h := (uses_enterScope name params).bind fun _ => h.leaving
  emit := uses_emit
  nextAddress := uses_nextAddress
  reserve := uses_reserve
  patch := uses_patch

end Generation

namespace Tree

open Generation

/-- Generation of a tree uses up at most what the tree holds, and does not fail for want of room where
there is room for that. -/
theorem uses_compile (t : Tree) : Uses t.contents t.compile :=
  compile_of_lifts stepLifts_uses.lifts t

/-- A list of trees declares functions with parameters that can be numbered. -/
theorem ParamsFit.length_le {ts : List Tree} (h : ParamsFit (preorderAll ts)) :
    ∀ declaration ∈ declarationsAll ts, declaration.2.length ≤ addressLimit := by
  intro declaration hmem
  obtain ⟨u, hu, hdeclaration⟩ := List.mem_filterMap.mp hmem
  cases u with
  | function name params body =>
    cases hdeclaration
    exact Nat.le_of_lt (h name params body hu)
  | _ => cases hdeclaration

/-- At the start there is room for fewer than `2 ^ 31` trees in all and with fewer than `2 ^ 32`
parameters to each function. -/
theorem hasRoom_startAll {ts : List Tree} (hnodes : nodesAll ts < 2 ^ 31)
    (hparams : ParamsFit (preorderAll ts)) : Generator.HasRoom {} (contentsAll ts) := by
  have hsize := sizeAll_le ts
  refine ⟨?_, ?_, ?_, hparams.length_le⟩ <;> simp [contentsAll, addressLimit] <;> omega

/-- At the start there is room for a tree of fewer than `2 ^ 31` trees in all and with fewer than
`2 ^ 32` parameters to each function. -/
theorem hasRoom_start {t : Tree} (hnodes : t.nodes < 2 ^ 31) (hparams : ParamsFit t.preorder) :
    Generator.HasRoom {} t.contents := by
  have hall : Generator.HasRoom {} (contentsAll [t]) :=
    hasRoom_startAll (by simpa [nodesAll] using hnodes) (by simpa [preorderAll] using hparams)
  rw [contentsAll_cons] at hall
  exact hall.left

/-! ## Where functions are nested -/

/-- Whether a tree declares a function. -/
def isFunction : Tree → Bool
  | function _ _ _ => true
  | _ => false

/-- Whether a tree declares a function with another one in its body. -/
def isNest : Tree → Bool
  | function _ _ body => body.preorder.any isFunction
  | _ => false

/-- Whether a tree has a fault of its own: inside a function, a declaration, and outside, one with
another in its body. -/
def isFault : Option String → Tree → Bool
  | some _ => isFunction
  | none => isNest

/-- A tree that declares no function has no fault of its own. -/
theorem isFault_eq_false {t : Tree} (h : t.isFunction = false) (outer : Option String) :
    isFault outer t = false := by
  cases t with
  | function name params body => cases h
  | _ => cases outer <;> rfl

/-- Where no function is declared, none has another in its body. -/
theorem any_isNest_eq_false {us : List Tree} (h : us.any isFunction = false) :
    us.any isNest = false := by
  rw [List.any_eq_false] at h ⊢
  intro u hu
  exact Bool.eq_false_iff.mp (isFault_eq_false (Bool.eq_false_iff.mpr (h u hu)) none)

mutual

/-- Nothing in a tree is nested exactly if no tree within it has a fault of its own. -/
theorem nestings_eq_nil_iff (outer : Option String) :
    ∀ t : Tree, t.nestings outer = [] ↔ t.preorder.any (isFault outer) = false
  | block _ items => by
    rw [nestings, preorder, List.any_cons, isFault_eq_false rfl, Bool.false_or,
      nestingsAll_eq_nil_iff outer items]
  | store _ _ value => by
    rw [nestings, preorder, List.any_cons, isFault_eq_false rfl, Bool.false_or,
      nestings_eq_nil_iff outer value]
  | read _ _ => by
    rw [nestings, preorder, List.any_cons, isFault_eq_false rfl, List.any_nil]
    simp
  | function name _ body => by
    cases outer with
    | some outer => simp [nestings, preorder, isFault, isFunction]
    | none =>
      -- In the body every declaration is a fault, and where there is none there is no nest either.
      have hbody := nestings_eq_nil_iff (some name) body
      rw [nestings, preorder, List.any_cons, Bool.or_eq_false_iff]
      exact ⟨fun h => ⟨hbody.mp h, any_isNest_eq_false (hbody.mp h)⟩, fun h => hbody.mpr h.1⟩
  | print argument => by
    rw [nestings, preorder, List.any_cons, isFault_eq_false rfl, Bool.false_or,
      nestings_eq_nil_iff outer argument]
  | loop test body => by
    rw [nestings, preorder, List.any_cons, isFault_eq_false rfl, Bool.false_or, List.any_append,
      Bool.or_eq_false_iff, List.append_eq_nil_iff, nestings_eq_nil_iff outer test,
      nestings_eq_nil_iff outer body]
  | call _ arguments => by
    rw [nestings, preorder, List.any_cons, isFault_eq_false rfl, Bool.false_or,
      nestingsAll_eq_nil_iff outer arguments]
  | conditional test consequent alternate => by
    rw [nestings, preorder, List.any_cons, isFault_eq_false rfl, Bool.false_or, List.any_append,
      List.any_append, Bool.or_eq_false_iff, Bool.or_eq_false_iff, List.append_eq_nil_iff,
      List.append_eq_nil_iff, nestings_eq_nil_iff outer test,
      nestings_eq_nil_iff outer consequent, nestings_eq_nil_iff outer alternate, and_assoc]
  | binary _ left right => by
    rw [nestings, preorder, List.any_cons, isFault_eq_false rfl, Bool.false_or, List.any_append,
      Bool.or_eq_false_iff, List.append_eq_nil_iff, nestings_eq_nil_iff outer left,
      nestings_eq_nil_iff outer right]
  | unary _ operand => by
    rw [nestings, preorder, List.any_cons, isFault_eq_false rfl, Bool.false_or,
      nestings_eq_nil_iff outer operand]
  | literal _ => by
    rw [nestings, preorder, List.any_cons, isFault_eq_false rfl, List.any_nil]
    simp

/-- Nothing in a list of trees is nested exactly if no tree within it has a fault of its own. -/
theorem nestingsAll_eq_nil_iff (outer : Option String) :
    ∀ ts : List Tree, nestingsAll outer ts = [] ↔ (preorderAll ts).any (isFault outer) = false
  | [] => by simp [nestingsAll, preorderAll]
  | t :: ts => by
    rw [nestingsAll, preorderAll, List.append_eq_nil_iff, List.any_append, Bool.or_eq_false_iff,
      nestings_eq_nil_iff outer t, nestingsAll_eq_nil_iff outer ts]

end

/-- The list of nested declarations has a member exactly if a function is declared inside the body
of another. -/
theorem nestings_ne_nil_iff (t : Tree) : t.nestings none ≠ [] ↔ t.HasNesting := by
  rw [Ne, nestings_eq_nil_iff none t, Bool.not_eq_false, List.any_eq_true]
  constructor
  · rintro ⟨u, hu, hnest⟩
    cases u with
    | function outer params body =>
      obtain ⟨w, hw, hfunction⟩ := List.any_eq_true.mp hnest
      cases w with
      | function inner params' body' => exact ⟨outer, params, body, hu, inner, params', body', hw⟩
      | _ => cases hfunction
    | _ => cases hnest
  · rintro ⟨outer, params, body, hu, inner, params', body', hw⟩
    exact ⟨_, hu, List.any_eq_true.mpr ⟨_, hw, rfl⟩⟩

/-- The two outcomes for a tree of moderate size: it has a program if nothing in it is nested, and else
it fails with the first nested declaration. -/
theorem generate_cases {t : Tree} (hnodes : t.nodes < 2 ^ 31) (hparams : ParamsFit t.preorder) :
    (t.nestings none = [] ∧ ∃ p, t.generate = .ok p) ∨
    ∃ outer inner rest, t.nestings none = (outer, inner) :: rest ∧
      t.generate = .error (.nestedFunction outer inner) := by
  -- With room enough the only fault is a nesting, and the first fault is the first nesting.
  have hroom := t.uses_compile.room {} (hasRoom_start hnodes hparams)
  have hhead : (t.nestings none).head? = t.fault?.map fun fault => (fault.outer, fault.inner) :=
    head?_nestings t {}
  rcases Generator.compile_cases rfl hroom with ⟨g, hok, hfault, -⟩ | ⟨fault, g, herror, hfault, -⟩
  · rw [hfault] at hhead
    exact .inl ⟨List.head?_eq_none_iff.mp hhead, _, generate_of_compile hok⟩
  · rw [hfault] at hhead
    obtain ⟨rest, hrest⟩ := List.head?_eq_some_iff.mp hhead
    exact .inr ⟨fault.outer, fault.inner, rest, hrest, generate_of_compile_error herror⟩

/-- The exact condition of failure. For a tree of fewer than `2 ^ 31` trees in all and with fewer than
`2 ^ 32` parameters to each function, generation fails if and only if some function is declared inside
the body of another, wherever in it; and it fails with the first such declaration in the order of
generation and with the function around that one. -/
theorem generate_fails_iff_nested (t : Tree) (hnodes : t.nodes < 2 ^ 31)
    (hparams : ParamsFit t.preorder) :
    ((∃ e, t.generate = .error e) ↔ t.HasNesting) ∧
      ∀ e, t.generate = .error e → ∃ outer inner,
        (t.nestings none).head? = some (outer, inner) ∧ e = .nestedFunction outer inner := by
  rw [← nestings_ne_nil_iff]
  -- Generation fails at the first nesting or, if there is none, not at all.
  rcases generate_cases hnodes hparams with ⟨hnil, p, hp⟩ | ⟨outer, inner, rest, hcons, herror⟩
  · rw [hnil, hp]
    refine ⟨⟨?_, fun h => absurd rfl h⟩, ?_⟩
    · rintro ⟨e, he⟩
      cases he
    · intro e he
      cases he
  · rw [hcons, herror]
    refine ⟨⟨fun _ => List.cons_ne_nil _ _, fun _ => ⟨_, rfl⟩⟩, ?_⟩
    intro e he
    cases he
    exact ⟨outer, inner, rfl, rfl⟩

/-- A function declared as the argument of a call in the test of a loop, in the body of another. -/
theorem generate_fails_iff_nested_in_argument :
    ∃ t, t = function "f" ["a"] (loop (call "g" [function "h" [] (literal (.boolean true))])
        (block .sequence [])) ∧ t.generate = .error (.nestedFunction "f" "h") := by
  refine ⟨_, rfl, ?_⟩
  generalize ht : function _ _ _ = t
  have hfit : ParamsFit t.preorder := by
    intro name params body hmem
    subst ht
    simp only [preorder, preorderAll, List.cons_append, List.nil_append, List.mem_cons,
      List.not_mem_nil, or_false, reduceCtorEq, false_or, function.injEq] at hmem
    rcases hmem with ⟨-, rfl, -⟩ | ⟨-, rfl, -⟩ <;> decide
  obtain ⟨hiff, herror⟩ := generate_fails_iff_nested t (by subst ht; decide) hfit
  subst ht
  obtain ⟨e, he⟩ := hiff.mpr ⟨"f", ["a"], _, List.mem_cons_self, "h", [], literal (.boolean true),
    by simp [preorder, preorderAll]⟩
  obtain ⟨outer, inner, hhead, rfl⟩ := herror e he
  cases hhead
  exact he

end Tree

end Backpatch
