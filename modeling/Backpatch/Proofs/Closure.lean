import Backpatch.Proofs.Layout

/-!
# What generation lifts

Generation is made of few steps: an instruction is appended, a jump is reserved or patched, a name or a
literal gets its identifier, and the body of a function is generated in its scope. A property of steps
that holds of these and is kept where one step comes after another therefore holds of the generation of
every tree. This is said once (`Tree.compile_of_lifts`), for properties that may depend on what the tree
holds (`Tree.contents`): how many instructions, how many trees, and which functions.

Where a property holds of every patch, whatever the label, nothing has to be said about loops and
conditionals (`Generation.StepLifts.lifts`). Where it depends on which jump is patched, they are given
as a whole.
-/

namespace Backpatch

/-! ## The state after a step -/

namespace Step

variable {σ τ α β : Type}

/-- The state after a step, whether it fails or not. -/
def after (x : Step σ α) (s : σ) : σ :=
  match x s with
  | .ok _ s => s
  | .error _ s => s

/-- The state after a step that succeeds. -/
theorem after_of_ok {x : Step σ α} {s s' : σ} {a : α} (h : x s = .ok a s') : x.after s = s' := by
  rw [after, h]

/-- The state after a step that fails. -/
theorem after_of_error {x : Step σ α} {s s' : σ} {e : GenerationError} (h : x s = .error e s') :
    x.after s = s' := by
  rw [after, h]

/-- After a step that succeeds, the state is the one that the next step leaves. -/
theorem after_bind_of_ok {x : Step σ α} {f : α → Step σ β} {s t : σ} {a : α} (h : x s = .ok a t) :
    (x >>= f).after s = (f a).after t := by
  rw [after, bind_apply, h]
  rfl

/-- After a step that fails, the next step is not taken. -/
theorem after_bind_of_error {x : Step σ α} {f : α → Step σ β} {s t : σ} {e : GenerationError}
    (h : x s = .error e t) : (x >>= f).after s = t := by
  rw [after, bind_apply, h]

/-- The state after a step on a part. -/
theorem after_within (part : σ → τ) (replace : σ → τ → σ) (x : Step τ α) (s : σ) :
    (within part replace x).after s = replace s (x.after (part s)) := by
  unfold after within
  cases x (part s) <;> rfl

end Step

namespace Generation

/-- A step on the code leaves all else as it is. -/
theorem after_onBuffer {α : Type} (y : Step CodeBuffer α) (g : Generator) :
    (onBuffer y).after g = { g with buffer := y.after g.buffer } := by
  unfold Step.after
  rw [onBuffer_apply]
  cases y g.buffer <;> rfl

/-- Closing the scope comes last. -/
theorem after_leaving (body : Generation Unit) (g : Generator) :
    (leaving body).after g = leaveScope (body.after g) := by
  unfold Step.after leaving
  cases body g <;> rfl

/-- Inside the body of a function no other is entered, and the attempt changes nothing. -/
theorem enterScope_of_some {g : Generator} {outer : String} (h : g.scope.function = some outer)
    (function : String) (params : List String) :
    enterScope function params g = .error (.nestedFunction outer function) g := by
  simp only [enterScope, Step.bind_apply, Step.within, FunctionScope.enter_of_some h]

/-- Inside the body of a function no other is generated. -/
theorem inScope_of_some {g : Generator} {outer : String} (h : g.scope.function = some outer)
    (function : String) (params : List String) (body : Generation Unit) :
    inScope function params body g = .error (.nestedFunction outer function) g := by
  rw [inScope, Step.bind_apply, enterScope_of_some h]

/-- Outside all functions one is entered if there are slots for its parameters. -/
theorem enterScope_of_le {g : Generator} (h : g.scope.function = none) (function : String)
    {params : List String} (hlen : params.length ≤ addressLimit) :
    enterScope function params g =
      .ok () { g with
        scope := ⟨some function, FunctionScope.slotsOf params⟩
        events := g.events.push (.entered function (FunctionScope.slotsOf params).length) } := by
  simp only [enterScope, Step.bind_apply, Step.within, FunctionScope.enter_of_none h function hlen,
    Step.get_apply]
  rfl

/-- A function with more parameters than there are slots is not entered, but those before the last
slot have theirs. -/
theorem enterScope_of_lt {g : Generator} (h : g.scope.function = none) (function : String)
    {params : List String} (hlen : addressLimit < params.length) :
    enterScope function params g = .error (.tableFull addressLimit)
      { g with scope := ⟨none, FunctionScope.slotsOf (params.take addressLimit)⟩ } := by
  simp only [enterScope, Step.bind_apply, Step.within, FunctionScope.enter, h,
    if_neg (Nat.not_le.mpr hlen)]

end Generation

/-! ## What a tree holds -/

namespace Tree

mutual

/-- The number of trees within a tree. -/
def nodes : Tree → Nat
  | block _ items => nodesAll items + 1
  | store _ _ value => value.nodes + 1
  | read _ _ => 1
  | function _ _ body => body.nodes + 1
  | print argument => argument.nodes + 1
  | loop test body => test.nodes + body.nodes + 1
  | call _ arguments => nodesAll arguments + 1
  | conditional test consequent alternate => test.nodes + consequent.nodes + alternate.nodes + 1
  | binary _ left right => left.nodes + right.nodes + 1
  | unary _ operand => operand.nodes + 1
  | literal _ => 1

/-- The number of trees within a list of trees. -/
def nodesAll : List Tree → Nat
  | [] => 0
  | t :: ts => t.nodes + nodesAll ts

end

/-- The name and the parameters of a function. -/
def declaration? : Tree → Option (String × List String)
  | function name params _ => some (name, params)
  | _ => none

/-- The functions declared in a tree, in the order of their declarations. -/
def declarations (t : Tree) : List (String × List String) :=
  t.preorder.filterMap declaration?

/-- The functions declared in a list of trees, in the order of their declarations. -/
def declarationsAll (ts : List Tree) : List (String × List String) :=
  (preorderAll ts).filterMap declaration?

end Tree

/-- What a stretch of generation may use up, and the functions that it declares. -/
structure Contents where
  /-- How many instructions there are. -/
  code : Nat := 0
  /-- How many identifiers of each kind may be new. -/
  identifiers : Nat := 0
  /-- The functions, each by its name and its parameters, in the order of their declarations. -/
  functions : List (String × List String) := []

namespace Contents

/-- One stretch after another holds what both of them hold. -/
instance : Append Contents where
  append c c' := ⟨c.code + c'.code, c.identifiers + c'.identifiers, c.functions ++ c'.functions⟩

/-- What uses up less and declares the same. -/
instance : LE Contents where
  le c c' := c.code ≤ c'.code ∧ c.identifiers ≤ c'.identifiers ∧ c.functions = c'.functions

/-- The instructions of both stretches. -/
@[simp]
theorem code_append (c c' : Contents) : (c ++ c').code = c.code + c'.code :=
  rfl

/-- The identifiers of both stretches. -/
@[simp]
theorem identifiers_append (c c' : Contents) :
    (c ++ c').identifiers = c.identifiers + c'.identifiers :=
  rfl

/-- The functions of both stretches. -/
@[simp]
theorem functions_append (c c' : Contents) : (c ++ c').functions = c.functions ++ c'.functions :=
  rfl

/-- What it is for one stretch to hold less than another. -/
theorem le_iff {c c' : Contents} : c ≤ c' ↔
    c.code ≤ c'.code ∧ c.identifiers ≤ c'.identifiers ∧ c.functions = c'.functions :=
  Iff.rfl

end Contents

namespace Tree

/-- What a tree holds. -/
def contents (t : Tree) : Contents :=
  ⟨t.size, t.nodes, t.declarations⟩

/-- What a list of trees holds. -/
def contentsAll (ts : List Tree) : Contents :=
  ⟨sizeAll ts, nodesAll ts, declarationsAll ts⟩

/-- A list of trees holds what its first tree and the others hold. -/
theorem contentsAll_cons (t : Tree) (ts : List Tree) :
    contentsAll (t :: ts) = t.contents ++ contentsAll ts := by
  rw [contentsAll, sizeAll, nodesAll, declarationsAll, preorderAll, List.filterMap_append]
  rfl

end Tree

/-! ## Properties that generation lifts -/

namespace Generation

variable {P : (α : Type) → Contents → Generation α → Prop}

/-- A property of steps with given contents that holds of the steps that take no address, and of one
step after another. -/
structure Composes (P : (α : Type) → Contents → Generation α → Prop) : Prop where
  /-- The contents may be raised. -/
  mono : ∀ {α : Type} {c c' : Contents} {x : Generation α}, P α c x → c ≤ c' → P α c' x
  /-- A step that only gives a result. -/
  pure : ∀ {α : Type} (a : α), P α {} (pure a)
  /-- A step that looks at the generator. -/
  get : P Generator {} get
  /-- One step after another. -/
  bind : ∀ {α β : Type} {c c' : Contents} {x : Generation α} {f : α → Generation β},
    P α c x → (∀ a, P β c' (f a)) → P β (c ++ c') (x >>= f)
  /-- The identifier of a global. -/
  intern : ∀ name, P Nat { identifiers := 1 } (intern name)
  /-- The identifier of a literal. -/
  addConstant : ∀ v, P Nat { identifiers := 1 } (addConstant v)
  /-- A step in the scope of a function. -/
  inScope : ∀ {c : Contents} {body : Generation Unit} (name : String) (params : List String),
    P Unit c body → P Unit ({ functions := [(name, params)] } ++ c) (inScope name params body)

/-- A property that generation lifts from the parts of a tree to the tree. -/
structure Lifts (P : (α : Type) → Contents → Generation α → Prop) : Prop extends Composes P where
  /-- An instruction that is no jump. -/
  emit : ∀ opcode : Opcode, opcode.isJump = false → ∀ operand display,
    P Unit { code := 1 } (emit opcode operand display)
  /-- A loop. -/
  loop : ∀ {test body : Tree}, P Unit test.contents test.compile →
    P Unit body.contents body.compile → P Unit (Tree.loop test body).contents (Tree.loop test body).compile
  /-- A conditional. -/
  conditional : ∀ {test consequent alternate : Tree}, P Unit test.contents test.compile →
    P Unit consequent.contents consequent.compile → P Unit alternate.contents alternate.compile →
    P Unit (Tree.conditional test consequent alternate).contents
      (Tree.conditional test consequent alternate).compile

/-- One step after another, within the contents of both. -/
theorem Composes.seq (h : Composes P) {α β : Type} {c c' : Contents} (d : Contents) {x : Generation α}
    {f : α → Generation β} (hx : P α c x) (hf : ∀ a, P β d (f a)) (hle : c ++ d ≤ c') :
    P β c' (x >>= f) :=
  h.mono (h.bind hx hf) hle

namespace Lifts

/-- The store to a name. -/
theorem store (h : Lifts P) (name : String) : P Unit { code := 1, identifiers := 1 } (store name) :=
  h.bind (h.intern name) fun _ => h.emit .storeName rfl _ _

/-- The place of a name. -/
theorem resolve (h : Lifts P) (name : String) : P Place { identifiers := 1 } (resolve name) := by
  refine h.seq { identifiers := 1 } h.get (fun g => ?_) ⟨Nat.le_refl _, Nat.le_refl _, rfl⟩
  split
  · exact h.mono (h.pure _) ⟨Nat.le_refl _, Nat.le_succ _, rfl⟩
  · exact h.bind (h.intern name) fun _ => h.pure _

/-- The read of a name. -/
theorem load (h : Lifts P) (name : String) : P Unit { code := 1, identifiers := 1 } (load name) := by
  refine h.seq { code := 1 } (h.resolve name) (fun place => ?_)
    ⟨Nat.le_refl _, Nat.le_refl _, rfl⟩
  cases place <;> exact h.emit _ rfl _ _

end Lifts

end Generation

section

-- A tree is compared with its parts by what they hold.
attribute [local simp] Contents.le_iff Tree.contents Tree.contentsAll Tree.size Tree.nodes
  Tree.declarations Tree.declarationsAll Tree.preorder Tree.declaration? List.filterMap_cons

namespace Tree

open Generation

mutual

/-- What generation lifts holds of the generation of every tree. -/
theorem compile_of_lifts {P : (α : Type) → Contents → Generation α → Prop} (h : Lifts P) :
    ∀ t : Tree, P Unit t.contents t.compile
  | block _ items => by
    rw [compile]
    refine h.mono (compileAll_of_lifts h items) ?_
    simp
  | store _ name value => by
    rw [compile]
    refine h.seq _ (compile_of_lifts h value) (fun _ => h.store name) ?_
    simp
  | read _ name => by
    rw [compile]
    exact h.load name
  | function name params body => by
    rw [compile]
    -- The name is stored while the scope of the function is still open.
    have hbody := h.inScope name params (h.bind (compile_of_lifts h body) fun _ => h.store name)
    refine h.seq _ (h.emit .makeFunction rfl none none) (fun _ => hbody) ?_
    simp
    omega
  | print argument => by
    rw [compile]
    refine h.seq _ (compile_of_lifts h argument) (fun _ => h.emit .callBuiltin rfl _ _) ?_
    simp
  | loop test body => h.loop (compile_of_lifts h test) (compile_of_lifts h body)
  | call callee arguments => by
    rw [compile]
    -- The callee is loaded before its arguments, and called behind them.
    have harguments := h.bind (compileAll_of_lifts h arguments) fun _ => h.emit .call rfl none none
    refine h.seq _ (h.load callee) (fun _ => harguments) ?_
    simp
    omega
  | conditional test consequent alternate =>
    h.conditional (compile_of_lifts h test) (compile_of_lifts h consequent)
      (compile_of_lifts h alternate)
  | binary op left right => by
    rw [compile]
    have hright := h.bind (compile_of_lifts h right) fun _ =>
      h.emit .binary rfl (some op.code) (some op.symbol)
    refine h.seq _ (compile_of_lifts h left) (fun _ => hright) ?_
    simp
    omega
  | unary op operand => by
    rw [compile]
    refine h.seq _ (compile_of_lifts h operand) (fun _ => h.emit op.opcode op.isJump_opcode _ _) ?_
    simp
  | literal v => by
    rw [compile]
    exact h.bind (h.addConstant v) fun _ => h.emit .loadConst rfl _ _

/-- What generation lifts holds of the generation of every list of trees. -/
theorem compileAll_of_lifts {P : (α : Type) → Contents → Generation α → Prop} (h : Lifts P) :
    ∀ ts : List Tree, P Unit (contentsAll ts) (compileAll ts)
  | [] => h.pure ()
  | t :: ts => by
    rw [compileAll, contentsAll_cons]
    exact h.bind (compile_of_lifts h t) fun _ => compileAll_of_lifts h ts

end

end Tree

namespace Generation

/-- A property that holds of every step of generation, whichever jump is appended or patched. -/
structure StepLifts (P : (α : Type) → Contents → Generation α → Prop) : Prop extends Composes P where
  /-- An instruction. -/
  emit : ∀ opcode operand display, P Unit { code := 1 } (emit opcode operand display)
  /-- The next address. -/
  nextAddress : P Nat {} nextAddress
  /-- A jump without a target. -/
  reserve : ∀ branch, P Label { code := 1 } (reserve branch)
  /-- The target of a jump. -/
  patch : ∀ label, P Unit {} (patch label)

/-- Such a property is lifted through loops and conditionals too. -/
theorem StepLifts.lifts {P : (α : Type) → Contents → Generation α → Prop} (h : StepLifts P) :
    Lifts P where
  toComposes := h.toComposes
  emit opcode _ := h.emit opcode
  loop {test body} htest hbody := by
    -- From the last steps to the first, since a step is composed with all those behind it.
    have hend (start : Nat) (toEnd : Label) := h.bind (h.emit .jump (some start) none) fun _ =>
      h.patch toEnd
    have hexit (start : Nat) := h.bind (h.reserve .ifFalse) fun toEnd =>
      h.bind hbody fun _ => hend start toEnd
    rw [Tree.compile]
    refine h.seq _ h.nextAddress (fun start => h.bind htest fun _ => hexit start) ?_
    simp
    omega
  conditional {test consequent alternate} htest hconsequent halternate := by
    have hend (toEnd : Label) := h.bind halternate fun _ => h.patch toEnd
    have hjump (toAlternate : Label) := h.bind (h.reserve .always) fun toEnd =>
      h.bind (h.patch toAlternate) fun _ => hend toEnd
    have hbranches := h.bind (h.reserve .ifFalse) fun toAlternate =>
      h.bind hconsequent fun _ => hjump toAlternate
    rw [Tree.compile]
    refine h.seq _ htest (fun _ => hbranches) ?_
    simp
    omega

end Generation

end

end Backpatch
