import Backpatch.Proofs.Backpatching
import Backpatch.Proofs.Closure

/-!
# What a failure leaves behind

Generation that fails keeps what it has done so far, so the jumps that are open at that point stay
without a target. `Tree.sites` says for each tree within a tree where it stands: at which offset, in
which function, and behind which jumps that are open while its code is generated. Generation fails at
the first function that stands in another one, and leaves exactly the jumps open that this declaration
stands behind (`Tree.ends_compile`). So a tree that is generated has nothing nested in it
(`Tree.nestings_of_compile`).
-/

namespace Backpatch

/-- Whether generation fails for want of addresses or of identifiers. -/
def GenerationError.isLimit : GenerationError → Bool
  | codeFull _ | tableFull _ => true
  | _ => false

/-! ## Where a tree stands -/

/-- A jump that is open while the code behind it is generated: the exit of a loop while its body is,
the jump over the consequent of a conditional while the consequent is, and the jump over its alternate
while the alternate is. -/
structure Guard where
  /-- The kind of jump. -/
  branch : Branch
  /-- How many instructions stand before it. -/
  offset : Nat
deriving DecidableEq, Repr

/-- The place of a tree within another one. -/
structure Site where
  /-- How many instructions stand before it. -/
  offset : Nat := 0
  /-- The function in whose body it stands. -/
  function : Option String := none
  /-- The jumps that it stands behind, the outermost first. -/
  guards : List Guard := []
deriving DecidableEq, Repr

namespace Site

/-- The place after `n` instructions more. -/
def skip (c : Site) (n : Nat) : Site :=
  { c with offset := c.offset + n }

/-- The place behind a jump that stands here. -/
def guarded (c : Site) (branch : Branch) : Site :=
  { c with offset := c.offset + 1, guards := c.guards ++ [⟨branch, c.offset⟩] }

/-- The place in the body of a function that is declared here. -/
def inFunction (c : Site) (name : String) : Site :=
  { c with offset := c.offset + 1, function := some name }

/-- Instructions before a place add up. -/
theorem skip_skip (c : Site) (m n : Nat) : (c.skip m).skip n = c.skip (m + n) := by
  simp only [skip, Nat.add_assoc]

end Site

namespace Tree

mutual

/-- The functions declared inside the body of another, each as the name of the function around it and
its own, in the order in which they are reached; `outer` is the function around the tree. -/
def nestings (outer : Option String) : Tree → List (String × String)
  | block _ items => nestingsAll outer items
  | store _ _ value => value.nestings outer
  | read _ _ => []
  | function name _ body => (outer.map fun o => (o, name)).toList ++ body.nestings (some name)
  | print argument => argument.nestings outer
  | loop test body => test.nestings outer ++ body.nestings outer
  | call _ arguments => nestingsAll outer arguments
  | conditional test consequent alternate =>
    test.nestings outer ++ (consequent.nestings outer ++ alternate.nestings outer)
  | binary _ left right => left.nestings outer ++ right.nestings outer
  | unary _ operand => operand.nestings outer
  | literal _ => []

/-- The functions declared inside the body of another within a list of trees. -/
def nestingsAll (outer : Option String) : List Tree → List (String × String)
  | [] => []
  | t :: ts => t.nestings outer ++ nestingsAll outer ts

end

mutual

/-- The trees within a tree that stands at `c`, each with its place and before the trees below it.
The body of a loop and the branches of a conditional stand behind a jump, and their tests do not. -/
def sites : Tree → Site → List (Tree × Site)
  | t@(block _ items), c => (t, c) :: sitesAll items c
  | t@(store _ _ value), c => (t, c) :: value.sites c
  | t@(read _ _), c => [(t, c)]
  | t@(function name _ body), c => (t, c) :: body.sites (c.inFunction name)
  | t@(print argument), c => (t, c) :: argument.sites c
  | t@(loop test body), c =>
    (t, c) :: (test.sites c ++ body.sites ((c.skip test.size).guarded .ifFalse))
  | t@(call _ arguments), c => (t, c) :: sitesAll arguments (c.skip 1)
  | t@(conditional test consequent alternate), c =>
    (t, c) :: (test.sites c ++ (consequent.sites ((c.skip test.size).guarded .ifFalse) ++
      alternate.sites ((c.skip (test.size + 1 + consequent.size)).guarded .always)))
  | t@(binary _ left right), c => (t, c) :: (left.sites c ++ right.sites (c.skip left.size))
  | t@(unary _ operand), c => (t, c) :: operand.sites c
  | t@(literal _), c => [(t, c)]

/-- The trees within a list of trees of which the first stands at `c`. -/
def sitesAll : List Tree → Site → List (Tree × Site)
  | [], _ => []
  | t :: ts, c => t.sites c ++ sitesAll ts (c.skip t.size)

end

end Tree

/-- A function declared inside the body of another. -/
structure Fault where
  /-- The name of the function around it. -/
  outer : String
  /-- Its own name. -/
  inner : String
  /-- The jumps that it stands behind, the outermost first. -/
  guards : List Guard
deriving DecidableEq, Repr

namespace Tree

/-- The fault that a tree is at its place, if it is one. -/
def faultAt? : Tree × Site → Option Fault
  | (function inner _ _, ⟨_, some outer, guards⟩) => some ⟨outer, inner, guards⟩
  | _ => none

/-- The first function within a tree that is declared inside the body of another. -/
def fault? (t : Tree) : Option Fault :=
  (t.sites {}).findSome? faultAt?

end Tree

/-! ## Steps that fail for want of room only -/

namespace Step

variable {σ τ α β : Type}

/-- A step that fails only for want of addresses or identifiers. -/
def OnlyLimits (x : Step σ α) : Prop :=
  ∀ s e s', x s = .error e s' → e.isLimit = true

/-- Two such steps are one such step. -/
theorem OnlyLimits.bind {x : Step σ α} {f : α → Step σ β} (hx : OnlyLimits x)
    (hf : ∀ a, OnlyLimits (f a)) : OnlyLimits (x >>= f) := by
  intro s e s' h
  rw [bind_apply] at h
  cases hx' : x s with
  | ok a t =>
    rw [hx'] at h
    exact hf a t e s' h
  | error e' t =>
    rw [hx'] at h
    cases h
    exact hx s _ _ hx'

/-- A step that always succeeds. -/
theorem OnlyLimits.of_ok {x : Step σ α} (h : ∀ s, ∃ a s', x s = .ok a s') : OnlyLimits x := by
  intro s e s' he
  obtain ⟨a, t, hok⟩ := h s
  rw [hok] at he
  cases he

/-- A step on a part fails as it does on the part alone. -/
theorem OnlyLimits.within {x : Step τ α} (hx : OnlyLimits x) (part : σ → τ)
    (replace : σ → τ → σ) : OnlyLimits (Step.within part replace x) := by
  intro s e s' h
  unfold Step.within at h
  split at h
  · cases h
  · next he =>
    cases h
    exact hx _ _ _ he

end Step

open Step (OnlyLimits)

namespace CodeBuffer

/-- There is a next address unless the code is full. -/
theorem onlyLimits_nextAddress : OnlyLimits nextAddress := by
  intro b e b' h
  unfold nextAddress at h
  split at h <;> cases h
  rfl

/-- An instruction is added unless the code is full. -/
theorem onlyLimits_emit (opcode : Opcode) (operand : Option Nat) (display : Option String) :
    OnlyLimits (emit opcode operand display) :=
  onlyLimits_nextAddress.bind fun _ => .of_ok fun _ => ⟨_, _, rfl⟩

/-- A jump is reserved unless the code is full. -/
theorem onlyLimits_reserve (branch : Branch) : OnlyLimits (reserve branch) :=
  (onlyLimits_emit _ _ _).bind fun _ => .of_ok fun _ => ⟨_, _, rfl⟩

end CodeBuffer

/-- A key gets an identifier unless the table is full. -/
theorem SymbolTable.onlyLimits_intern {κ : Type} [DecidableEq κ] (key : κ) :
    OnlyLimits (intern key) := by
  intro t e t' h
  unfold intern at h
  split at h
  · cases h
  · split at h <;> cases h
    rfl

namespace Generation

/-- On the code of a generator a step fails as it does on the code alone. -/
theorem onlyLimits_onBuffer {α : Type} {step : Step CodeBuffer α} (h : OnlyLimits step) :
    OnlyLimits (onBuffer step) := by
  intro g e g' he
  rw [onBuffer_apply] at he
  split at he
  · cases he
  · next hstep =>
    cases he
    exact h _ _ _ hstep

/-- A name gets an identifier unless the table is full. -/
theorem onlyLimits_intern (name : String) : OnlyLimits (intern name) :=
  (SymbolTable.onlyLimits_intern name).within _ _

/-- A literal gets an identifier unless the pool is full. -/
theorem onlyLimits_addConstant (v : Value) : OnlyLimits (addConstant v) := by
  refine OnlyLimits.within ?_ _ _
  refine OnlyLimits.bind ?_ fun _ => .of_ok fun _ => ⟨_, _, rfl⟩
  exact (SymbolTable.onlyLimits_intern _).within _ _

/-- A generator emits unless its code is full. -/
theorem onlyLimits_emit (opcode : Opcode) (operand : Option Nat) (display : Option String) :
    OnlyLimits (emit opcode operand display) :=
  (onlyLimits_onBuffer (CodeBuffer.onlyLimits_emit _ _ _)).bind fun _ =>
    .of_ok fun _ => ⟨_, _, rfl⟩

/-- A store fails for want of room only. -/
theorem onlyLimits_store (name : String) : OnlyLimits (store name) :=
  (onlyLimits_intern name).bind fun _ => onlyLimits_emit _ _ _

/-- So does a load, from a slot or from a global. -/
theorem onlyLimits_load (name : String) : OnlyLimits (load name) := by
  have hresolve : OnlyLimits (resolve name) := by
    refine OnlyLimits.bind (.of_ok fun g => ⟨g, g, rfl⟩) fun g => ?_
    split
    · exact .of_ok fun _ => ⟨_, _, rfl⟩
    · exact (onlyLimits_intern name).bind fun _ => .of_ok fun _ => ⟨_, _, rfl⟩
  refine hresolve.bind fun place => ?_
  cases place with
  | slot slot => exact onlyLimits_emit _ _ _
  | global id => exact onlyLimits_emit _ _ _

/-- So does a literal. -/
theorem onlyLimits_literal (v : Value) : OnlyLimits (Tree.literal v).compile := by
  rw [Tree.compile]
  exact (onlyLimits_addConstant v).bind fun _ => onlyLimits_emit _ _ _

/-- While there is a next address, a pending jump that stands in the code can be patched. -/
theorem exists_patch_of_lt {g : Generator} {address : Nat}
    (hroom : g.buffer.code.size < addressLimit) (hmem : address ∈ g.buffer.pending)
    (hlt : address < g.buffer.code.size) : ∃ g', patch ⟨address⟩ g = .ok () g' := by
  have hjump : g.buffer.code[address]? = some g.buffer.code[address] := Array.getElem?_eq_getElem hlt
  have hpatch : CodeBuffer.patch ⟨address⟩ g.buffer = .ok _ _ :=
    (CodeBuffer.patch_of_lt hroom ⟨address⟩).trans (CodeBuffer.patchTo_of_mem hmem hjump _)
  have hok : onBuffer (CodeBuffer.patch ⟨address⟩) g = .ok _ _ :=
    onBuffer_eq_ok_iff.mpr ⟨_, hpatch, rfl⟩
  exact ⟨_, Step.bind_eq_ok_iff.mpr ⟨_, _, hok, rfl⟩⟩

/-- A pending jump that stands in the code is patched while there is a next address. -/
theorem isLimit_of_patch {g g' : Generator} {address : Nat} {e : GenerationError}
    (hmem : address ∈ g.buffer.pending) (hlt : address < g.buffer.code.size)
    (h : patch ⟨address⟩ g = .error e g') : e.isLimit = true := by
  by_cases hroom : g.buffer.code.size < addressLimit
  · obtain ⟨g₁, hok⟩ := exists_patch_of_lt hroom hmem hlt
    rw [hok] at h
    cases h
  · simp only [patch, Step.bind_apply, onBuffer_apply, CodeBuffer.patch, CodeBuffer.nextAddress,
      if_neg hroom] at h
    cases h
    rfl

end Generation

/-! ## How generation ends -/

/-- `g` has grown out of `g₀`, and of the jumps since then those that `guards` tells of are open. -/
structure Generator.Holds (g₀ g : Generator) (guards : List Guard) : Prop where
  /-- The code before is unchanged. -/
  code : g₀.buffer.code.toList <+: g.buffer.code.toList
  /-- The pending jumps are those before and then the ones that are open. -/
  pending : g.buffer.pending =
    g₀.buffer.pending ++ guards.map fun guard => g₀.buffer.code.size + guard.offset
  /-- The open jumps stand at their addresses, without a target. -/
  jumps : ∀ guard ∈ guards, g.buffer.code[g₀.buffer.code.size + guard.offset]? =
    some ⟨g₀.buffer.code.size + guard.offset, guard.branch.opcode, none, none⟩

/-- Generation that began with `g₀` is at the place `c`. -/
structure Generator.Stands (g₀ g : Generator) (c : Site) : Prop where
  /-- The code has as many instructions as the place says. -/
  size : g.buffer.code.size = g₀.buffer.code.size + c.offset
  /-- The function around the code is the one of the place. -/
  function : g.scope.function = c.function
  /-- The open jumps are those of the place. -/
  holds : g₀.Holds g c.guards

/-- Generation begins at the first place of its function. -/
theorem Generator.stands_self (g : Generator) {f : Option String} (h : g.scope.function = f) :
    g.Stands g { function := f } where
  size := rfl
  function := h
  holds :=
    { code := List.prefix_refl _
      pending := (List.append_nil _).symm
      jumps := fun _ hguard => absurd hguard List.not_mem_nil }

/-- Code that grows keeps what it has. -/
theorem getElem?_of_prefix {code code' : Array Instruction} (h : code.toList <+: code'.toList)
    {k : Nat} {i : Instruction} (hi : code[k]? = some i) : code'[k]? = some i := by
  obtain ⟨rest, hrest⟩ := h
  rw [← Array.getElem?_toList] at hi ⊢
  rw [← hrest, List.getElem?_append_left (List.getElem?_eq_some_iff.mp hi).1, hi]

namespace Generator

variable {g₀ g g' : Generator} {c : Site} {guards : List Guard} {code : List Instruction}
  {T : Tables}

/-- What is appended after an open jump leaves it as it is. -/
theorem Holds.continues (h : g₀.Holds g guards) (k : g.Continues g' code [] T) :
    g₀.Holds g' guards where
  code := by
    rw [k.code]
    exact h.code.trans (List.prefix_append _ _)
  pending := by rw [k.pending, List.append_nil, h.pending]
  jumps := fun guard hguard =>
    getElem?_of_prefix (k.code ▸ List.prefix_append _ _) (h.jumps guard hguard)

/-- A jump that ends the code and has no target yet is one more that is open. -/
theorem Holds.guarded (h : g₀.Holds g guards) {guard : Guard} {address : Nat}
    (haddress : address = g₀.buffer.code.size + guard.offset)
    (hend : address = g.buffer.code.size + code.length)
    (k : g.Continues g' (code ++ [⟨address, guard.branch.opcode, none, none⟩]) [address] T) :
    g₀.Holds g' (guards ++ [guard]) where
  code := by
    rw [k.code]
    exact h.code.trans (List.prefix_append _ _)
  pending := by
    rw [k.pending, h.pending, List.map_append, List.append_assoc, haddress, List.map_singleton]
  jumps := by
    -- The jumps before are in the code before, and the new one ends the code.
    intro other hother
    rcases List.mem_append.mp hother with hother | hother
    · exact getElem?_of_prefix (k.code ▸ List.prefix_append _ _) (h.jumps other hother)
    · cases List.mem_singleton.mp hother
      rw [← haddress, ← Array.getElem?_toList, k.code, ← List.append_assoc, hend,
        ← Array.length_toList, ← List.length_append, List.getElem?_concat_length]

/-- Complete code takes generation to the place behind it. -/
theorem Stands.continues (h : g₀.Stands g c) (k : g.Continues g' code [] T)
    (hfunction : g'.scope.function = c.function) : g₀.Stands g' (c.skip code.length) where
  size := by rw [k.size, h.size, Site.skip, Nat.add_assoc]
  function := hfunction
  holds := h.holds.continues k

/-- Code that ends in an open jump takes generation to the place behind that jump. -/
theorem Stands.guarded (h : g₀.Stands g c) (code : List Instruction) {branch : Branch}
    {address : Nat} (hend : address = g.buffer.code.size + code.length)
    (k : g.Continues g' (code ++ [⟨address, branch.opcode, none, none⟩]) [address] T)
    (hfunction : g'.scope.function = c.function) :
    g₀.Stands g' ((c.skip code.length).guarded branch) where
  size := by
    rw [k.size, List.length_append, h.size, List.length_singleton]
    exact (Nat.add_assoc _ _ _).trans (congrArg _ (Nat.add_assoc _ _ _).symm)
  function := hfunction
  holds := by
    refine h.holds.guarded ?_ hend k
    rw [hend, h.size, Site.skip, Nat.add_assoc]

end Generator

/-- How a step of generation ends that began with `g₀`, stands in the function `f` and has `us` within
it. It succeeds if there is no fault among `us`. Else it fails at the first one, with the jumps open
that the fault stands behind, unless there was no room before. In any case it ends in `f`. -/
def Ends {α : Type} (g₀ : Generator) (f : Option String) (us : List (Tree × Site)) :
    EStateM.Result GenerationError Generator α → Prop
  | .ok _ g => us.findSome? Tree.faultAt? = none ∧ g.scope.function = f
  | .error e g => e.isLimit = true ∨ ∃ fault, us.findSome? Tree.faultAt? = some fault ∧
    e = .nestedFunction fault.outer fault.inner ∧ g₀.Holds g fault.guards ∧ g.scope.function = f

namespace Ends

variable {α β : Type} {x : Generation α} {k : α → Generation β} {g₀ g : Generator}
  {f : Option String} {us us' : List (Tree × Site)}
  {result : EStateM.Result GenerationError Generator α}

/-- The faults of two steps are those of the first and then those of the second. -/
theorem bind (h : Ends g₀ f us (x g))
    (h' : ∀ a g', x g = .ok a g' → g'.scope.function = f → Ends g₀ f us' (k a g')) :
    Ends g₀ f (us ++ us') ((x >>= k) g) := by
  rw [Step.bind_apply]
  cases hx : x g with
  | ok a g' =>
    rw [hx] at h
    obtain ⟨hnone, hfunction⟩ := h
    have hk := h' a g' hx hfunction
    dsimp only
    cases hk' : k a g' with
    | ok b g'' =>
      rw [hk'] at hk
      exact ⟨by rw [List.findSome?_append, hnone, Option.none_or]; exact hk.1, hk.2⟩
    | error e g'' =>
      rw [hk'] at hk
      refine hk.imp id ?_
      rintro ⟨fault, hfault, hrest⟩
      exact ⟨fault, by rw [List.findSome?_append, hnone, Option.none_or, hfault], hrest⟩
  | error e g' =>
    rw [hx] at h
    refine h.imp id ?_
    rintro ⟨fault, hfault, hrest⟩
    exact ⟨fault, by rw [List.findSome?_append, hfault, Option.some_or], hrest⟩

/-- A step without faults of its own adds none before another. -/
theorem nil_bind (h : Ends g₀ f [] (x g))
    (h' : ∀ a g', x g = .ok a g' → g'.scope.function = f → Ends g₀ f us (k a g')) :
    Ends g₀ f us ((x >>= k) g) :=
  h.bind h'

/-- A step without faults of its own adds none after another. -/
theorem bind_nil (h : Ends g₀ f us (x g))
    (h' : ∀ a g', x g = .ok a g' → g'.scope.function = f → Ends g₀ f [] (k a g')) :
    Ends g₀ f us ((x >>= k) g) := by
  rw [← List.append_nil us]
  exact h.bind h'

/-- After a step that fails for want of room only, the end is that of what follows. -/
theorem of_bind (hlimits : ∀ e g', x g = .error e g' → e.isLimit = true)
    (h : ∀ a g', x g = .ok a g' → Ends g₀ f us (k a g')) : Ends g₀ f us ((x >>= k) g) := by
  rw [Step.bind_apply]
  cases hx : x g with
  | ok a g' => exact h a g' hx
  | error e g' => exact .inl (hlimits e g' hx)

/-- A tree that is no fault at its place does not count. -/
theorem cons {u : Tree × Site} (hu : Tree.faultAt? u = none) (h : Ends g₀ f us result) :
    Ends g₀ f (u :: us) result := by
  cases result with
  | ok a g => exact ⟨by rw [List.findSome?_cons_of_isNone (by rw [hu]; rfl)]; exact h.1, h.2⟩
  | error e g =>
    refine h.imp id ?_
    rintro ⟨fault, hfault, hrest⟩
    exact ⟨fault, by rw [List.findSome?_cons_of_isNone (by rw [hu]; rfl), hfault], hrest⟩

/-- A step that fails for want of room only, and stays in the function that it stands in. -/
theorem of_limits (hlimits : ∀ e g', x g = .error e g' → e.isLimit = true)
    (hfunction : ∀ a g', x g = .ok a g' → g'.scope.function = f) : Ends g₀ f [] (x g) := by
  cases hx : x g with
  | ok a g' => exact ⟨rfl, hfunction a g' hx⟩
  | error e g' => exact .inl (hlimits e g' hx)

end Ends

namespace Generation

variable {g₀ g : Generator} {f : Option String}

/-- An instruction has no fault, and stays in the function that it stands in. -/
theorem ends_emit (h : g.scope.function = f) (opcode : Opcode) (operand : Option Nat)
    (display : Option String) : Ends g₀ f [] (emit opcode operand display g) := by
  refine .of_limits (onlyLimits_emit opcode operand display g) fun _ g' hok => ?_
  exact (congrArg (·.scope.function) (continues_of_emit hok).tables).trans h

/-- The next address has no fault. -/
theorem ends_nextAddress (h : g.scope.function = f) : Ends g₀ f [] (nextAddress g) := by
  refine .of_limits (onlyLimits_onBuffer CodeBuffer.onlyLimits_nextAddress g) fun _ g' hok => ?_
  obtain ⟨-, rfl⟩ := eq_of_nextAddress hok
  exact h

/-- A reserved jump has no fault. -/
theorem ends_reserve (h : g.scope.function = f) (branch : Branch) :
    Ends g₀ f [] (reserve branch g) := by
  refine .of_limits (onlyLimits_onBuffer (CodeBuffer.onlyLimits_reserve branch) g)
    fun _ g' hok => ?_
  exact (congrArg (·.scope.function) (continues_of_reserve hok).2.tables).trans h

/-- The patch of a pending jump has no fault. -/
theorem ends_patch (h : g.scope.function = f) {address : Nat}
    (hmem : address ∈ g.buffer.pending) (hlt : address < g.buffer.code.size) :
    Ends g₀ f [] (patch ⟨address⟩ g) := by
  refine .of_limits (fun _ _ => isLimit_of_patch hmem hlt) fun _ g' hok => ?_
  exact (congrArg (·.scope.function) (size_tables_of_patch hok).2).trans h

/-- A store has no fault. -/
theorem ends_store (h : g.scope.function = f) (name : String) :
    Ends g₀ f [] (store name g) := by
  refine .of_limits (onlyLimits_store name g) fun _ g' hok => ?_
  exact (congrArg (·.scope.function) (continues_of_store hok).tables).trans h

/-- A load has no fault. -/
theorem ends_load (h : g.scope.function = f) (name : String) : Ends g₀ f [] (load name g) := by
  refine .of_limits (onlyLimits_load name g) fun _ g' hok => ?_
  have htables := congrArg (·.scope.function) (continues_of_load hok).tables
  refine htables.trans ?_
  unfold Tables.withRead
  split <;> exact h

/-- A literal has no fault. -/
theorem ends_literal (h : g.scope.function = f) (v : Value) :
    Ends g₀ f [] ((Tree.literal v).compile g) := by
  refine .of_limits (onlyLimits_literal v g) fun _ g' hok => ?_
  exact (congrArg (·.scope.function) (Tree.continues_of_compile _ hok).tables).trans h

/-- Outside all functions one is entered unless it has too many parameters. -/
theorem isLimit_of_enterScope {g' : Generator} {name : String} {params : List String}
    {e : GenerationError} (h : g.scope.function = none)
    (he : enterScope name params g = .error e g') : e.isLimit = true := by
  by_cases hparams : params.length ≤ addressLimit
  · rw [enterScope_of_le h name hparams] at he
    cases he
  · rw [enterScope_of_lt h name (Nat.lt_of_not_le hparams)] at he
    cases he
    rfl

/-- Outside all functions a step in the scope of a function ends as it does once the function is
entered, and outside all functions again. -/
theorem ends_inScope {name : String} {params : List String} {body : Generation Unit}
    {us : List (Tree × Site)} (h : g.scope.function = none)
    (hbody : ∀ g', enterScope name params g = .ok () g' → Ends g₀ (some name) us (body g')) :
    Ends g₀ none us (inScope name params body g) := by
  have hleave (g : Generator) : (leaveScope g).scope.function = none :=
    congrArg (·.scope.function) (continues_leaveScope g).tables
  refine Ends.of_bind (fun _ _ => isLimit_of_enterScope h) fun _ g₁ henter => ?_
  -- Once entered, the function is left whether the body fails or not.
  have hends := hbody g₁ henter
  cases hresult : body g₁ with
  | ok _ g₂ =>
    rw [hresult] at hends
    rw [leaving_of_ok hresult]
    exact ⟨hends.1, hleave g₂⟩
  | error e g₂ =>
    rw [hresult] at hends
    rw [leaving_of_error hresult]
    refine hends.imp id ?_
    rintro ⟨fault, hfault, he, hholds, -⟩
    exact ⟨fault, hfault, he, hholds.continues (continues_leaveScope g₂), hleave g₂⟩

end Generation

namespace Tree

open Generation

/-- Generation of a tree that succeeds takes it to the place behind the tree. -/
theorem stands_of_compile {t : Tree} {g₀ g g' : Generator} {c : Site} (h : g₀.Stands g c)
    (hok : t.compile g = .ok () g') (hfunction : g'.scope.function = c.function) :
    g₀.Stands g' (c.skip t.size) := by
  rw [← length_layout t g.buffer.code.size g.tables]
  exact h.continues (continues_of_compile t hok) hfunction

mutual

/-- Generation of a tree ends at the first fault in it. -/
theorem ends_compile : ∀ (t : Tree) {g₀ g : Generator} {c : Site}, g₀.Stands g c →
    Ends g₀ c.function (t.sites c) (t.compile g)
  | block _ items, g₀, g, c, h => by
    rw [compile, sites]
    exact .cons rfl (ends_compileAll items h)
  | store _ name value, g₀, g, c, h => by
    rw [compile, sites]
    refine .cons rfl ((ends_compile value h).bind_nil fun _ g₁ _ hfunction => ?_)
    exact ends_store hfunction name
  | read _ name, g₀, g, c, h => by
    rw [compile, sites]
    exact .cons rfl (ends_load h.function name)
  | function name params body, g₀, g, ⟨offset, outer, guards⟩, h => by
    rw [compile, sites]
    cases outer with
    | some outer =>
      -- This is the fault itself, so it does not matter what is in the body.
      refine Ends.of_bind (onlyLimits_emit _ _ _ g) fun _ g₁ hmake => ?_
      have k₁ := continues_of_emit hmake
      have hfunction : g₁.scope.function = some outer :=
        (congrArg (·.scope.function) k₁.tables).trans h.function
      rw [inScope_of_some hfunction]
      exact .inr ⟨⟨outer, name, guards⟩, rfl, rfl, h.holds.continues k₁, hfunction⟩
    | none =>
      refine .cons rfl (Ends.nil_bind (ends_emit h.function _ _ _) fun _ g₁ hmake hfunction => ?_)
      refine ends_inScope hfunction fun g₂ henter => ?_
      obtain ⟨-, k₂⟩ := continues_of_enterScope henter
      have k := (continues_of_emit hmake).trans k₂
      have h₂ : g₀.Stands g₂ (Site.inFunction ⟨offset, none, guards⟩ name) :=
        ⟨by rw [k.size, h.size]; rfl, congrArg (·.scope.function) k.tables, h.holds.continues k⟩
      refine (ends_compile body h₂).bind_nil fun _ g₃ _ hfunction₃ => ?_
      exact ends_store hfunction₃ name
  | print argument, g₀, g, c, h => by
    rw [compile, sites]
    refine .cons rfl ((ends_compile argument h).bind_nil fun _ g₁ _ hfunction => ?_)
    exact ends_emit hfunction _ _ _
  | loop test body, g₀, g, c, h => by
    rw [compile, sites]
    refine .cons rfl (Ends.nil_bind (ends_nextAddress h.function) fun start g₁ hstart _ => ?_)
    obtain ⟨rfl, rfl⟩ := eq_of_nextAddress hstart
    refine (ends_compile test h).bind fun _ g₂ htest hfunction₂ => ?_
    have h₂ := stands_of_compile h htest hfunction₂
    refine Ends.nil_bind (ends_reserve hfunction₂ _) fun toEnd g₃ hreserve hfunction₃ => ?_
    obtain ⟨rfl, k₃⟩ := continues_of_reserve hreserve
    have h₃ : g₀.Stands g₃ ((c.skip test.size).guarded .ifFalse) := h₂.guarded [] rfl k₃ hfunction₃
    refine (ends_compile body h₃).bind_nil fun _ g₄ hbody hfunction₄ => ?_
    refine Ends.nil_bind (ends_emit hfunction₄ _ _ _) fun _ g₅ hback hfunction₅ => ?_
    -- The exit has been pending since it was reserved.
    have k := k₃.trans ((continues_of_compile body hbody).trans (continues_of_emit hback))
    refine ends_patch hfunction₅ ?_ ?_
    · rw [k.pending]
      simp
    · rw [k.size]
      simp
  | call callee arguments, g₀, g, c, h => by
    rw [compile, sites]
    refine .cons rfl (Ends.nil_bind (ends_load h.function _) fun _ g₁ hload hfunction => ?_)
    have h₁ : g₀.Stands g₁ (c.skip 1) := h.continues (continues_of_load hload) hfunction
    refine (ends_compileAll arguments h₁).bind_nil fun _ g₂ _ hfunction₂ => ?_
    exact ends_emit hfunction₂ _ _ _
  | conditional test consequent alternate, g₀, g, c, h => by
    rw [compile, sites]
    refine .cons rfl ((ends_compile test h).bind fun _ g₁ htest hfunction₁ => ?_)
    have h₁ := stands_of_compile h htest hfunction₁
    refine Ends.nil_bind (ends_reserve hfunction₁ _) fun toAlternate g₂ hreserve hfunction₂ => ?_
    obtain ⟨rfl, k₂⟩ := continues_of_reserve hreserve
    have h₂ : g₀.Stands g₂ ((c.skip test.size).guarded .ifFalse) := h₁.guarded [] rfl k₂ hfunction₂
    refine (ends_compile consequent h₂).bind fun _ g₃ hconsequent hfunction₃ => ?_
    refine Ends.nil_bind (ends_reserve hfunction₃ _) fun toEnd g₄ hreserve' hfunction₄ => ?_
    obtain ⟨rfl, k₄⟩ := continues_of_reserve hreserve'
    -- Both jumps are pending on top of those before, and the first one is patched.
    have k₃ := k₂.trans (continues_of_compile consequent hconsequent)
    have k : g₁.Continues g₄ ([] ++ _ :: _) (g₁.buffer.code.size :: [g₃.buffer.code.size]) _ :=
      k₃.trans k₄
    have s₃ : g₃.buffer.code.size = g₁.buffer.code.size + (1 + consequent.size) := by
      rw [k₃.size, List.length_append, List.length_singleton, length_layout]
    have s₄ : g₄.buffer.code.size = g₃.buffer.code.size + 1 := k₄.size
    have hmem : g₁.buffer.code.size ∈ g₄.buffer.pending := by
      rw [k.pending]
      simp
    refine Ends.nil_bind (ends_patch hfunction₄ hmem (by omega)) fun _ g₅ hpatch hfunction₅ => ?_
    have k₅ := k.patch rfl (by simp; omega) hpatch
    have h₅ := h₁.guarded (_ :: consequent.layout _ _) (by simp; omega) k₅ hfunction₅
    rw [List.length_cons, length_layout, Nat.add_comm consequent.size, Site.skip_skip,
      ← Nat.add_assoc] at h₅
    refine (ends_compile alternate h₅).bind_nil fun _ g₆ halternate hfunction₆ => ?_
    -- The second jump is still pending after the alternate.
    have k₆ := continues_of_compile alternate halternate
    have hmem' : g₃.buffer.code.size ∈ g₆.buffer.pending := by
      rw [k₆.pending, k₅.pending]
      simp
    refine ends_patch hfunction₆ hmem' ?_
    rw [k₆.size, (size_tables_of_patch hpatch).1]
    omega
  | binary op left right, g₀, g, c, h => by
    rw [compile, sites]
    refine .cons rfl ((ends_compile left h).bind fun _ g₁ hleft hfunction₁ => ?_)
    have h₁ := stands_of_compile h hleft hfunction₁
    refine (ends_compile right h₁).bind_nil fun _ g₂ _ hfunction₂ => ?_
    exact ends_emit hfunction₂ _ _ _
  | unary op operand, g₀, g, c, h => by
    rw [compile, sites]
    refine .cons rfl ((ends_compile operand h).bind_nil fun _ g₁ _ hfunction => ?_)
    exact ends_emit hfunction _ _ _
  | literal v, g₀, g, c, h => .cons rfl (ends_literal h.function v)

/-- Generation of a list of trees ends at the first fault in it. -/
theorem ends_compileAll : ∀ (ts : List Tree) {g₀ g : Generator} {c : Site}, g₀.Stands g c →
    Ends g₀ c.function (sitesAll ts c) (compileAll ts g)
  | [], _, _, _, h => ⟨rfl, h.function⟩
  | t :: ts, g₀, g, c, h => by
    rw [compileAll, sitesAll]
    refine (ends_compile t h).bind fun _ g₁ hok hfunction => ?_
    exact ends_compileAll ts (stands_of_compile h hok hfunction)

end

/-! ## Faults and nested declarations -/

/-- The nested declaration that a tree is at its place, if it is one. -/
def nestingAt? (u : Tree × Site) : Option (String × String) :=
  (faultAt? u).map fun fault => (fault.outer, fault.inner)

mutual

/-- The faults of a tree, in the order of their places, are its nested declarations. -/
theorem filterMap_sites : ∀ (t : Tree) (c : Site),
    (t.sites c).filterMap nestingAt? = t.nestings c.function
  | block _ items, c => filterMap_sitesAll items c
  | store _ _ value, c => filterMap_sites value c
  | read _ _, c => rfl
  | function name _ body, ⟨offset, outer, guards⟩ => by
    have hbody := filterMap_sites body (Site.inFunction ⟨offset, outer, guards⟩ name)
    rw [sites, nestings]
    cases outer with
    | none => exact hbody
    | some outer => exact congrArg ((outer, name) :: ·) hbody
  | print argument, c => filterMap_sites argument c
  | loop test body, c => by
    have htest := filterMap_sites test c
    have hbody := filterMap_sites body ((c.skip test.size).guarded .ifFalse)
    rw [sites, nestings, List.filterMap_cons_none rfl, List.filterMap_append, htest, hbody]
    rfl
  | call _ arguments, c => filterMap_sitesAll arguments (c.skip 1)
  | conditional test consequent alternate, c => by
    have htest := filterMap_sites test c
    have hconsequent := filterMap_sites consequent ((c.skip test.size).guarded .ifFalse)
    have halternate := filterMap_sites alternate
      ((c.skip (test.size + 1 + consequent.size)).guarded .always)
    rw [sites, nestings, List.filterMap_cons_none rfl, List.filterMap_append,
      List.filterMap_append, htest, hconsequent, halternate]
    rfl
  | binary _ left right, c => by
    have hleft := filterMap_sites left c
    have hright := filterMap_sites right (c.skip left.size)
    rw [sites, nestings, List.filterMap_cons_none rfl, List.filterMap_append, hleft, hright]
    rfl
  | unary _ operand, c => filterMap_sites operand c
  | literal _, c => rfl

/-- The faults of a list of trees, in the order of their places, are its nested declarations. -/
theorem filterMap_sitesAll : ∀ (ts : List Tree) (c : Site),
    (sitesAll ts c).filterMap nestingAt? = nestingsAll c.function ts
  | [], c => rfl
  | t :: ts, c => by
    have ht := filterMap_sites t c
    have hts := filterMap_sitesAll ts (c.skip t.size)
    rw [sitesAll, nestingsAll, List.filterMap_append, ht, hts]
    rfl

end

/-- The first nested declaration is the first fault. -/
theorem head?_nestings (t : Tree) (c : Site) : (t.nestings c.function).head? =
    ((t.sites c).findSome? faultAt?).map fun fault => (fault.outer, fault.inner) := by
  rw [← filterMap_sites, List.head?_filterMap, List.map_findSome?]
  rfl

/-- A tree that is generated has nothing nested in it. -/
theorem nestings_of_compile {t : Tree} {g g' : Generator} (h : t.compile g = .ok () g') :
    t.nestings g.scope.function = [] := by
  have hends := ends_compile t (g.stands_self rfl)
  rw [h] at hends
  rw [← List.head?_eq_none_iff, head?_nestings t { function := g.scope.function }, hends.1]
  rfl

end Tree

namespace Generator

variable {g : Generator} {t : Tree}

/-- The two outcomes of a call outside all functions. Without a fault in its tree it succeeds and
leaves nothing open. Else it fails with the first one and leaves the jumps open that this stands
behind. -/
theorem compile_cases (h : g.scope.function = none)
    (hroom : ∀ e g', t.compile g = .error e g' → e.isLimit = false) :
    (∃ g', t.compile g = .ok () g' ∧ t.fault? = none ∧ g.Holds g' [] ∧ g'.scope.function = none) ∨
    ∃ fault g', t.compile g = .error (.nestedFunction fault.outer fault.inner) g' ∧
      t.fault? = some fault ∧ g.Holds g' fault.guards ∧ g'.scope.function = none := by
  -- The end of generation from here tells the two cases, and want of room is excluded.
  have hends : Ends g none (t.sites {}) (t.compile g) := Tree.ends_compile t (g.stands_self h)
  cases hcompile : t.compile g with
  | ok _ g' =>
    rw [hcompile] at hends
    have hholds := (g.stands_self h).holds.continues (Tree.continues_of_compile t hcompile)
    exact .inl ⟨g', rfl, hends.1, hholds, hends.2⟩
  | error e g' =>
    rw [hcompile] at hends
    rcases hends with hlimit | ⟨fault, hfault, rfl, hholds, hfunction⟩
    · rw [hroom e g' hcompile] at hlimit
      cases hlimit
    · exact .inr ⟨fault, g', rfl, hfault, hholds, hfunction⟩

end Generator

end Backpatch
