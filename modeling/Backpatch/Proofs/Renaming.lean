import Backpatch.Proofs.Faults
import Mathlib.Logic.Equiv.Basic

/-!
# Names are opaque

Generation looks at names only to see whether two of them are the same, so it commutes with a renaming
that keeps different names apart. The two generations go side by side: `Step.Renames` says of two steps
that from a renamed state the second gives what the first gives from the state, renamed, and it follows
the way in which steps are made (`bind`, `within`). Identifiers and slots are places in lists, and these
do not change (`SymbolTable.renames_intern`, `FunctionScope.slotsOf_rename`).
-/

namespace Backpatch

/-! ## What is renamed -/

/-- The error with its names renamed. -/
def GenerationError.rename (r : String → String) : GenerationError → GenerationError
  | nestedFunction outer inner => nestedFunction (r outer) (r inner)
  | e => e

/-- The note of an instruction with this operation, renamed where the note is a name of the tree. -/
def Opcode.renameNote (r : String → String) (note : Option String) : Opcode → Option String
  | loadName | storeName | loadFast => note.map r
  | _ => note

/-- The instruction with its name renamed, if it has one; all but the note stays. -/
def Instruction.rename (r : String → String) (i : Instruction) : Instruction :=
  { i with display := i.opcode.renameNote r i.display }

/-- The event with its name renamed. -/
def Event.rename (r : String → String) : Event → Event
  | entered function params => entered (r function) params
  | exited function => exited (r function)
  | e => e

/-- The program with its names renamed, entry by entry and in the notes; the constants stay. -/
def Program.rename (r : String → String) (p : Program) : Program :=
  ⟨p.code.map (Instruction.rename r), p.names.map r, p.constants⟩

namespace Tree

mutual

/-- The tree with all its names renamed: those read, called, stored and declared, and the parameters. -/
def rename (r : String → String) : Tree → Tree
  | block form items => block form (renameAll r items)
  | store form name value => store form (r name) (value.rename r)
  | read form name => read form (r name)
  | function name params body => function (r name) (params.map r) (body.rename r)
  | print argument => print (argument.rename r)
  | loop test body => loop (test.rename r) (body.rename r)
  | call callee arguments => call (r callee) (renameAll r arguments)
  | conditional test consequent alternate =>
    conditional (test.rename r) (consequent.rename r) (alternate.rename r)
  | binary op left right => binary op (left.rename r) (right.rename r)
  | unary op operand => unary op (operand.rename r)
  | literal v => literal v

/-- The list of trees with all their names renamed. -/
def renameAll (r : String → String) : List Tree → List Tree
  | [] => []
  | t :: ts => t.rename r :: renameAll r ts

end

end Tree

/-- The table with its keys renamed. -/
def SymbolTable.rename (r : String → String) (t : SymbolTable String) : SymbolTable String :=
  ⟨t.keys.map r⟩

/-- The scope with its function and its parameters renamed. -/
def FunctionScope.rename (r : String → String) (s : FunctionScope) : FunctionScope :=
  ⟨s.function.map r, s.slots.map (Prod.map r id)⟩

/-- The buffer with the names in its code renamed. -/
def CodeBuffer.rename (r : String → String) (b : CodeBuffer) : CodeBuffer :=
  { b with code := b.code.map (Instruction.rename r) }

/-- The generator with all its names renamed. -/
def Generator.rename (r : String → String) (g : Generator) : Generator where
  buffer := g.buffer.rename r
  names := g.names.rename r
  literals := g.literals
  scope := g.scope.rename r
  events := g.events.map (Event.rename r)

/-! ## Steps side by side -/

namespace Step

variable {σ τ α β : Type}

/-- What a step gives, with the names in the result, in the error and in the state renamed. -/
def renamed (r : String → String) (onState : σ → σ) (onResult : α → α) :
    EStateM.Result GenerationError σ α → EStateM.Result GenerationError σ α
  | .ok a s => .ok (onResult a) (onState s)
  | .error e s => .error (e.rename r) (onState s)

/-- From a renamed state, `y` gives what `x` gives from the state, renamed. -/
def Renames (r : String → String) (onState : σ → σ) (onResult : α → α) (x y : Step σ α) : Prop :=
  ∀ s, y (onState s) = renamed r onState onResult (x s)

variable {r : String → String} {onState : σ → σ}

/-- A result without names in it is given as it is. -/
theorem renames_pure (a : α) : Renames r onState id (pure a) (pure a) :=
  fun _ => rfl

/-- A change that may be made before or after the renaming. -/
theorem renames_modify {f f' : σ → σ} (h : ∀ s, f' (onState s) = onState (f s)) :
    Renames r onState id (modify f) (modify f') := by
  intro s
  rw [modify_apply, modify_apply, h]
  rfl

/-- The errors for want of room name nothing. -/
theorem renames_of_onlyLimits {x : Step σ α} (h : OnlyLimits x) : Renames r id id x x := by
  intro s
  dsimp only [id]
  cases hx : x s with
  | ok a t => rfl
  | error e t =>
    have hlimit := h s e t hx
    cases e with
    | nestedFunction outer inner => cases hlimit
    | _ => rfl

namespace Renames

/-- Steps after steps. -/
theorem bind {onResult : α → α} {onResult' : β → β} {x y : Step σ α} {f f' : α → Step σ β}
    (hx : Renames r onState onResult x y)
    (hf : ∀ a, Renames r onState onResult' (f a) (f' (onResult a))) :
    Renames r onState onResult' (x >>= f) (y >>= f') := by
  intro s
  rw [bind_apply, bind_apply, hx s]
  cases x s with
  | ok a t => exact hf a t
  | error e t => rfl

/-- Steps on a part of the state. -/
theorem within {onPart : τ → τ} {onResult : α → α} {x y : Step τ α} {part : σ → τ}
    {replace : σ → τ → σ} (hx : Renames r onPart onResult x y)
    (hpart : ∀ s, part (onState s) = onPart (part s))
    (hreplace : ∀ s t, replace (onState s) (onPart t) = onState (replace s t)) :
    Renames r onState onResult (within part replace x) (within part replace y) := by
  intro s
  unfold Step.within
  rw [hpart, hx (part s)]
  cases x (part s) with
  | ok a t =>
    dsimp only [renamed]
    rw [hreplace]
  | error e t =>
    dsimp only [renamed]
    rw [hreplace]

end Renames

end Step

open Step

variable {r : String → String} (hr : Function.Injective r)

/-! ## Tables and scopes -/

include hr in
/-- A name has the place among renamed names that it has among the names. -/
theorem SymbolTable.id?_rename (t : SymbolTable String) (name : String) :
    (t.rename r).id? (r name) = t.id? name := by
  unfold id? rename List.idxOf?
  rw [List.findIdx?_map]
  congr 1
  funext other
  rw [Bool.eq_iff_iff, Function.comp_apply, beq_iff_eq, beq_iff_eq, hr.eq_iff]

include hr in
/-- A renamed name gets the identifier of the name. -/
theorem SymbolTable.renames_intern (name : String) :
    Renames r (rename r) id (intern name) (intern (r name)) := by
  intro t
  have hlength : (t.rename r).keys.length = t.keys.length := List.length_map _
  unfold intern
  rw [id?_rename hr, hlength]
  cases t.id? name with
  | some id => rfl
  | none =>
    by_cases hlt : t.keys.length < addressLimit
    · dsimp only
      rw [if_pos hlt, if_pos hlt]
      dsimp only [rename, renamed]
      rw [List.map_append]
      rfl
    · dsimp only
      rw [if_neg hlt, if_neg hlt]
      rfl

namespace FunctionScope

include hr in
/-- A renamed parameter is assigned where the parameter is. -/
theorem assign_rename (slots : List (String × Nat)) (name : String) (slot : Nat) :
    assign (slots.map (Prod.map r id)) (r name) slot =
      (assign slots name slot).map (Prod.map r id) := by
  unfold assign
  rw [List.filter_map, List.map_cons]
  congr 3
  funext entry
  rw [Bool.eq_iff_iff, Function.comp_apply, bne_iff_ne, bne_iff_ne]
  exact not_congr hr.eq_iff

include hr in
/-- Renamed parameters have the slots of the parameters. -/
theorem slotsOf_rename (params : List String) :
    slotsOf (params.map r) = (slotsOf params).map (Prod.map r id) := by
  unfold slotsOf
  rw [List.zipIdx_map, List.foldl_map]
  -- From any slots on, since the parameters are assigned one after the other.
  have hfold (entries : List (String × Nat)) (slots : List (String × Nat)) :
      entries.foldl (fun slots entry => assign slots (r entry.1) entry.2)
          (slots.map (Prod.map r id)) =
        (entries.foldl (fun slots entry => assign slots entry.1 entry.2) slots).map
          (Prod.map r id) := by
    induction entries generalizing slots with
    | nil => rfl
    | cons entry entries ih => rw [List.foldl_cons, List.foldl_cons, assign_rename hr, ih]
  exact hfold params.zipIdx []

include hr in
/-- A name has the slot in the renamed scope that it has in the scope. -/
theorem slot?_rename (s : FunctionScope) (name : String) :
    (s.rename r).slot? (r name) = s.slot? name := by
  unfold slot? rename
  induction s.slots with
  | nil => rfl
  | cons entry slots ih =>
    have hbeq : (r name == r entry.1) = (name == entry.1) := by
      rw [Bool.eq_iff_iff, beq_iff_eq, beq_iff_eq, hr.eq_iff]
    rw [List.map_cons, List.lookup_cons, List.lookup_cons, Prod.map_fst, hbeq, ih]
    rfl

/-- The function of the renamed scope is the function, renamed. -/
theorem function_rename (s : FunctionScope) : (s.rename r).function = s.function.map r :=
  rfl

include hr in
/-- A nested function is refused as before, with both names renamed. -/
theorem renames_enter (function : String) (params : List String) :
    Renames r (rename r) id (enter function params) (enter (r function) (params.map r)) := by
  intro s
  unfold enter
  rw [function_rename]
  cases s.function with
  | some outer => rfl
  | none =>
    dsimp only [Option.map_none]
    rw [List.length_map]
    by_cases hle : params.length ≤ addressLimit
    · rw [if_pos hle, if_pos hle, slotsOf_rename hr]
      rfl
    · rw [if_neg hle, if_neg hle, ← List.map_take, slotsOf_rename hr]
      rfl

end FunctionScope

/-! ## Code -/

namespace CodeBuffer

/-- Renamed code has the same next address. -/
theorem renames_nextAddress : Renames r (rename r) id nextAddress nextAddress := by
  intro b
  have hsize : (b.rename r).code.size = b.code.size := Array.size_map
  unfold nextAddress
  rw [hsize]
  split <;> rfl

/-- An instruction is added to renamed code with its note renamed. -/
theorem renames_emit (opcode : Opcode) (operand : Option Nat) (display : Option String) :
    Renames r (rename r) id (emit opcode operand display)
      (emit opcode operand (opcode.renameNote r display)) := by
  refine renames_nextAddress.bind fun address => ?_
  refine .bind (renames_modify fun b => ?_) fun _ => renames_pure _
  unfold rename
  rw [Array.map_push]
  rfl

/-- A jump is reserved in renamed code as in the code. -/
theorem renames_reserve (branch : Branch) :
    Renames r (rename r) id (reserve branch) (reserve branch) := by
  -- A jump has no note, so there is nothing to rename in it.
  have hemit : Renames r (rename r) id (emit branch.opcode none none)
      (emit branch.opcode none none) := by
    cases branch with
    | always => exact renames_emit .jump none none
    | ifFalse => exact renames_emit .jumpIfFalse none none
  refine hemit.bind fun address => ?_
  exact .bind (renames_modify fun b => rfl) fun _ => renames_pure _

/-- A patch of renamed code reports what the patch of the code reports. -/
theorem renames_patchTo (label : Label) (target : Nat) :
    Renames r (rename r) (Event.rename r) (patchTo label target) (patchTo label target) := by
  intro b
  unfold patchTo
  by_cases hmem : label.address ∈ b.pending
  · rw [if_pos hmem, if_pos (show label.address ∈ (b.rename r).pending from hmem)]
    dsimp only [rename]
    rw [Array.getElem?_map]
    cases b.code[label.address]? with
    | none => rfl
    | some i =>
      dsimp only [Option.map_some, renamed, rename]
      rw [Array.map_setIfInBounds]
      rfl
  · rw [if_neg hmem, if_neg (show label.address ∉ (b.rename r).pending from hmem)]
    rfl

/-- A jump to the next address is patched in renamed code as in the code. -/
theorem renames_patch (label : Label) :
    Renames r (rename r) (Event.rename r) (patch label) (patch label) :=
  renames_nextAddress.bind fun target => renames_patchTo label target

end CodeBuffer

/-! ## Generation -/

namespace Generation

/-- Steps on the code are steps of the generator. -/
theorem renames_onBuffer {α : Type} {onResult : α → α} {x y : Step CodeBuffer α}
    (h : Renames r (CodeBuffer.rename r) onResult x y) :
    Renames r (Generator.rename r) onResult (onBuffer x) (onBuffer y) := by
  intro g
  rw [onBuffer_apply, onBuffer_apply, show (g.rename r).buffer = g.buffer.rename r from rfl, h]
  cases x g.buffer <;> rfl

/-- A renamed generator reports the renamed event. -/
theorem renames_report (event : Event) :
    Renames r (Generator.rename r) id (report event) (report (event.rename r)) := by
  refine renames_modify fun g => ?_
  unfold Generator.rename
  rw [Array.map_push]

/-- A renamed generator emits the instruction with its note renamed. -/
theorem renames_emit (opcode : Opcode) (operand : Option Nat) (display : Option String) :
    Renames r (Generator.rename r) id (emit opcode operand display)
      (emit opcode operand (opcode.renameNote r display)) :=
  (renames_onBuffer (CodeBuffer.renames_emit _ _ _)).bind fun _ => renames_pure ()

/-- A renamed generator reserves the same jump. -/
theorem renames_reserve (branch : Branch) :
    Renames r (Generator.rename r) id (reserve branch) (reserve branch) :=
  renames_onBuffer (CodeBuffer.renames_reserve branch)

/-- A renamed generator patches the same jump. -/
theorem renames_patch (label : Label) :
    Renames r (Generator.rename r) id (patch label) (patch label) :=
  (renames_onBuffer (CodeBuffer.renames_patch label)).bind renames_report

/-- A literal has no name in it, so it gets the identifier that it had. -/
theorem renames_addConstant (v : Value) :
    Renames r (Generator.rename r) id (addConstant v) (addConstant v) := by
  refine .within (renames_of_onlyLimits ?_) (fun _ => rfl) fun _ _ => rfl
  exact ((SymbolTable.onlyLimits_intern _).within _ _).bind fun _ => .of_ok fun _ => ⟨_, _, rfl⟩

/-- The program of renamed code and tables. -/
theorem renames_finish :
    Renames r (Generator.rename r) (Program.rename r) finish finish := by
  intro g
  unfold finish CodeBuffer.finish
  rw [show (g.rename r).buffer.pending = g.buffer.pending from rfl]
  cases g.buffer.pending with
  | cons address rest => rfl
  | nil =>
    have hsize : (g.rename r).buffer.code.size = g.buffer.code.size := Array.size_map
    have hlength : (g.rename r).names.keys.length = g.names.keys.length := List.length_map _
    dsimp only
    rw [hsize, hlength]
    dsimp only [renamed, Generator.rename]
    rw [Array.map_push]
    rfl

/-- A function is left before or after the renaming. -/
theorem rename_leaveScope (g : Generator) :
    leaveScope (g.rename r) = (leaveScope g).rename r := by
  have hfunction : (g.rename r).scope.function = g.scope.function.map r :=
    FunctionScope.function_rename g.scope
  unfold leaveScope
  rw [hfunction]
  cases g.scope.function with
  | some function =>
    unfold Generator.rename
    rw [Array.map_push]
    rfl
  | none => rfl

include hr

/-- A renamed generator gives a renamed name the identifier of the name. -/
theorem renames_intern (name : String) :
    Renames r (Generator.rename r) id (intern name) (intern (r name)) :=
  .within (SymbolTable.renames_intern hr name) (fun _ => rfl) fun _ _ => rfl

/-- It finds a renamed name where the name is. -/
theorem renames_resolve (name : String) :
    Renames r (Generator.rename r) id (resolve name) (resolve (r name)) := by
  intro g
  unfold resolve
  rw [bind_apply, bind_apply, get_apply, get_apply]
  dsimp only
  rw [show (g.rename r).scope.slot? (r name) = g.scope.slot? name from
    FunctionScope.slot?_rename hr g.scope name]
  cases g.scope.slot? name with
  | some slot => exact renames_pure (Place.slot slot) g
  | none => exact ((renames_intern hr name).bind fun id => renames_pure (Place.global id)) g

/-- It loads a renamed name as the name. -/
theorem renames_load (name : String) :
    Renames r (Generator.rename r) id (load name) (load (r name)) := by
  refine (renames_resolve hr name).bind fun place => ?_
  cases place with
  | slot slot => exact renames_emit .loadFast (some slot) (some name)
  | global id => exact renames_emit .loadName (some id) (some name)

/-- It stores to a renamed name as to the name. -/
theorem renames_store (name : String) :
    Renames r (Generator.rename r) id (store name) (store (r name)) :=
  (renames_intern hr name).bind fun id => renames_emit .storeName (some id) (some name)

/-- It enters a renamed function as the function. -/
theorem renames_enterScope (function : String) (params : List String) :
    Renames r (Generator.rename r) id (enterScope function params)
      (enterScope (r function) (params.map r)) := by
  refine .bind (.within (FunctionScope.renames_enter hr function params) (fun _ => rfl)
    fun _ _ => rfl) fun _ g => ?_
  rw [bind_apply, bind_apply, get_apply, get_apply]
  dsimp only
  -- As many different parameters are renamed as there are.
  rw [show (g.rename r).scope.size = g.scope.size from List.length_map _]
  exact renames_report (.entered function g.scope.size) g

/-- In the scope of a renamed function a step gives what it gives in that of the function. -/
theorem renames_inScope (function : String) (params : List String) {body body' : Generation Unit}
    (hbody : Renames r (Generator.rename r) id body body') :
    Renames r (Generator.rename r) id (inScope function params body)
      (inScope (r function) (params.map r) body') := by
  refine (renames_enterScope hr function params).bind fun _ g => ?_
  unfold leaving
  rw [hbody g]
  cases body g with
  | ok _ g' =>
    dsimp only [renamed]
    rw [rename_leaveScope]
  | error e g' =>
    dsimp only [renamed]
    rw [rename_leaveScope]

end Generation

namespace Tree

open Generation

mutual

/-- A renamed tree is generated as the tree is, renamed. -/
theorem renames_compile (hr : Function.Injective r) : ∀ t : Tree,
    Renames r (Generator.rename r) id t.compile (t.rename r).compile
  | block _ items => renames_compileAll hr items
  | store _ name value => (renames_compile hr value).bind fun _ => renames_store hr name
  | read _ name => renames_load hr name
  | function name params body =>
    (renames_emit .makeFunction none none).bind fun _ =>
      renames_inScope hr name params ((renames_compile hr body).bind fun _ => renames_store hr name)
  | print argument =>
    (renames_compile hr argument).bind fun _ =>
      renames_emit .callBuiltin (some Builtin.print.id) (some Builtin.print.name)
  | loop test body =>
    (renames_onBuffer CodeBuffer.renames_nextAddress).bind fun start =>
      (renames_compile hr test).bind fun _ =>
        (renames_reserve .ifFalse).bind fun toEnd =>
          (renames_compile hr body).bind fun _ =>
            (renames_emit .jump (some start) none).bind fun _ => renames_patch toEnd
  | call callee arguments =>
    (renames_load hr callee).bind fun _ =>
      (renames_compileAll hr arguments).bind fun _ => renames_emit .call none none
  | conditional test consequent alternate =>
    (renames_compile hr test).bind fun _ =>
      (renames_reserve .ifFalse).bind fun toAlternate =>
        (renames_compile hr consequent).bind fun _ =>
          (renames_reserve .always).bind fun toEnd =>
            (renames_patch toAlternate).bind fun _ =>
              (renames_compile hr alternate).bind fun _ => renames_patch toEnd
  | binary op left right =>
    (renames_compile hr left).bind fun _ =>
      (renames_compile hr right).bind fun _ => renames_emit .binary (some op.code) (some op.symbol)
  | unary op operand =>
    (renames_compile hr operand).bind fun _ => by
      cases op with
      | not => exact renames_emit .not none none
      | negate => exact renames_emit .negate none none
  | literal v =>
    (renames_addConstant v).bind fun id => renames_emit .loadConst (some id) (some v.text)

/-- A renamed list of trees is generated as the list is, renamed. -/
theorem renames_compileAll (hr : Function.Injective r) : ∀ ts : List Tree,
    Renames r (Generator.rename r) id (compileAll ts) (compileAll (renameAll r ts))
  | [] => renames_pure ()
  | t :: ts => (renames_compile hr t).bind fun _ => renames_compileAll hr ts

end

/-- The program of a renamed tree is made as that of the tree is, renamed. -/
theorem renames_compileProgram (hr : Function.Injective r) (t : Tree) :
    Renames r (Generator.rename r) (Program.rename r) t.compileProgram
      (t.rename r).compileProgram :=
  (renames_compile hr t).bind fun _ => renames_finish

/-- Generation commutes with renaming. Let all the names of a tree be renamed, so that different names stay
different. Where the tree has a program, the renamed tree has this program with its names renamed: each
entry of the table of names, and the note of each instruction that reads or stores a name, while
addresses, operations, operands, constants and the other notes stay. Where generation fails for the tree,
it fails for the renamed tree with the same error, whose names are renamed. The events are renamed
likewise. -/
theorem generate_of_renamed (r : String → String) (hr : Function.Injective r) (t : Tree) :
    (∀ p, t.generate = .ok p → (t.rename r).generate = .ok (p.rename r)) ∧
    (∀ e, t.generate = .error e → (t.rename r).generate = .error (e.rename r)) ∧
    (t.rename r).events =
      (t.events.1.map (Event.rename r), t.events.2.map (GenerationError.rename r)) := by
  -- A new generator has no names.
  have hstart : Generator.rename r {} = {} := by
    simp [Generator.rename, CodeBuffer.rename, SymbolTable.rename, FunctionScope.rename]
  have hprogram := renames_compileProgram hr t {}
  rw [hstart] at hprogram
  unfold generate events
  rw [hprogram]
  cases t.compileProgram {} with
  | ok p g =>
    refine ⟨fun p' hp' => ?_, fun e he => ?_, by simp [renamed, Generator.rename]⟩
    · cases hp'
      rfl
    · cases he
  | error e g =>
    refine ⟨fun p hp => ?_, fun e' he' => ?_, by simp [renamed, Generator.rename]⟩
    · cases hp
    · cases he'
      rfl

/-- The names `x` and `print` exchanged, where `print` is a parameter that is declared twice and stored
under as well as called. The note of the call of the built-in function stays `print`. -/
theorem generate_of_renamed_swap :
    ∃ t u, t = block .program [
        function "f" ["print", "", "print"] (store .assignment "print"
          (call "print" [read .variable "x", literal (.boolean true)])),
        print (read .function "x")] ∧
      u = block .program [
        function "f" ["x", "", "x"] (store .assignment "x"
          (call "x" [read .variable "print", literal (.boolean true)])),
        print (read .function "print")] ∧
      ∃ p q, t.generate = .ok p ∧ Function.Injective (Equiv.swap "x" "print") ∧
        u.generate = .ok q ∧ q = p.rename (Equiv.swap "x" "print") ∧
        q.names = ["print", "x", "f"] ∧
        q.code.toList.map Instruction.display =
          [none, some "x", some "print", some "true", none, some "x", some "f", some "print",
            some "print"] := by
  refine ⟨_, _, rfl, rfl, ?_⟩
  generalize ht : block _ _ = t
  obtain ⟨p, hp⟩ := exists_of_isOk (t := t) (by subst ht; decide +kernel)
  have hinjective : Function.Injective (Equiv.swap "x" "print") := Equiv.injective _
  have hq := (generate_of_renamed _ hinjective t).1 p hp
  obtain ⟨hcode, hnames, -⟩ := layout_of_generate hq
  subst ht
  refine ⟨p, _, hp, hinjective, hq, rfl, hnames, ?_⟩
  rw [hcode]
  rfl

end Tree

end Backpatch
