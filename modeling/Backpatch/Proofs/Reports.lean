import Backpatch.Proofs.JumpReports
import Backpatch.Proofs.References
import Backpatch.Proofs.Safety

/-!
# What generation reports

The events of generation tell the truth about the program. What they say about functions is said by
`Logs` for each step, given the functions that are declared in its tree: each is entered and left before
the next one is, and where one is declared inside another, the outer one is left and nothing is reported
after that. With the jumps (`Generator.Truthful`) and the last event this accounts for all of them
(`Tree.events_tell_truth`).
-/

namespace Backpatch

namespace FunctionScope

/-- No parameter has two slots. -/
theorem nodup_slotsOf (params : List String) : ((slotsOf params).map Prod.fst).Nodup := by
  induction params using List.reverseRecOn with
  | nil => exact .nil
  | append_singleton params param ih =>
    rw [slotsOf_concat, assign, List.map_cons, List.nodup_cons]
    exact ⟨by simp, (List.filter_sublist.map _).nodup ih⟩

/-- The parameters are what has slots. -/
theorem mem_slotsOf (params : List String) (name : String) :
    name ∈ (slotsOf params).map Prod.fst ↔ name ∈ params := by
  induction params using List.reverseRecOn with
  | nil => simp [slotsOf]
  | append_singleton params param ih =>
    rw [slotsOf_concat, assign, List.map_cons, List.mem_cons, List.mem_append, List.mem_singleton]
    by_cases h : name = param
    · simp [h]
    · simp only [List.mem_map, List.mem_filter, bne_iff_ne] at ih ⊢
      grind

/-- There are as many slots as there are different parameters. -/
theorem length_slotsOf (params : List String) :
    (slotsOf params).length = params.eraseDups.length := by
  have hnodup : params.eraseDups.Nodup := SymbolTable.nodup_eraseDups params
  have hperm : ((slotsOf params).map Prod.fst).Perm params.eraseDups := by
    refine (List.perm_ext_iff_of_nodup (nodup_slotsOf params) hnodup).mpr fun name => ?_
    rw [mem_slotsOf, List.mem_eraseDups]
  rw [← hperm.length_eq, List.length_map]

end FunctionScope

/-- A jump has a target to read. -/
theorem Opcode.hasOperand_of_isJump {op : Opcode} (h : op.isJump = true) : op.hasOperand = true := by
  cases op with
  | jump => rfl
  | jumpIfFalse => rfl
  | _ => cases h

/-- Whether the event is that the body of a function begins or ends. -/
def Event.isScope : Event → Bool
  | entered _ _ | exited _ => true
  | _ => false

/-- The events of a function whose body is generated: it is entered, with the number of its different
parameters, and left. -/
def Event.ofDeclaration (declaration : String × List String) : List Event :=
  [.entered declaration.1 declaration.2.eraseDups.length, .exited declaration.1]

/-- A body that reports nothing about functions, between the two events of its own. -/
theorem Event.filter_body {es : List Event} (h : es.filter isScope = []) (name : String)
    (params : List String) :
    (entered name params.eraseDups.length :: es ++ [exited name]).filter isScope =
      ofDeclaration (name, params) := by
  rw [List.filter_append, List.filter_cons_of_pos rfl, h]
  rfl

/-- How the events end where `inner` is declared in the body of `outer`, given the function around the
code and the functions that are declared in it. -/
inductive BreaksOff (outer inner : String) :
    Option String → List (String × List String) → List Event → Prop where
  /-- In the body of `outer`, `inner` is the first function, and it is not entered. -/
  | inside {params : List String} {rest : List (String × List String)} {es : List Event}
      (hscope : es.filter Event.isScope = []) :
      BreaksOff outer inner (some outer) ((inner, params) :: rest) es
  /-- Outside all functions, `outer` is entered and left after those before it. -/
  | outside {before rest : List (String × List String)} {params params' : List String}
      {es : List Event} (hlast : es.getLast? = some (.exited outer))
      (hscope : es.filter Event.isScope = (before ++ [(outer, params)]).flatMap Event.ofDeclaration) :
      BreaksOff outer inner none (before ++ (outer, params) :: (inner, params') :: rest) es

namespace BreaksOff

variable {outer inner : String} {f : Option String} {ds ds' : List (String × List String)}
  {es es' : List Event}

/-- What is declared behind `inner` does not matter. -/
theorem append (h : BreaksOff outer inner f ds es) (ds' : List (String × List String)) :
    BreaksOff outer inner f (ds ++ ds') es := by
  cases h with
  | inside hscope => exact .inside hscope
  | outside hlast hscope =>
    rw [List.append_assoc]
    exact .outside hlast hscope

/-- What is declared before is entered and left before. -/
theorem after (h : BreaksOff outer inner f ds' es') (hds : f ≠ none → ds = [])
    (hes : es.filter Event.isScope = ds.flatMap Event.ofDeclaration) :
    BreaksOff outer inner f (ds ++ ds') (es ++ es') := by
  cases h with
  | inside hscope =>
    rw [hds (by simp)] at hes ⊢
    refine .inside ?_
    rw [List.filter_append, hes, hscope]
    rfl
  | outside hlast hscope =>
    rw [← List.append_assoc]
    refine .outside ?_ ?_
    · rw [List.getLast?_append, hlast]
      rfl
    · rw [List.filter_append, hes, hscope, ← List.flatMap_append, List.append_assoc]

/-- A body that breaks off is left. -/
theorem leave {name : String} (h : BreaksOff outer inner (some name) ds es) (params : List String) :
    BreaksOff outer inner none ((name, params) :: ds)
      (.entered name params.eraseDups.length :: es ++ [.exited name]) := by
  cases h with
  | inside hscope =>
    refine @outside outer inner [] _ params _ _ List.getLast?_concat ?_
    rw [Event.filter_body hscope]
    rfl

end BreaksOff

/-- What a step that began with `g₀` in the function `f` has reported about functions, where `ds` are
declared in what it generates: each of them in order if it succeeds, and those up to the nested one if
it fails at one. In a function it succeeds only if there are none. -/
def Logs {α : Type} (g₀ : Generator) (f : Option String) (ds : List (String × List String)) :
    EStateM.Result GenerationError Generator α → Prop
  | .ok _ g => g.scope.function = f ∧ (f ≠ none → ds = []) ∧
    ∃ es, g.events.toList = g₀.events.toList ++ es ∧
      es.filter Event.isScope = ds.flatMap Event.ofDeclaration
  | .error e g => ∀ outer inner, e = .nestedFunction outer inner → g.scope.function = f ∧
    ∃ es, g.events.toList = g₀.events.toList ++ es ∧ BreaksOff outer inner f ds es

namespace Logs

variable {α β : Type} {x : Generation α} {k : α → Generation β} {g : Generator} {f : Option String}
  {ds ds' : List (String × List String)}

/-- The functions of two steps are those of the first and then those of the second. -/
theorem bind (h : Logs g f ds (x g))
    (h' : ∀ a g', x g = .ok a g' → g'.scope.function = f → Logs g' f ds' (k a g')) :
    Logs g f (ds ++ ds') ((x >>= k) g) := by
  rw [Step.bind_apply]
  cases hx : x g with
  | ok a g₁ =>
    rw [hx] at h
    obtain ⟨hf, hds, es, hes, hscope⟩ := h
    have hk := h' a g₁ hx hf
    dsimp only
    cases hk' : k a g₁ with
    | ok b g₂ =>
      rw [hk'] at hk
      obtain ⟨hf', hds', es', hes', hscope'⟩ := hk
      refine ⟨hf', fun hne => by rw [hds hne, hds' hne]; rfl, es ++ es', ?_, ?_⟩
      · rw [hes', hes, List.append_assoc]
      · rw [List.filter_append, hscope, hscope', List.flatMap_append]
    | error e g₂ =>
      rw [hk'] at hk
      intro outer inner he
      obtain ⟨hf', es', hes', hbreaks⟩ := hk outer inner he
      refine ⟨hf', es ++ es', ?_, hbreaks.after hds hscope⟩
      rw [hes', hes, List.append_assoc]
  | error e g₁ =>
    rw [hx] at h
    intro outer inner he
    obtain ⟨hf, es, hes, hbreaks⟩ := h outer inner he
    exact ⟨hf, es, hes, hbreaks.append ds'⟩

/-- A step that fails for want of room only and changes neither the events nor the scope. -/
theorem of_limits (hf : g.scope.function = f) (hlimits : Step.OnlyLimits x)
    (hscope : (x.after g).scope = g.scope) (hevents : (x.after g).events = g.events) :
    Logs g f [] (x g) := by
  cases hx : x g with
  | ok a g' =>
    rw [Step.after_of_ok hx] at hscope hevents
    exact ⟨hscope ▸ hf, fun _ => rfl, [], by rw [hevents, List.append_nil], rfl⟩
  | error e g' =>
    rintro outer inner rfl
    cases hlimits g _ g' hx

end Logs

namespace Generation

variable {g : Generator} {f : Option String}

/-- A step on the code that fails for want of room only. -/
theorem logs_onBuffer {α : Type} {step : Step CodeBuffer α} (h : Step.OnlyLimits step)
    (hf : g.scope.function = f) : Logs g f [] (onBuffer step g) :=
  .of_limits hf (onlyLimits_onBuffer h) (by rw [after_onBuffer]) (by rw [after_onBuffer])

/-- A patch reports a jump, and does not fail for a nested function. -/
theorem logs_patch (hf : g.scope.function = f) (label : Label) : Logs g f [] (patch label g) := by
  -- A patch reports itself or fails, but never for a function inside another.
  have hpatch : (∃ target opcode b, CodeBuffer.patch label g.buffer =
        .ok (.patched label.address target opcode) b) ∨
      ∃ e b, CodeBuffer.patch label g.buffer = .error e b ∧
        ∀ outer inner, e ≠ .nestedFunction outer inner := by
    by_cases hlt : g.buffer.code.size < addressLimit
    · rw [CodeBuffer.patch_of_lt hlt, CodeBuffer.patchTo]
      split
      · dsimp only
        split
        · exact .inl ⟨_, _, _, rfl⟩
        · exact .inr ⟨_, _, rfl, by simp⟩
      · exact .inr ⟨_, _, rfl, by simp⟩
    · exact .inr ⟨_, _, CodeBuffer.patch_of_not_lt hlt label, by simp⟩
  unfold patch
  rw [Step.bind_apply, onBuffer_apply]
  obtain ⟨target, opcode, b, hok⟩ | ⟨e, b, herror, hne⟩ := hpatch
  · rw [hok]
    exact ⟨hf, fun _ => rfl, [_], Array.toList_push, rfl⟩
  · rw [herror]
    exact fun outer inner he => absurd he (hne outer inner)

/-- Leaving a function is reported. -/
theorem leaveScope_of_some {name : String} (h : g.scope.function = some name) :
    leaveScope g = { g with scope := {}, events := g.events.push (.exited name) } := by
  unfold leaveScope
  rw [h]
  rfl

/-- A function that was entered is left, whether its body fails or not. -/
theorem logs_leaving {name : String} {params : List String} {body : Generation Unit}
    {ds : List (String × List String)} {g₁ : Generator}
    (hevents : g₁.events = g.events.push (.entered name params.eraseDups.length))
    (hbody : Logs g₁ (some name) ds (body g₁)) :
    Logs g none ((name, params) :: ds) (leaving body g₁) := by
  -- In either case the events of the body stand between those of its scope.
  have hleave {g₂ : Generator} {es : List Event}
      (hes : g₂.events.toList = g₁.events.toList ++ es) :
      (g₂.events.push (.exited name)).toList = g.events.toList ++
        (.entered name params.eraseDups.length :: es ++ [.exited name]) := by
    rw [Array.toList_push, hes, hevents, Array.toList_push]
    simp
  cases hresult : body g₁ with
  | ok a g₂ =>
    rw [hresult] at hbody
    obtain ⟨hf₂, hds, es, hes, hscope⟩ := hbody
    rw [hds (by simp)] at hscope ⊢
    rw [leaving_of_ok hresult, leaveScope_of_some hf₂]
    exact ⟨rfl, fun hne => absurd rfl hne, _, hleave hes, Event.filter_body hscope name params⟩
  | error e g₂ =>
    rw [hresult] at hbody
    rw [leaving_of_error hresult]
    intro outer inner he
    obtain ⟨hf₂, es, hes, hbreaks⟩ := hbody outer inner he
    rw [leaveScope_of_some hf₂]
    exact ⟨rfl, _, hleave hes, hbreaks.leave params⟩

/-- A function is entered with its different parameters counted, and a function inside another is not
entered. -/
theorem logs_inScope {name : String} {params : List String} {body : Generation Unit}
    {ds : List (String × List String)} (hf : g.scope.function = f)
    (hbody : ∀ g' : Generator, g'.scope.function = some name → Logs g' (some name) ds (body g')) :
    Logs g f ((name, params) :: ds) (inScope name params body g) := by
  cases f with
  | some outer =>
    -- This is the function that breaks off the generation.
    rw [inScope_of_some hf]
    rintro outer' inner he
    cases he
    exact ⟨hf, [], (List.append_nil _).symm, .inside rfl⟩
  | none =>
    rw [inScope, Step.bind_apply]
    rcases Nat.lt_or_ge addressLimit params.length with hlt | hle
    · rw [enterScope_of_lt hf name hlt]
      rintro outer inner he
      cases he
    · rw [enterScope_of_le hf name hle, FunctionScope.length_slotsOf]
      exact logs_leaving rfl (hbody _ rfl)

/-- A step with the contents `c` reports its functions, in whatever function it stands. -/
def Accounts {α : Type} (c : Contents) (x : Generation α) : Prop :=
  ∀ (g : Generator) (f : Option String), g.scope.function = f → Logs g f c.functions (x g)

/-- That the functions are reported is lifted to every tree. -/
theorem stepLifts_accounts : StepLifts fun _ => Accounts where
  mono h hle g f hf := hle.2.2 ▸ h g f hf
  pure _ _ _ hf := .of_limits hf (.of_ok fun _ => ⟨_, _, rfl⟩) rfl rfl
  get _ _ hf := .of_limits hf (.of_ok fun _ => ⟨_, _, rfl⟩) rfl rfl
  bind hx hk g f hf := (hx g f hf).bind fun a g' _ => hk a g' f
  intern name g f hf := by
    refine .of_limits hf (onlyLimits_intern name) ?_ ?_ <;> rw [intern, Step.after_within]
  addConstant v g f hf := by
    refine .of_limits hf (onlyLimits_addConstant v) ?_ ?_ <;> rw [addConstant, Step.after_within]
  inScope name params hbody g f hf := logs_inScope hf fun g' => hbody g' (some name)
  emit opcode operand display g f hf := by
    refine (logs_onBuffer (CodeBuffer.onlyLimits_emit _ _ _) hf).bind fun _ g₁ _ hf₁ => ?_
    exact .of_limits hf₁ (.of_ok fun _ => ⟨_, _, rfl⟩) rfl rfl
  nextAddress g f := logs_onBuffer CodeBuffer.onlyLimits_nextAddress
  reserve branch g f := logs_onBuffer (CodeBuffer.onlyLimits_reserve branch)
  patch label g f hf := logs_patch hf label

end Generation

namespace Tree

open Generation

/-- Generation of a tree reports the functions that are declared in it. -/
theorem logs_compile (t : Tree) {g : Generator} {f : Option String} (h : g.scope.function = f) :
    Logs g f t.declarations (t.compile g) :=
  compile_of_lifts stepLifts_accounts.lifts t g f h

/-- Instructions have different addresses. -/
theorem nodup_addresses {t : Tree} {p : Program} (h : t.generate = .ok p) :
    (p.code.toList.map Instruction.address).Nodup := by
  have hrange : p.code.toList.map Instruction.address = List.range p.code.size := by
    refine List.ext_getElem? fun k => ?_
    rw [List.getElem?_map, Array.getElem?_toList]
    cases hi : p.code[k]? with
    | some i =>
      have hlt := (Array.getElem?_eq_some_iff.mp hi).1
      rw [Option.map_some, address_of_region (region_of_generate h) hi, List.getElem?_range hlt]
    | none =>
      have hge := Array.getElem?_eq_none_iff.mp hi
      rw [List.getElem?_eq_none (by simpa using hge)]
      rfl
  rw [hrange]
  exact List.nodup_range

/-- The events of a tree that gives a program: what generating its code reports, and then the program. -/
theorem events_of_compile {t : Tree} {g : Generator} (h : t.compile {} = .ok () g) :
    t.events = (g.events.toList ++ [.generated g.buffer.code.size g.names.keys.length
      g.literals.constants.length], none) := by
  have hpending : g.buffer.pending = [] := (continues_of_compile t h).pending
  unfold events compileProgram
  rw [Step.bind_apply, h]
  unfold finish CodeBuffer.finish
  dsimp only
  rw [hpending]
  simp

/-- The events of a tree that gives none: what was reported until generating its code failed. -/
theorem events_of_compile_error {t : Tree} {e : GenerationError} {g : Generator}
    (h : t.compile {} = .error e g) : t.events = (g.events.toList, some e) := by
  unfold events compileProgram
  rw [Step.bind_apply, h]

/-- A tree that gives an error fails with it when its code is generated. -/
theorem exists_compile_of_generate_error {t : Tree} {e : GenerationError}
    (h : t.generate = .error e) : ∃ g, t.compile {} = .error e g := by
  cases hcompile : t.compile {} with
  | ok _ g =>
    rw [generate_of_compile hcompile] at h
    cases h
  | error e' g =>
    rw [generate_of_compile_error hcompile] at h
    cases h
    exact ⟨g, rfl⟩

/-- The events tell the truth about the code. If a tree gives a program, the last event, and only it, is
that a program is complete, with the sizes of its parts. The jumps that are reported have different
addresses, and they are the conditional jumps of the program, which all have a target, and the jumps
forward, with their targets and operations. The functions that are declared are entered and left one
after the other, in their order, each with the number of its different parameters. If a tree fails for
a function inside another, this holds of the functions up to the outer one; leaving it is the last
event, and no program is complete. -/
theorem events_tell_truth (t : Tree) :
    (∀ p, t.generate = .ok p → ∃ es,
      t.events = (es ++ [.generated p.code.size p.names.length p.constants.length], none) ∧
      (∀ e ∈ es, e.isGenerated = false) ∧
      (es.filterMap Event.patchedAddress?).Nodup ∧
      (∀ address target opcode, .patched address target opcode ∈ es ↔
        ∃ i ∈ p.code, i.address = address ∧ i.opcode = opcode ∧ i.operand = some target ∧
          (opcode = .jumpIfFalse ∨ opcode = .jump ∧ address < target)) ∧
      (∀ i ∈ p.code, i.opcode.isJump = true → i.operand.isSome = true) ∧
      es.filter Event.isScope = t.declarations.flatMap Event.ofDeclaration) ∧
    (∀ outer inner, t.generate = .error (.nestedFunction outer inner) → ∃ es before params params' rest,
      t.events = (es ++ [.exited outer], some (.nestedFunction outer inner)) ∧
      (∀ e ∈ es, e.isGenerated = false) ∧
      t.declarations = before ++ (outer, params) :: (inner, params') :: rest ∧
      (es ++ [Event.exited outer]).filter Event.isScope =
        (before ++ [(outer, params)]).flatMap Event.ofDeclaration) := by
  constructor
  · intro p hp
    obtain ⟨g, hcompile, rfl⟩ := exists_compile_of_generate hp
    -- What was patched is known from the code, and what was entered from the tree.
    have htruth := truthful_compile t .start
    rw [Step.after_of_ok hcompile] at htruth
    have hlogs : Logs {} none t.declarations (t.compile {}) := logs_compile t rfl
    rw [hcompile] at hlogs
    obtain ⟨-, -, es, hes, hscope⟩ := hlogs
    have hevents : g.events.toList = es := hes
    refine ⟨g.events.toList, events_of_compile hcompile, htruth.unfinished,
      htruth.nodup_patched (nodup_addresses hp), fun _ _ _ => htruth.mem_patched_iff,
      fun i hi hjump => ?_, by rw [hevents, hscope]⟩
    rw [(fits_of_generate hp i hi).isSome_operand]
    exact Opcode.hasOperand_of_isJump hjump
  · intro outer inner hgenerate
    obtain ⟨g, hcompile⟩ := exists_compile_of_generate_error hgenerate
    have htruth := truthful_compile t .start
    rw [Step.after_of_error hcompile] at htruth
    have hlogs : Logs {} none t.declarations (t.compile {}) := logs_compile t rfl
    rw [hcompile] at hlogs
    obtain ⟨-, es, hes, hbreaks⟩ := hlogs outer inner rfl
    have hevents : g.events.toList = es := hes
    generalize t.declarations = ds at hbreaks ⊢
    cases hbreaks with
    | outside hlast hscope =>
      obtain ⟨es', rfl⟩ := List.getLast?_eq_some_iff.mp hlast
      refine ⟨es', _, _, _, _, ?_, fun e he => ?_, rfl, hscope⟩
      · rw [events_of_compile_error hcompile, hevents]
      · exact htruth.unfinished e (hevents ▸ List.mem_append_left _ he)

/-- A function with a repeated parameter and a conditional in its body, which is generated, and the same
function with another one in that conditional, which is not. -/
theorem events_tell_truth_conditional :
    (∃ t, t = function "f" ["x", "x"] (conditional (read .variable "x")
        (print (read .variable "x")) (block .sequence [])) ∧
      ∃ p es, t.generate = .ok p ∧ t.events = (es ++ [.generated 7 1 0], none) ∧
        .patched 2 6 .jumpIfFalse ∈ es ∧ .patched 5 6 .jump ∈ es ∧
        es.filter Event.isScope = [.entered "f" 1, .exited "f"]) ∧
    ∃ t, t = function "f" ["x", "x"] (conditional (read .variable "x")
        (function "g" [] (block .sequence [])) (block .sequence [])) ∧
      t.generate = .error (.nestedFunction "f" "g") ∧
      ∃ es, t.events = (es ++ [.exited "f"], some (.nestedFunction "f" "g")) ∧
        (es ++ [Event.exited "f"]).filter Event.isScope = [.entered "f" 1, .exited "f"] := by
  constructor
  · refine ⟨_, rfl, ?_⟩
    generalize ht : function _ _ _ = t
    obtain ⟨p, hp⟩ := exists_of_isOk (t := t) (by subst ht; decide +kernel)
    obtain ⟨es, hes, -, -, hjumps, -, hscope⟩ := (events_tell_truth t).1 p hp
    obtain ⟨hcode, hnames, hconstants⟩ := layout_of_generate hp
    subst ht
    refine ⟨p, es, hp, ?_, ?_, ?_, hscope⟩
    · rw [hes, ← Array.length_toList, hcode, hnames, hconstants]
      rfl
    · refine (hjumps _ _ _).mpr ⟨⟨2, .jumpIfFalse, some 6, none⟩, ?_, rfl, rfl, rfl, .inl rfl⟩
      rw [← Array.mem_toList_iff, hcode]
      decide
    · refine (hjumps _ _ _).mpr ⟨⟨5, .jump, some 6, none⟩, ?_, rfl, rfl, rfl, .inr ⟨rfl, by decide⟩⟩
      rw [← Array.mem_toList_iff, hcode]
      decide
  · refine ⟨_, rfl, ?_⟩
    generalize ht : function "f" _ _ = t
    have herror : t.generate = .error (.nestedFunction "f" "g") := by
      subst ht
      decide +kernel
    obtain ⟨es, before, params, params', rest, hes, -, hds, hscope⟩ :=
      (events_tell_truth t).2 "f" "g" herror
    refine ⟨herror, es, hes, ?_⟩
    subst ht
    -- Two functions are declared, so the outer one is the first.
    have hlength : 2 = before.length + (rest.length + 2) :=
      (congrArg List.length hds).trans List.length_append
    obtain rfl : before = [] := List.length_eq_zero_iff.mp (by omega)
    cases hds
    exact hscope

end Tree

end Backpatch
