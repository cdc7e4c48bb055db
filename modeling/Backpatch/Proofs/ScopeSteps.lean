import Backpatch.Proofs.Reports
import Backpatch.Proofs.Scoping

/-!
# Scopes under any steps

A scope may be entered and left in any order. It may be entered while a function is current, which is
refused, and left while none is, which leaves it empty. So after any steps the scope is empty or that of
one function, the one that was entered while none was current and has not been left since
(`FunctionScope.follow_cases`), and of the steps before that nothing remains
(`FunctionScope.follow_of_entered`). What is found in it depends on the parameters of this function alone,
each of which has its last place among them.
-/

namespace Backpatch

/-- One step of a scope. -/
inductive ScopeStep where
  /-- A function is entered. -/
  | enter (function : String) (params : List String)
  /-- The current function is left, if there is one. -/
  | leave
deriving DecidableEq, Repr

namespace ScopeStep

/-- The scope after a step, whether it is refused or not. -/
def apply : ScopeStep → FunctionScope → FunctionScope
  | enter function params => (FunctionScope.enter function params).after
  | leave => FunctionScope.leave

/-- The number of parameters that a step brings. -/
def paramCount : ScopeStep → Nat
  | enter _ params => params.length
  | leave => 0

end ScopeStep

/-- No name has two last places. -/
theorem IsLast.unique {params : List String} {name : String} {slot slot' : Nat}
    (h : IsLast params name slot) (h' : IsLast params name slot') : slot = slot' := by
  rcases Nat.lt_trichotomy slot slot' with hlt | heq | hgt
  · exact absurd h'.1 (h.2 slot' hlt)
  · exact heq
  · exact absurd h.1 (h'.2 slot hgt)

namespace FunctionScope

/-! ## Slots of a parameter list -/

/-- The slot of a parameter is its last place, and nothing else has a slot. -/
theorem lookup_slotsOf_eq_some_iff {params : List String} {name : String} {slot : Nat} :
    (slotsOf params).lookup name = some slot ↔ IsLast params name slot := by
  refine ⟨isLast_of_lookup_slotsOf, fun hlast => ?_⟩
  cases hlookup : (slotsOf params).lookup name with
  | none =>
    have hmem : name ∈ params := List.mem_of_getElem? hlast.1
    exact absurd hmem ((lookup_slotsOf_eq_none_iff params name).mp hlookup)
  | some slot' => rw [(isLast_of_lookup_slotsOf hlookup).unique hlast]

/-- A name is a parameter if it has a slot. -/
theorem isParam_iff (s : FunctionScope) (name : String) :
    s.isParam name = true ↔ name ∈ s.slots.map Prod.fst := by
  simp [isParam]

/-! ## Steps -/

/-- Entering a function fails exactly if one is current. The error names both, and the scope stays as it
is. -/
theorem enter_eq_error_iff {s s' : FunctionScope} {function : String} {params : List String}
    {e : GenerationError} (hparams : params.length ≤ addressLimit) :
    enter function params s = .error e s' ↔
      ∃ outer, s.function = some outer ∧ e = .nestedFunction outer function ∧ s' = s := by
  cases hf : s.function with
  | none =>
    rw [enter_of_none hf function hparams]
    exact iff_of_false nofun nofun
  | some outer =>
    rw [enter_of_some hf]
    constructor
    · rintro ⟨⟩
      exact ⟨outer, rfl, rfl, rfl⟩
    · rintro ⟨_, ⟨⟩, rfl, rfl⟩
      rfl

/-- Where no function is current, one is entered with the slots of its parameters. -/
theorem apply_enter_of_none {s : FunctionScope} (h : s.function = none) (function : String)
    {params : List String} (hparams : params.length ≤ addressLimit) :
    (ScopeStep.enter function params).apply s = ⟨some function, slotsOf params⟩ :=
  Step.after_of_ok (enter_of_none h function hparams)

/-- Where a function is current, nothing but leaving it changes the scope. -/
theorem apply_of_some {s : FunctionScope} {outer : String} (h : s.function = some outer)
    {step : ScopeStep} (hstep : step ≠ .leave) : step.apply s = s := by
  cases step with
  | enter function params => exact Step.after_of_error (enter_of_some h function params)
  | leave => exact absurd rfl hstep

/-! ## Runs -/

/-- The scope after some steps, the refused ones among them. -/
def follow (s : FunctionScope) (steps : List ScopeStep) : FunctionScope :=
  steps.foldl (fun s step => step.apply s) s

/-- Steps are followed one after the other. -/
theorem follow_append (s : FunctionScope) (before after : List ScopeStep) :
    s.follow (before ++ after) = (s.follow before).follow after :=
  List.foldl_append

/-- Where a function is current, the scope stays as it is until the function is left. -/
theorem follow_of_some {s : FunctionScope} {outer : String} (h : s.function = some outer)
    {steps : List ScopeStep} (hsteps : .leave ∉ steps) : s.follow steps = s := by
  induction steps with
  | nil => rfl
  | cons step steps ih =>
    rw [List.mem_cons, not_or] at hsteps
    have hstep : step.apply s = s := apply_of_some h fun heq => hsteps.1 heq.symm
    rw [follow, List.foldl_cons, hstep]
    exact ih hsteps.2

/-- From where a function is entered until it is left, the scope is that of the function, whatever was
before. -/
theorem follow_of_entered {before after : List ScopeStep} {function : String} {params : List String}
    (hbefore : (follow {} before).function = none) (hparams : params.length ≤ addressLimit)
    (hafter : .leave ∉ after) :
    follow {} (before ++ .enter function params :: after) = ⟨some function, slotsOf params⟩ := by
  have henter := apply_enter_of_none hbefore function hparams
  rw [follow_append, follow, List.foldl_cons, henter]
  exact follow_of_some rfl hafter

/-- After any steps the scope is empty, or a function was entered while none was current and has not been
left since. -/
theorem follow_cases {steps : List ScopeStep} (hsteps : ∀ step ∈ steps, step.paramCount ≤ addressLimit) :
    follow {} steps = {} ∨ ∃ before function params after,
      steps = before ++ .enter function params :: after ∧ (follow {} before).function = none ∧
        .leave ∉ after ∧ follow {} steps = ⟨some function, slotsOf params⟩ := by
  -- From the end, since whether the last step is refused depends on all the steps before it.
  induction steps using List.reverseRecOn with
  | nil => exact .inl rfl
  | append_singleton steps step ih =>
    have hlast : step.paramCount ≤ addressLimit := hsteps step (by simp)
    have hcases := ih fun step' hstep' => hsteps step' (List.mem_append_left _ hstep')
    have hfollow : follow {} (steps ++ [step]) = step.apply (follow {} steps) := follow_append _ _ _
    rw [hfollow]
    cases step with
    | leave => exact .inl rfl
    | enter function params =>
      right
      rcases hcases with hempty | ⟨before, outer, outerParams, after, rfl, hbefore, hafter, hscope⟩
      · have hnone : (follow {} steps).function = none := by rw [hempty]
        exact ⟨steps, function, params, [], rfl, hnone, by simp, apply_enter_of_none hnone function hlast⟩
      · -- The step is refused, and the function that was entered before is still the current one.
        refine ⟨before, outer, outerParams, after ++ [.enter function params], by simp, hbefore,
          by simpa using hafter, ?_⟩
        rw [hscope]
        exact apply_of_some rfl nofun

/-- A function is current exactly if it was entered while none was and has not been left since. -/
theorem function_follow_iff {steps : List ScopeStep}
    (hsteps : ∀ step ∈ steps, step.paramCount ≤ addressLimit) (function : String) :
    (follow {} steps).function = some function ↔ ∃ before params after,
      steps = before ++ .enter function params :: after ∧ (follow {} before).function = none ∧
        .leave ∉ after := by
  constructor
  · intro hcurrent
    rcases follow_cases hsteps with
      hempty | ⟨before, entered, params, after, hsplit, hbefore, hafter, hscope⟩
    · rw [hempty] at hcurrent
      cases hcurrent
    · rw [hscope] at hcurrent
      cases hcurrent
      exact ⟨before, params, after, hsplit, hbefore, hafter⟩
  · rintro ⟨before, params, after, rfl, hbefore, hafter⟩
    have hparams : params.length ≤ addressLimit := hsteps (.enter function params) (by simp)
    rw [follow_of_entered hbefore hparams hafter]

/-- The scope as a state machine. After any steps from the empty scope, where the refused ones are left
in and each function has at most as many parameters as there are slots:

- outside all functions no slots are taken;
- a function is current exactly if it was entered while none was and has not been left since;
- entering a function fails exactly if one is current, the error names the current one as the outer and
  the refused one as the inner, and the scope stays as it is;
- from where a function is entered until it is left, the slot of a name is its last place among the
  parameters, a name that is not among them has none, exactly those among them are parameters, there are
  as many as there are different names, and the scope is the one that entering this function alone would
  give, so that nothing of the functions before it is left. -/
theorem scope_is_of_function_entered (steps : List ScopeStep)
    (hsteps : ∀ step ∈ steps, step.paramCount ≤ addressLimit) :
    ((follow {} steps).function = none → (follow {} steps).slots = []) ∧
    (∀ function, (follow {} steps).function = some function ↔ ∃ before params after,
      steps = before ++ .enter function params :: after ∧ (follow {} before).function = none ∧
        .leave ∉ after) ∧
    (∀ (function : String) (params : List String) (e : GenerationError) (s : FunctionScope),
      params.length ≤ addressLimit →
      (enter function params (follow {} steps) = .error e s ↔
        ∃ outer, (follow {} steps).function = some outer ∧ e = .nestedFunction outer function ∧
          s = follow {} steps)) ∧
    (∀ (before after : List ScopeStep) (function : String) (params : List String) (s : FunctionScope),
      steps = before ++ .enter function params :: after →
      enter function params (follow {} before) = .ok () s → .leave ∉ after →
      (follow {} steps).function = some function ∧
      (∀ name slot, (follow {} steps).slot? name = some slot ↔ IsLast params name slot) ∧
      (∀ name, (follow {} steps).slot? name = none ↔ name ∉ params) ∧
      (∀ name, (follow {} steps).isParam name = true ↔ name ∈ params) ∧
      (follow {} steps).size = params.eraseDups.length ∧
      follow {} steps = follow {} [.enter function params]) := by
  refine ⟨fun hnone => ?_, function_follow_iff hsteps, ?_, ?_⟩
  · rcases follow_cases hsteps with hempty | ⟨_, _, _, _, -, -, -, hscope⟩
    · rw [hempty]
    · rw [hscope] at hnone
      cases hnone
  · intro function params e s hparams
    exact enter_eq_error_iff hparams
  · rintro before after function params s rfl henter hafter
    have hparams : params.length ≤ addressLimit := hsteps (.enter function params) (by simp)
    -- The function was entered, so none was current before it.
    have hbefore : (follow {} before).function = none := by
      cases hf : (follow {} before).function with
      | none => rfl
      | some outer =>
        rw [enter_of_some hf] at henter
        cases henter
    have hfresh : follow {} [.enter function params] = ⟨some function, slotsOf params⟩ :=
      apply_enter_of_none rfl function hparams
    rw [follow_of_entered hbefore hparams hafter, hfresh]
    refine ⟨rfl, fun name slot => lookup_slotsOf_eq_some_iff, lookup_slotsOf_eq_none_iff params,
      fun name => ?_, length_slotsOf params, rfl⟩
    rw [isParam_iff, mem_slotsOf]

/-- A scope is left before it is entered, `f` is entered and left, and then `h`, with `g` and `k` refused on
the way: the repeated parameter of `h` has its last place, and neither the parameters of `f` nor those of
`k` are found. -/
theorem scope_is_of_function_entered_refused :
    ∃ steps : List ScopeStep, steps = [.leave, .enter "f" ["x", "b"], .enter "g" ["a"], .leave,
        .enter "h" ["a", "b", "a"], .enter "k" ["z"]] ∧
      (∀ step ∈ steps, step.paramCount ≤ addressLimit) ∧
      (follow {} steps).function = some "h" ∧
      (follow {} steps).slot? "a" = some 2 ∧ (follow {} steps).slot? "b" = some 1 ∧
      (follow {} steps).slot? "x" = none ∧ (follow {} steps).isParam "z" = false ∧
      (follow {} steps).size = 2 ∧
      enter "m" [] (follow {} steps) = .error (.nestedFunction "h" "m") (follow {} steps) := by
  refine ⟨_, rfl, ?_⟩
  generalize hlist : (List.cons _ _ : List ScopeStep) = steps
  have hsteps : ∀ step ∈ steps, step.paramCount ≤ addressLimit := by
    subst hlist
    decide
  obtain ⟨-, -, hrefused, hentered⟩ := scope_is_of_function_entered steps hsteps
  subst hlist
  obtain ⟨hcurrent, hslot, hnone, hparam, hsize, -⟩ := hentered
    [.leave, .enter "f" ["x", "b"], .enter "g" ["a"], .leave] [.enter "k" ["z"]] "h" ["a", "b", "a"] _ rfl
    rfl (by decide)
  refine ⟨hsteps, hcurrent, ?_, ?_, ?_, ?_, hsize, ?_⟩
  · exact (hslot "a" 2).mpr ⟨rfl, by grind⟩
  · exact (hslot "b" 1).mpr ⟨rfl, by grind⟩
  · exact (hnone "x").mpr (by decide)
  · rw [Bool.eq_false_iff, ne_eq, hparam]
    decide
  · exact (hrefused "m" [] _ _ (Nat.zero_le _)).mpr ⟨"h", hcurrent, rfl, rfl⟩

end FunctionScope

end Backpatch
