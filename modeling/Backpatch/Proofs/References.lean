import Backpatch.Proofs.Faults
import Backpatch.Proofs.Linking
import Mathlib.Data.List.Nodup

/-!
# Tables as functions of the tree

What the tables of a program hold can be read off its tree. `Tree.references` lists the globals that a
tree refers to, in the order in which generation reaches them, and the names of the program are the
members of this list, each where it comes first. The constants are the literals of the tree, each where
it comes first of its class (`LiteralPool.constants_insertAll`).
-/

namespace Backpatch

namespace FunctionScope

/-- A slot that is assigned does not change those of other names. -/
theorem lookup_assign_of_ne {name other : String} (h : other ≠ name) (slots : List (String × Nat))
    (slot : Nat) : (assign slots name slot).lookup other = slots.lookup other := by
  -- What is filtered out before the new slot is put in front was not looked for.
  have hfilter : (slots.filter fun entry => entry.1 != name).lookup other = slots.lookup other := by
    induction slots with
    | nil => rfl
    | cons entry slots ih =>
      by_cases hentry : entry.1 = name
      · rw [List.filter_cons_of_neg (by simp [hentry]), List.lookup_cons,
          beq_false_of_ne (hentry ▸ h), ih]
      · rw [List.filter_cons_of_pos (by simp [hentry]), List.lookup_cons, List.lookup_cons, ih]
  rw [assign, List.lookup_cons, beq_false_of_ne h]
  exact hfilter

/-- The last parameter of a list is assigned last. -/
theorem slotsOf_concat (params : List String) (name : String) :
    slotsOf (params ++ [name]) = assign (slotsOf params) name params.length := by
  unfold slotsOf
  rw [List.zipIdx_append, List.foldl_append, Nat.zero_add]
  rfl

/-- Exactly the parameters have slots. -/
theorem lookup_slotsOf_eq_none_iff (params : List String) (name : String) :
    (slotsOf params).lookup name = none ↔ name ∉ params := by
  induction params using List.reverseRecOn with
  | nil => simp [slotsOf]
  | append_singleton params param ih =>
    rw [slotsOf_concat, List.mem_append, List.mem_singleton]
    by_cases h : name = param
    · simp [h, lookup_assign_self]
    · simp [lookup_assign_of_ne h, ih, h]

/-- The scope is that of the body of `outer`, or the one outside all functions, and its parameters are
`params`. -/
structure Binds (s : FunctionScope) (outer : Option String) (params : List String) : Prop where
  /-- The function around the code. -/
  function : s.function = outer
  /-- Exactly the parameters have slots. -/
  slot : ∀ name, s.slot? name = none ↔ name ∉ params
  /-- Outside all functions the scope is empty. -/
  outside : outer = none → s = {}

/-- Outside all functions there are no parameters. -/
theorem binds_outside : Binds {} none [] :=
  ⟨rfl, fun name => by simp [slot?], fun _ => rfl⟩

/-- The body of a function has the parameters of the function. -/
theorem binds_body (function : String) (params : List String) :
    Binds ⟨some function, slotsOf params⟩ (some function) params :=
  ⟨rfl, lookup_slotsOf_eq_none_iff params, fun h => by cases h⟩

end FunctionScope

/-! ## Names -/

namespace Tree

mutual

/-- The globals that a tree refers to, where `params` are the parameters around it. A callee comes
before the arguments, the name of a store after its value, and the name of a function after its body.
A read of a parameter is not one of a global, but a store under the name of a parameter is. -/
def references (params : List String) : Tree → List String
  | block _ items => referencesAll params items
  | store _ name value => value.references params ++ [name]
  | read _ name => if name ∈ params then [] else [name]
  | function name params body => body.references params ++ [name]
  | print argument => argument.references params
  | loop test body => test.references params ++ body.references params
  | call callee arguments =>
    (if callee ∈ params then [] else [callee]) ++ referencesAll params arguments
  | conditional test consequent alternate =>
    test.references params ++ (consequent.references params ++ alternate.references params)
  | binary _ left right => left.references params ++ right.references params
  | unary _ operand => operand.references params
  | literal _ => []

/-- The globals that a list of trees refers to. -/
def referencesAll (params : List String) : List Tree → List String
  | [] => []
  | t :: ts => t.references params ++ referencesAll params ts

end

end Tree

/-- The tables `T'` are `T` with `names` among the globals, in the same scope. -/
structure Tables.Gains (T : Tables) (names : List String) (T' : Tables) : Prop where
  /-- The globals are those before and then the names that are new. -/
  names : T'.names = T.names.insertAll names
  /-- Every function that was entered was left. -/
  scope : T'.scope = T.scope

namespace Tables.Gains

variable {T T₁ T₂ : Tables} {names names₁ names₂ : List String}

/-- Tables gain nothing on their own. -/
theorem refl (T : Tables) : T.Gains [] T :=
  ⟨rfl, rfl⟩

/-- Names after names. -/
theorem trans (h₁ : T.Gains names₁ T₁) (h₂ : T₁.Gains names₂ T₂) :
    T.Gains (names₁ ++ names₂) T₂ where
  names := by rw [SymbolTable.insertAll_append, ← h₁.names, h₂.names]
  scope := h₂.scope.trans h₁.scope

/-- A store is one of a global, whatever the parameters. -/
theorem withGlobal (T : Tables) (name : String) : T.Gains [name] (T.withGlobal name) :=
  ⟨rfl, rfl⟩

/-- A read is one of a global unless the name is a parameter. -/
theorem withRead {outer : Option String} {params : List String} (h : T.scope.Binds outer params)
    (name : String) : T.Gains (if name ∈ params then [] else [name]) (T.withRead name) := by
  unfold Tables.withRead
  by_cases hmem : name ∈ params
  · cases hslot : T.scope.slot? name with
    | none => exact absurd hmem ((h.slot name).mp hslot)
    | some slot =>
      rw [if_pos hmem]
      exact refl T
  · rw [if_neg hmem, (h.slot name).mpr hmem]
    exact withGlobal T name

end Tables.Gains

namespace Tree

open Tables

mutual

/-- A tree in which nothing is nested adds the globals that it refers to, in their order. -/
theorem gains_fill : ∀ (t : Tree) {T : Tables} {outer : Option String} {params : List String},
    T.scope.Binds outer params → t.nestings outer = [] → T.Gains (t.references params) (t.fill T)
  | block _ items, T, outer, params, hs, hnil => gains_fillAll items hs hnil
  | store _ name value, T, outer, params, hs, hnil =>
    (gains_fill value hs hnil).trans (.withGlobal _ name)
  | read _ name, T, outer, params, hs, _ => .withRead hs name
  | function name params' body, T, outer, params, hs, hnil => by
    rw [nestings, List.append_eq_nil_iff] at hnil
    cases outer with
    | some outer => cases hnil.1
    | none =>
      have hbody := gains_fill body (T := T.within name params')
        (FunctionScope.binds_body name params') hnil.2
      -- The scope of the body is left again, for the empty one that it was entered from.
      exact ⟨(hbody.trans (.withGlobal _ name)).names, (hs.outside rfl).symm⟩
  | print argument, T, outer, params, hs, hnil => gains_fill argument hs hnil
  | loop test body, T, outer, params, hs, hnil => by
    rw [nestings, List.append_eq_nil_iff] at hnil
    have htest := gains_fill test hs hnil.1
    have hbody := gains_fill body (htest.scope ▸ hs) hnil.2
    exact htest.trans hbody
  | call callee arguments, T, outer, params, hs, hnil => by
    have hcallee := Gains.withRead hs callee
    exact hcallee.trans (gains_fillAll arguments (hcallee.scope ▸ hs) hnil)
  | conditional test consequent alternate, T, outer, params, hs, hnil => by
    rw [nestings, List.append_eq_nil_iff, List.append_eq_nil_iff] at hnil
    have htest := gains_fill test hs hnil.1
    have hconsequent := gains_fill consequent (htest.scope ▸ hs) hnil.2.1
    have halternate := gains_fill alternate (hconsequent.scope ▸ htest.scope ▸ hs) hnil.2.2
    exact htest.trans (hconsequent.trans halternate)
  | binary _ left right, T, outer, params, hs, hnil => by
    rw [nestings, List.append_eq_nil_iff] at hnil
    have hleft := gains_fill left hs hnil.1
    have hright := gains_fill right (hleft.scope ▸ hs) hnil.2
    exact hleft.trans hright
  | unary _ operand, T, outer, params, hs, hnil => gains_fill operand hs hnil
  | literal v, T, _, _, _, _ => ⟨rfl, rfl⟩

/-- A list of trees in which nothing is nested adds the globals that it refers to, in their order. -/
theorem gains_fillAll : ∀ (ts : List Tree) {T : Tables} {outer : Option String}
    {params : List String}, T.scope.Binds outer params → nestingsAll outer ts = [] →
    T.Gains (referencesAll params ts) (fillAll ts T)
  | [], T, _, _, _, _ => .refl T
  | t :: ts, T, outer, params, hs, hnil => by
    rw [nestingsAll, List.append_eq_nil_iff] at hnil
    have ht := gains_fill t hs hnil.1
    exact ht.trans (gains_fillAll ts (ht.scope ▸ hs) hnil.2)

end

end Tree

/-! ## Constants -/

namespace LiteralPool

/-- Whether a pool has the class of a literal. -/
def knows (p : LiteralPool) (v : Value) : Bool :=
  decide (v.canonical ∈ p.classes.keys)

/-- The constants that join a pool are the literals of new classes, each where it comes first of its
class. -/
theorem InStep.constants_insertAll {p : LiteralPool} (h : p.InStep) (vs : List Value) :
    (p.insertAll vs).constants =
      p.constants ++ (vs.filter fun v => !p.knows v).eraseDupsBy Value.same := by
  induction vs generalizing p with
  | nil => exact (List.append_nil _).symm
  | cons v vs ih =>
    rw [show p.insertAll (v :: vs) = (p.insert v).insertAll vs from rfl, ih (h.insert v)]
    by_cases hv : v.canonical ∈ p.classes.keys
    · have hinsert : p.insert v = p := by
        unfold LiteralPool.insert SymbolTable.insert
        rw [if_pos hv, if_neg fun he => (h.place_eq_length_iff v).mp he hv]
      rw [hinsert, List.filter_cons_of_neg (by simp [knows, hv])]
    · have hconstants : (p.insert v).constants = p.constants ++ [v] :=
        if_pos ((h.place_eq_length_iff v).mpr hv)
      -- From here on the class of `v` is known too.
      have hknows (u : Value) : (!(p.insert v).knows u) = (decide (u.same v = false) && !p.knows u) := by
        unfold knows LiteralPool.insert SymbolTable.insert
        rw [if_neg hv, Value.same_eq]
        simp [Bool.and_comm]
      rw [hconstants, List.filter_cons_of_pos (by simp [knows, hv]), List.eraseDupsBy_cons,
        List.filter_filter, List.append_assoc, List.singleton_append, funext hknows]

/-- The constants of a pool made from a list are the literals of the list, each where it comes first of
its class. -/
theorem constants_insertAll (vs : List Value) :
    (insertAll {} vs).constants = vs.eraseDupsBy Value.same := by
  have h : InStep {} := rfl
  rw [h.constants_insertAll vs, List.nil_append, List.filter_eq_self.mpr fun v _ => by simp [knows]]

/-- The classes of a pool grow by those of the literals that join it. -/
theorem classes_insertAll (p : LiteralPool) (vs : List Value) :
    (p.insertAll vs).classes = p.classes.insertAll (vs.map Value.canonical) := by
  induction vs generalizing p with
  | nil => rfl
  | cons v vs ih => exact ih (p.insert v)

/-- A constant of a pool made from a list is the first literal of its class there. -/
theorem find?_of_mem_constants {vs : List Value} {c : Value}
    (h : c ∈ (insertAll {} vs).constants) : vs.find? (fun u => u.same c) = some c := by
  have hempty : InStep {} := rfl
  have hkeys := hempty.insertAll vs
  have hnodup : ((insertAll {} vs).constants.map Value.canonical).Nodup := by
    rw [← hkeys, classes_insertAll]
    exact SymbolTable.nodup_insertAll List.nodup_nil _
  have hsame : (fun u => Value.same u c) = ofClass c.canonical := funext fun u => u.same_eq c
  rw [hsame, ← List.nil_append vs, ← hempty.find?_insertAll vs]
  cases hfind : (insertAll {} vs).constants.find? (ofClass c.canonical) with
  | none => exact absurd (List.find?_eq_none.mp hfind c h) (by simp [ofClass])
  | some u =>
    have hclass : u.canonical = c.canonical := by simpa [ofClass] using List.find?_some hfind
    -- No two constants share a class.
    rw [List.inj_on_of_nodup_map hnodup (List.mem_of_find?_eq_some hfind) h hclass]

end LiteralPool

namespace Tree

/-- The tables as functions of the tree. The names of the program of a tree are the globals that the
tree refers to, each where it comes first. Its constants are the literals of the tree, each where it
comes first of its class, where numbers are of one class if they are equal or both NaN; so a constant is
the very literal that the tree has first. -/
theorem tables_of_first_occurrences (t : Tree) (p : Program) (hp : t.generate = .ok p) :
    p.names = (t.references []).eraseDups ∧
      p.constants = t.literals.eraseDupsBy Value.same ∧
      ∀ c ∈ p.constants, t.literals.find? (fun u => u.same c) = some c := by
  obtain ⟨g, hcompile, -⟩ := exists_compile_of_generate hp
  obtain ⟨-, hnames, hconstants⟩ := layout_of_generate hp
  have hgains := gains_fill t (T := {}) FunctionScope.binds_outside (nestings_of_compile hcompile)
  have hpool : (t.fill {}).literals = LiteralPool.insertAll {} t.literals := t.literals_fill {}
  rw [hconstants, hpool]
  refine ⟨?_, LiteralPool.constants_insertAll _, fun c => LiteralPool.find?_of_mem_constants⟩
  rw [hnames, hgains.names]
  exact SymbolTable.keys_insertAll _

/-- In the body of `f` the parameter `x` is stored, which makes it a global, and read, which does not;
`g` is called before `y` is read. The zero outside is of the class of the one in the body, and `false`
is of neither. -/
theorem tables_of_first_occurrences_shadowed :
    ∃ p, (block .program [
        function "f" ["x"] (block .sequence [
          store .assignment "x" (call "g" [read .variable "x", read .variable "y"]),
          print (literal (.number ⟨true, 0, 0⟩))]),
        store .declaration "y" (literal (.number ⟨false, 0, 0⟩)),
        print (literal (.boolean false))]).generate = .ok p ∧
      p.names = ["g", "y", "x", "f"] ∧
      p.constants = [.number ⟨true, 0, 0⟩, .boolean false] := by
  refine (exists_of_isOk (by decide +kernel)).imp fun p hp => ⟨hp, ?_⟩
  obtain ⟨hnames, hconstants, -⟩ := tables_of_first_occurrences _ p hp
  exact ⟨hnames.trans (by decide +kernel), hconstants.trans (by decide +kernel)⟩

end Tree

end Backpatch
