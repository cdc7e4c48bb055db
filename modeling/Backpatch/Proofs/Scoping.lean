import Backpatch.Proofs.Blocks
import Backpatch.Proofs.Operands
import Backpatch.Proofs.References

/-!
# Where names are found

The scope of a function is one table that is filled and emptied again while code is generated. What comes
of it can be read off the tree. `Tree.occurrences` lists the names of a tree in the order in which
generation reaches them, each read with the parameters of the function around it, and
`Occurrence.Becomes` says which instruction a name becomes. Stretches of code that go with names compose
(`Resolves.append`), and the scope is the same before and after each tree (`FunctionScope.Surrounds`), so
what a name becomes depends on the function that it stands in and on nothing before it.
-/

namespace Backpatch

/-! ## Names and instructions -/

/-- A name as it stands in a tree. -/
inductive Occurrence where
  /-- The name is read, or called, in the body of a function with these parameters; outside all functions
  there are none. -/
  | read (name : String) (params : List String)
  /-- The name is declared, assigned to, or given to a function. -/
  | stored (name : String)
deriving DecidableEq, Repr

namespace Tree

mutual

/-- The names in a tree in the order in which generation reaches them, where `params` are the parameters
of the function around it. A callee comes before the arguments, the name of a store after its value, and
the name of a function after its body. -/
def occurrences (params : List String) : Tree → List Occurrence
  | block _ items => occurrencesAll params items
  | store _ name value => value.occurrences params ++ [.stored name]
  | read _ name => [.read name params]
  | function name params body => body.occurrences params ++ [.stored name]
  | print argument => argument.occurrences params
  | loop test body => test.occurrences params ++ body.occurrences params
  | call callee arguments => .read callee params :: occurrencesAll params arguments
  | conditional test consequent alternate =>
    test.occurrences params ++ (consequent.occurrences params ++ alternate.occurrences params)
  | binary _ left right => left.occurrences params ++ right.occurrences params
  | unary _ operand => operand.occurrences params
  | literal _ => []

/-- The names in a list of trees. -/
def occurrencesAll (params : List String) : List Tree → List Occurrence
  | [] => []
  | t :: ts => t.occurrences params ++ occurrencesAll params ts

end

end Tree

/-- Whether an instruction reads a parameter or reads or stores a global. -/
def Instruction.isNamed (i : Instruction) : Bool :=
  match i.opcode with
  | .loadFast | .loadName | .storeName => true
  | _ => false

/-- The last place of `name` in `params` is `slot`. -/
def IsLast (params : List String) (name : String) (slot : Nat) : Prop :=
  params[slot]? = some name ∧ ∀ later, slot < later → params[later]? ≠ some name

/-- The instruction that a name becomes, where `names` are the names of the globals. -/
inductive Occurrence.Becomes (names : List String) : Occurrence → Instruction → Prop where
  /-- A parameter of the function around is read from the slot where it is declared last. -/
  | parameter {address slot : Nat} {name : String} {params : List String}
      (hlast : IsLast params name slot) :
      Becomes names (.read name params) ⟨address, .loadFast, some slot, some name⟩
  /-- Any other name is read from the globals. -/
  | global {address id : Nat} {name : String} {params : List String} (hname : name ∉ params)
      (hid : names[id]? = some name) :
      Becomes names (.read name params) ⟨address, .loadName, some id, some name⟩
  /-- A store is one to a global, whether or not the name is a parameter. -/
  | stored {address id : Nat} {name : String} (hid : names[id]? = some name) :
      Becomes names (.stored name) ⟨address, .storeName, some id, some name⟩

/-! ## Slots -/

namespace FunctionScope

/-- A parameter has the slot where it is declared last. -/
theorem isLast_of_lookup_slotsOf {params : List String} {name : String} {slot : Nat}
    (h : (slotsOf params).lookup name = some slot) : IsLast params name slot := by
  induction params using List.reverseRecOn with
  | nil => cases h
  | append_singleton params param ih =>
    rw [slotsOf_concat] at h
    by_cases hname : name = param
    · subst hname
      rw [lookup_assign_self] at h
      cases h
      refine ⟨List.getElem?_concat_length, fun later hlater => ?_⟩
      rw [List.getElem?_eq_none (by rw [List.length_append, List.length_singleton]; omega)]
      simp
    · rw [lookup_assign_of_ne hname] at h
      obtain ⟨hslot, hlast⟩ := ih h
      have hlt : slot < params.length := (List.getElem?_eq_some_iff.mp hslot).1
      refine ⟨by rw [List.getElem?_append_left hlt, hslot], fun later hlater hfound => ?_⟩
      -- Behind the old parameters there is only the new one.
      by_cases hold : later < params.length
      · rw [List.getElem?_append_left hold] at hfound
        exact hlast later hlater hfound
      · rw [List.getElem?_append_right (Nat.not_lt.mp hold)] at hfound
        have hmem := List.mem_of_getElem? hfound
        exact hname (List.mem_singleton.mp hmem)

/-- The scope in the body of `outer`, which has the parameters `params`, or outside all functions. -/
structure Surrounds (s : FunctionScope) (outer : Option String) (params : List String) : Prop where
  /-- The slots are those of the parameters. -/
  eq : s = ⟨outer, slotsOf params⟩
  /-- Outside all functions there are no parameters. -/
  outside : outer = none → params = []

/-- Outside all functions the scope is empty. -/
theorem surrounds_outside : Surrounds {} none [] :=
  ⟨rfl, fun _ => rfl⟩

/-- In the body of a function the scope has its parameters. -/
theorem surrounds_body (function : String) (params : List String) :
    Surrounds ⟨some function, slotsOf params⟩ (some function) params :=
  ⟨rfl, fun h => by cases h⟩

namespace Surrounds

variable {s : FunctionScope} {outer : Option String} {params : List String}

/-- A scope that surrounds a tree binds its parameters. -/
theorem binds (h : s.Surrounds outer params) : s.Binds outer params where
  function := by rw [h.eq]
  slot name := by
    rw [h.eq]
    exact lookup_slotsOf_eq_none_iff params name
  outside houter := by
    rw [h.eq, h.outside houter, houter]
    rfl

/-- A name is found in its slot if it is a parameter. -/
theorem isLast_of_slot? (h : s.Surrounds outer params) {name : String} {slot : Nat}
    (hslot : s.slot? name = some slot) : IsLast params name slot := by
  rw [h.eq] at hslot
  exact isLast_of_lookup_slotsOf hslot

end Surrounds

end FunctionScope

/-! ## Code that goes with names -/

/-- The instructions of `code` that read or store names are those that the names become, one by one and in
their order. -/
def Resolves (p : Program) (names : List Occurrence) (code : List Instruction) : Prop :=
  List.Forall₂ (Occurrence.Becomes p.names) names (code.filter Instruction.isNamed)

namespace Resolves

variable {p : Program} {names names₁ names₂ : List Occurrence} {code code₁ code₂ : List Instruction}
  {i : Instruction}

/-- No code goes with no names. -/
theorem nil : Resolves p [] [] :=
  List.Forall₂.nil

/-- Code after code. -/
theorem append (h₁ : Resolves p names₁ code₁) (h₂ : Resolves p names₂ code₂) :
    Resolves p (names₁ ++ names₂) (code₁ ++ code₂) := by
  unfold Resolves
  rw [List.filter_append]
  exact List.rel_append h₁ h₂

/-- An instruction that has nothing to do with names. -/
theorem plain (hi : i.isNamed = false) : Resolves p [] [i] := by
  unfold Resolves
  rw [List.filter_cons_of_neg (by simp [hi])]
  exact .nil

/-- Code after an instruction that has nothing to do with names. -/
theorem cons (hi : i.isNamed = false) (h : Resolves p names code) : Resolves p names (i :: code) :=
  (plain hi).append h

/-- Code before an instruction that has nothing to do with names. -/
theorem concat (h : Resolves p names code) (hi : i.isNamed = false) :
    Resolves p names (code ++ [i]) := by
  have happend := h.append (plain hi)
  rwa [List.append_nil] at happend

variable {T : Tables} {a : Nat} {name : String}

/-- The store to a name. -/
theorem storeCode (hfits : (T.storeCode a name).Fits p) :
    Resolves p [.stored name] [T.storeCode a name] := by
  refine List.Forall₂.cons ?_ .nil
  cases hfits with
  | storeName hid => exact .stored hid

/-- The read of a name. -/
theorem readCode {outer : Option String} {params : List String} (hs : T.scope.Surrounds outer params)
    (hfits : (T.readCode a name).Fits p) :
    Resolves p [.read name params] [T.readCode a name] := by
  unfold Tables.readCode at hfits ⊢
  cases hslot : T.scope.slot? name with
  | some slot => exact List.Forall₂.cons (.parameter (hs.isLast_of_slot? hslot)) .nil
  | none =>
    rw [hslot] at hfits
    refine List.Forall₂.cons ?_ .nil
    cases hfits with
    | loadName hid => exact .global ((hs.binds.slot name).mp hslot) hid

end Resolves

/-- Unary operators have nothing to do with names. -/
theorem UnaryOp.isNamed_opcode (op : UnaryOp) (address : Nat) :
    Instruction.isNamed ⟨address, op.opcode, none, none⟩ = false := by
  cases op <;> rfl

namespace Tree

open FunctionScope

/-- The scope after a tree is the one before it. -/
theorem surrounds_fill {t : Tree} {T : Tables} {outer : Option String} {params : List String}
    (hs : T.scope.Surrounds outer params) (hnil : t.nestings outer = []) :
    (t.fill T).scope.Surrounds outer params :=
  (gains_fill t hs.binds hnil).scope ▸ hs

/-- The scope after a read is the one before it. -/
theorem surrounds_withRead {T : Tables} {outer : Option String} {params : List String}
    (hs : T.scope.Surrounds outer params) (name : String) :
    (T.withRead name).scope.Surrounds outer params :=
  (Tables.Gains.withRead hs.binds name).scope ▸ hs

section Layout

variable {p : Program}

mutual

/-- In the code of a tree in which nothing is nested, names become what they are to become. -/
theorem resolves_layout : ∀ (t : Tree) {base : Nat} {T : Tables} {outer : Option String}
    {params : List String}, T.scope.Surrounds outer params → t.nestings outer = [] →
    (∀ i ∈ t.layout base T, i.Fits p) → Resolves p (t.occurrences params) (t.layout base T)
  | block _ items, base, T, outer, params, hs, hnil, hfits => resolves_layoutAll items hs hnil hfits
  | store _ name value, base, T, outer, params, hs, hnil, hfits => by
    rw [layout, List.forall_mem_append, List.forall_mem_singleton] at hfits
    exact (resolves_layout value hs hnil hfits.1).append (.storeCode hfits.2)
  | read _ name, base, T, outer, params, hs, hnil, hfits =>
    .readCode hs (List.forall_mem_singleton.mp hfits)
  | function name params' body, base, T, outer, params, hs, hnil, hfits => by
    rw [layout, List.forall_mem_cons, List.forall_mem_append, List.forall_mem_singleton] at hfits
    rw [nestings, List.append_eq_nil_iff] at hnil
    -- The body has the parameters of this function, whatever function is around.
    have hbody := resolves_layout body (surrounds_body name params') hnil.2 hfits.2.1
    exact .cons rfl (hbody.append (.storeCode hfits.2.2))
  | print argument, base, T, outer, params, hs, hnil, hfits => by
    rw [layout, List.forall_mem_append] at hfits
    exact (resolves_layout argument hs hnil hfits.1).concat rfl
  | loop test body, base, T, outer, params, hs, hnil, hfits => by
    rw [layout, List.forall_mem_append, List.forall_mem_cons, List.forall_mem_append] at hfits
    rw [nestings, List.append_eq_nil_iff] at hnil
    have htest := resolves_layout test hs hnil.1 hfits.1
    have hbody := resolves_layout body (surrounds_fill hs hnil.1) hnil.2 hfits.2.2.1
    exact htest.append (.cons rfl (hbody.concat rfl))
  | call callee arguments, base, T, outer, params, hs, hnil, hfits => by
    rw [layout, List.forall_mem_cons, List.forall_mem_append] at hfits
    have harguments := resolves_layoutAll arguments (surrounds_withRead hs callee) hnil hfits.2.1
    exact (Resolves.readCode hs hfits.1).append (harguments.concat rfl)
  | conditional test consequent alternate, base, T, outer, params, hs, hnil, hfits => by
    rw [layout, List.forall_mem_append, List.forall_mem_cons, List.forall_mem_append,
      List.forall_mem_cons] at hfits
    rw [nestings, List.append_eq_nil_iff, List.append_eq_nil_iff] at hnil
    have hs₁ := surrounds_fill hs hnil.1
    have htest := resolves_layout test hs hnil.1 hfits.1
    have hconsequent := resolves_layout consequent hs₁ hnil.2.1 hfits.2.2.1
    have halternate := resolves_layout alternate (surrounds_fill hs₁ hnil.2.1) hnil.2.2
      hfits.2.2.2.2
    exact htest.append (.cons rfl (hconsequent.append (.cons rfl halternate)))
  | binary op left right, base, T, outer, params, hs, hnil, hfits => by
    rw [layout, List.forall_mem_append, List.forall_mem_append] at hfits
    rw [nestings, List.append_eq_nil_iff] at hnil
    have hleft := resolves_layout left hs hnil.1 hfits.1
    have hright := resolves_layout right (surrounds_fill hs hnil.1) hnil.2 hfits.2.1
    exact hleft.append (hright.concat rfl)
  | unary op operand, base, T, outer, params, hs, hnil, hfits => by
    rw [layout, List.forall_mem_append] at hfits
    exact (resolves_layout operand hs hnil hfits.1).concat (op.isNamed_opcode _)
  | literal v, base, T, outer, params, hs, hnil, hfits => .plain rfl

/-- In the code of a list of trees in which nothing is nested, names become what they are to become. -/
theorem resolves_layoutAll : ∀ (ts : List Tree) {base : Nat} {T : Tables} {outer : Option String}
    {params : List String}, T.scope.Surrounds outer params → nestingsAll outer ts = [] →
    (∀ i ∈ layoutAll ts base T, i.Fits p) →
    Resolves p (occurrencesAll params ts) (layoutAll ts base T)
  | [], base, T, outer, params, hs, hnil, hfits => .nil
  | t :: ts, base, T, outer, params, hs, hnil, hfits => by
    rw [layoutAll, List.forall_mem_append] at hfits
    rw [nestingsAll, List.append_eq_nil_iff] at hnil
    exact (resolves_layout t hs hnil.1 hfits.1).append
      (resolves_layoutAll ts (surrounds_fill hs hnil.1) hnil.2 hfits.2)

end

end Layout

/-! ## Names at their places -/

/-- The code of `u` stands where `c` says in `code`, which starts at `base`, and was made in the scope of
the function around it. -/
def LiesAt (base : Nat) (code : List Instruction) (u : Tree) (c : Site) : Prop :=
  ∃ T params, T.scope.Surrounds c.function params ∧ u.nestings c.function = [] ∧
    IsBlock base code c.offset (u.layout c.offset T)

/-- What lies in a block of some code lies in the code. -/
theorem LiesAt.of_isBlock {base a : Nat} {code inner : List Instruction} {u : Tree} {c : Site}
    (h : LiesAt a inner u c) (hblock : IsBlock base code a inner) : LiesAt base code u c := by
  obtain ⟨T, params, hs, hnil, hu⟩ := h
  exact ⟨T, params, hs, hnil, hblock.trans hu⟩

/-- The body of a function is a block of it. -/
theorem isBlock_body (name : String) (params : List String) (body : Tree) (base : Nat) (T : Tables) :
    IsBlock base ((function name params body).layout base T) (base + 1)
      (body.layout (base + 1) (T.within name params)) := by
  refine ⟨[_], _, rfl, rfl, ?_, ?_⟩ <;>
    exact List.forall_mem_singleton.mpr (Instruction.jumpsAround_of_not_isJump rfl)

/-- A tree lies in its own code, so that it remains to show this of the trees below it. -/
theorem liesAt_of_mem_cons {t u : Tree} {T : Tables} {params : List String} {c₀ c : Site}
    {below : List (Tree × Site)} (hs : T.scope.Surrounds c₀.function params)
    (hnil : t.nestings c₀.function = []) (hu : (u, c) ∈ (t, c₀) :: below)
    (hbelow : (u, c) ∈ below → LiesAt c₀.offset (t.layout c₀.offset T) u c) :
    LiesAt c₀.offset (t.layout c₀.offset T) u c := by
  rcases List.mem_cons.mp hu with hself | hu
  · cases hself
    exact ⟨T, params, hs, hnil, .refl⟩
  · exact hbelow hu

mutual

/-- Every tree within a tree lies in the code of the tree. -/
theorem liesAt_of_mem_sites : ∀ (t : Tree) (c₀ : Site) {T : Tables} {params : List String},
    T.scope.Surrounds c₀.function params → t.nestings c₀.function = [] →
    ∀ {u : Tree} {c : Site}, (u, c) ∈ t.sites c₀ →
    LiesAt c₀.offset (t.layout c₀.offset T) u c
  | block _ items, c₀, T, params, hs, hnil, u, c, hu => by
    refine liesAt_of_mem_cons hs hnil hu fun hu => ?_
    exact liesAt_of_mem_sitesAll items c₀ hs hnil hu
  | store _ name value, c₀, T, params, hs, hnil, u, c, hu => by
    refine liesAt_of_mem_cons hs hnil hu fun hu => ?_
    exact (liesAt_of_mem_sites value c₀ hs hnil hu).of_isBlock (.of_concat rfl)
  | read _ name, c₀, T, params, hs, hnil, u, c, hu =>
    liesAt_of_mem_cons hs hnil hu fun hu => by cases hu
  | function name params' body, c₀, T, params, hs, hnil, u, c, hu => by
    refine liesAt_of_mem_cons hs hnil hu fun hu => ?_
    rw [nestings, List.append_eq_nil_iff] at hnil
    have hbody := liesAt_of_mem_sites body (c₀.inFunction name) (T := T.within name params')
      (surrounds_body name params') hnil.2 hu
    exact hbody.of_isBlock (isBlock_body name params' body _ T)
  | print argument, c₀, T, params, hs, hnil, u, c, hu => by
    refine liesAt_of_mem_cons hs hnil hu fun hu => ?_
    exact (liesAt_of_mem_sites argument c₀ hs hnil hu).of_isBlock (.of_concat rfl)
  | loop test body, c₀, T, params, hs, hnil, u, c, hu => by
    refine liesAt_of_mem_cons hs hnil hu fun hu => ?_
    rw [nestings, List.append_eq_nil_iff] at hnil
    rcases List.mem_append.mp hu with hu | hu
    · exact (liesAt_of_mem_sites test c₀ hs hnil.1 hu).of_isBlock (isBlock_loop test body _ T).1
    · have hbody := liesAt_of_mem_sites body ((c₀.skip test.size).guarded .ifFalse)
        (surrounds_fill hs hnil.1) hnil.2 hu
      exact hbody.of_isBlock (isBlock_loop test body _ T).2
  | call callee arguments, c₀, T, params, hs, hnil, u, c, hu => by
    refine liesAt_of_mem_cons hs hnil hu fun hu => ?_
    have harguments := liesAt_of_mem_sitesAll arguments (c₀.skip 1) (surrounds_withRead hs callee)
      hnil hu
    exact harguments.of_isBlock (isBlock_arguments callee arguments _ T)
  | conditional test consequent alternate, c₀, T, params, hs, hnil, u, c, hu => by
    refine liesAt_of_mem_cons hs hnil hu fun hu => ?_
    rw [nestings, List.append_eq_nil_iff, List.append_eq_nil_iff] at hnil
    have hs₁ := surrounds_fill hs hnil.1
    rcases List.mem_append.mp hu with hu | hu
    · exact (liesAt_of_mem_sites test c₀ hs hnil.1 hu).of_isBlock
        (isBlock_conditional test consequent alternate _ T).1
    rcases List.mem_append.mp hu with hu | hu
    · have hconsequent := liesAt_of_mem_sites consequent ((c₀.skip test.size).guarded .ifFalse) hs₁
        hnil.2.1 hu
      exact hconsequent.of_isBlock (isBlock_conditional test consequent alternate _ T).2
    · have halternate := liesAt_of_mem_sites alternate
        ((c₀.skip (test.size + 1 + consequent.size)).guarded .always) (surrounds_fill hs₁ hnil.2.1)
        hnil.2.2 hu
      have hblock := isBlock_alternate test consequent alternate c₀.offset T
      rw [Nat.add_assoc c₀.offset, Nat.add_assoc c₀.offset] at hblock
      exact halternate.of_isBlock hblock
  | binary op left right, c₀, T, params, hs, hnil, u, c, hu => by
    refine liesAt_of_mem_cons hs hnil hu fun hu => ?_
    rw [nestings, List.append_eq_nil_iff] at hnil
    rcases List.mem_append.mp hu with hu | hu
    · exact (liesAt_of_mem_sites left c₀ hs hnil.1 hu).of_isBlock (isBlock_left op left right _ T)
    · have hright := liesAt_of_mem_sites right (c₀.skip left.size) (surrounds_fill hs hnil.1) hnil.2
        hu
      exact hright.of_isBlock (isBlock_right op left right _ T)
  | unary op operand, c₀, T, params, hs, hnil, u, c, hu => by
    refine liesAt_of_mem_cons hs hnil hu fun hu => ?_
    exact (liesAt_of_mem_sites operand c₀ hs hnil hu).of_isBlock (.of_concat op.isJump_opcode)
  | literal v, c₀, T, params, hs, hnil, u, c, hu =>
    liesAt_of_mem_cons hs hnil hu fun hu => by cases hu

/-- Every tree within a list of trees lies in the code of the list. -/
theorem liesAt_of_mem_sitesAll : ∀ (ts : List Tree) (c₀ : Site) {T : Tables} {params : List String},
    T.scope.Surrounds c₀.function params → nestingsAll c₀.function ts = [] →
    ∀ {u : Tree} {c : Site}, (u, c) ∈ sitesAll ts c₀ →
    LiesAt c₀.offset (layoutAll ts c₀.offset T) u c
  | [], c₀, T, params, hs, hnil, u, c, hu => by cases hu
  | t :: ts, c₀, T, params, hs, hnil, u, c, hu => by
    rw [nestingsAll, List.append_eq_nil_iff] at hnil
    rcases List.mem_append.mp hu with hu | hu
    · refine (liesAt_of_mem_sites t c₀ hs hnil.1 hu).of_isBlock ?_
      exact isBlock_member [] t ts c₀.offset T
    · have hrest := liesAt_of_mem_sitesAll ts (c₀.skip t.size) (surrounds_fill hs hnil.1) hnil.2 hu
      refine hrest.of_isBlock (.of_append_end ?_ ?_)
      · rw [length_layout]
        rfl
      · exact (region_layout t c₀.offset T).around (.inl (Nat.le_refl _))

end

/-! ## Parameters in bodies only -/

/-- The instructions of `code` that read parameters stand in bodies of the functions among `trees`. -/
def InBodies (code : List Instruction) (trees : List (Tree × Site)) : Prop :=
  ∀ i ∈ code, i.opcode = .loadFast → ∃ name params body c,
    (function name params body, c) ∈ trees ∧ c.offset < i.address ∧ i.address ≤ c.offset + body.size

namespace InBodies

variable {code code₁ code₂ : List Instruction} {i : Instruction} {trees trees' : List (Tree × Site)}

/-- There may be more trees. -/
theorem mono (h : InBodies code trees) (hsub : trees ⊆ trees') : InBodies code trees' := by
  intro i hi hop
  obtain ⟨name, params, body, c, hmem, haddress⟩ := h i hi hop
  exact ⟨name, params, body, c, hsub hmem, haddress⟩

/-- Code after code. -/
theorem append (h₁ : InBodies code₁ trees) (h₂ : InBodies code₂ trees) :
    InBodies (code₁ ++ code₂) trees :=
  List.forall_mem_append.mpr ⟨h₁, h₂⟩

/-- Code after an instruction that reads no parameter. -/
theorem cons (hi : (i.opcode == .loadFast) = false) (h : InBodies code trees) :
    InBodies (i :: code) trees :=
  List.forall_mem_cons.mpr ⟨fun hop => absurd hop (beq_eq_false_iff_ne.mp hi), h⟩

/-- An instruction that reads no parameter. -/
theorem plain (hi : (i.opcode == .loadFast) = false) : InBodies [i] trees :=
  .cons hi fun _ hmem => by cases hmem

/-- Code before an instruction that reads no parameter. -/
theorem concat (h : InBodies code trees) (hi : (i.opcode == .loadFast) = false) :
    InBodies (code ++ [i]) trees :=
  h.append (.plain hi)

/-- A body takes up the addresses right after the start of its function. -/
theorem layout_body {name : String} {params : List String} {body : Tree} {c : Site}
    (hmem : (function name params body, c) ∈ trees) (T : Tables) :
    InBodies (body.layout (c.offset + 1) T) trees := by
  intro i hi _
  obtain ⟨k, hk⟩ := List.getElem?_of_mem hi
  have hlt : k < (body.layout (c.offset + 1) T).length := (List.getElem?_eq_some_iff.mp hk).1
  rw [length_layout] at hlt
  have haddress := (region_layout body (c.offset + 1) T).address k i hk
  exact ⟨name, params, body, c, hmem, by omega, by omega⟩

end InBodies

/-- Outside all functions no read is one of a parameter. -/
theorem readCode_of_outside {T : Tables} (hs : T.scope = {}) (a : Nat) (name : String) :
    ((T.readCode a name).opcode == .loadFast) = false := by
  rw [(Tables.read_of_outside hs a name).2]
  rfl

mutual

/-- In the code of a tree outside all functions, parameters are read in bodies of functions only. -/
theorem inBodies_layout : ∀ (t : Tree) (c : Site) {T : Tables}, T.scope = {} →
    InBodies (t.layout c.offset T) (t.sites c)
  | block _ items, c, T, hs => (inBodies_layoutAll items c hs).mono (List.subset_cons_self _ _)
  | store _ name value, c, T, hs =>
    ((inBodies_layout value c hs).mono (List.subset_cons_self _ _)).concat rfl
  | read _ name, c, T, hs => .plain (readCode_of_outside hs _ _)
  | function name params body, c, T, hs =>
    .cons rfl ((InBodies.layout_body List.mem_cons_self _).concat rfl)
  | print argument, c, T, hs =>
    ((inBodies_layout argument c hs).mono (List.subset_cons_self _ _)).concat rfl
  | loop test body, c, T, hs => by
    have htest := inBodies_layout test c hs
    have hbody := inBodies_layout body ((c.skip test.size).guarded .ifFalse)
      ((extends_fill test T).scope hs)
    refine .mono ?_ (List.subset_cons_self _ _)
    refine (htest.mono (List.subset_append_left _ _)).append (.cons rfl ?_)
    exact (hbody.mono (List.subset_append_right _ _)).concat rfl
  | call callee arguments, c, T, hs => by
    have harguments := inBodies_layoutAll arguments (c.skip 1)
      ((Tables.Extends.withRead T callee).scope hs)
    refine .cons (readCode_of_outside hs _ _) ?_
    exact (harguments.mono (List.subset_cons_self _ _)).concat rfl
  | conditional test consequent alternate, c, T, hs => by
    have hs₁ := (extends_fill test T).scope hs
    have htest := inBodies_layout test c hs
    have hconsequent := inBodies_layout consequent ((c.skip test.size).guarded .ifFalse) hs₁
    have halternate := inBodies_layout alternate
      ((c.skip (test.size + 1 + consequent.size)).guarded .always)
      ((extends_fill consequent _).scope hs₁)
    -- The site counts from the start of the conditional, the layout from the start of each part.
    rw [layout, Nat.add_assoc c.offset, Nat.add_assoc c.offset]
    refine .mono ?_ (List.subset_cons_self _ _)
    refine (htest.mono (List.subset_append_left _ _)).append (.cons rfl ?_)
    refine .mono ?_ (List.subset_append_right _ _)
    refine (hconsequent.mono (List.subset_append_left _ _)).append (.cons rfl ?_)
    exact halternate.mono (List.subset_append_right _ _)
  | binary op left right, c, T, hs => by
    have hleft := inBodies_layout left c hs
    have hright := inBodies_layout right (c.skip left.size) ((extends_fill left T).scope hs)
    refine .mono ?_ (List.subset_cons_self _ _)
    refine (hleft.mono (List.subset_append_left _ _)).append ?_
    exact (hright.mono (List.subset_append_right _ _)).concat rfl
  | unary op operand, c, T, hs => by
    refine ((inBodies_layout operand c hs).mono (List.subset_cons_self _ _)).concat ?_
    cases op <;> rfl
  | literal v, c, T, hs => .plain rfl

/-- In the code of a list of trees outside all functions, parameters are read in bodies of functions
only. -/
theorem inBodies_layoutAll : ∀ (ts : List Tree) (c : Site) {T : Tables}, T.scope = {} →
    InBodies (layoutAll ts c.offset T) (sitesAll ts c)
  | [], c, T, hs => fun _ hmem => by cases hmem
  | t :: ts, c, T, hs => by
    have hrest := inBodies_layoutAll ts (c.skip t.size) ((extends_fill t T).scope hs)
    refine ((inBodies_layout t c hs).mono (List.subset_append_left _ _)).append ?_
    exact hrest.mono (List.subset_append_right _ _)

end

/-- What a name becomes depends on the function that it stands in. In the program of a tree the
instructions that read or store names and the names in the tree, in the order in which generation reaches
them, correspond one to one. A read of a parameter of the function around it is one of the slot where the
parameter is declared last, any other read is one of a global, and a store is one to a global, also under
the name of a parameter. The same holds at the addresses of each tree within the tree that stands outside
all functions, whatever functions stand before it or after it; and an instruction that reads a parameter
stands in the body of a function. -/
theorem names_follow_scopes (t : Tree) (p : Program) (hp : t.generate = .ok p) :
    List.Forall₂ (Occurrence.Becomes p.names) (t.occurrences [])
      (p.code.toList.filter Instruction.isNamed) ∧
    (∀ u c, (u, c) ∈ t.sites {} → c.function = none →
      List.Forall₂ (Occurrence.Becomes p.names) (u.occurrences [])
        (((p.code.toList.drop c.offset).take u.size).filter Instruction.isNamed)) ∧
    ∀ (k : Nat) (i : Instruction), p.code[k]? = some i → i.opcode = .loadFast →
      ∃ name params body c, (function name params body, c) ∈ t.sites {} ∧ c.offset < k ∧
        k ≤ c.offset + body.size := by
  obtain ⟨g, hcompile, -⟩ := exists_compile_of_generate hp
  obtain ⟨hcode, -, -⟩ := layout_of_generate hp
  have hnil : t.nestings none = [] := nestings_of_compile hcompile
  have hfits : ∀ i ∈ t.layout 0 {}, i.Fits p := by
    intro i hi
    rw [← hcode] at hi
    exact fits_of_generate hp i (Array.mem_toList_iff.mp hi)
  rw [hcode]
  refine ⟨resolves_layout t surrounds_outside hnil hfits, ?_, ?_⟩
  · intro u c hu houtside
    obtain ⟨T, params, hs, hunil, before, after, heq, hoffset, -, -⟩ :=
      liesAt_of_mem_sites t {} (T := {}) surrounds_outside hnil hu
    have hstretch : ((t.layout 0 {}).drop c.offset).take u.size = u.layout c.offset T := by
      rw [heq, hoffset, Nat.zero_add, List.drop_left, List.take_left' (length_layout u _ _)]
    rw [hstretch]
    -- Outside all functions there are no parameters, whatever the tables have gained so far.
    rw [houtside] at hs hunil
    rw [hs.outside rfl] at hs
    refine resolves_layout u hs hunil fun i hi => hfits i ?_
    rw [heq]
    exact List.mem_append_right _ (List.mem_append_left _ hi)
  · intro k i hk hop
    rw [← Array.getElem?_toList, hcode] at hk
    have haddress := (region_layout t 0 {}).address k i hk
    rw [Nat.zero_add] at haddress
    rw [← haddress]
    exact inBodies_layout t {} rfl i (List.mem_of_getElem? hk) hop

/-- A parameter that is declared twice is called and read in a body that also stores under its name, and
after the function the name is read again: in the body it is in the last slot, after it a global. -/
theorem names_follow_scopes_shadowed :
    ∃ p, (block .program [
        function "f" ["a", "b", "a"] (store .assignment "a" (call "a" [read .variable "b"])),
        print (read .variable "a")]).generate = .ok p ∧
      List.Forall₂ (Occurrence.Becomes p.names)
        [.read "a" ["a", "b", "a"], .read "b" ["a", "b", "a"], .stored "a", .stored "f", .read "a" []]
        (p.code.toList.filter Instruction.isNamed) ∧
      (p.code.toList.filter Instruction.isNamed).map (fun i => (i.opcode, i.operand, i.display)) =
        [(.loadFast, some 2, some "a"), (.loadFast, some 1, some "b"), (.storeName, some 0, some "a"),
          (.storeName, some 1, some "f"), (.loadName, some 0, some "a")] := by
  refine (exists_of_isOk (by decide +kernel)).imp fun p hp => ⟨hp, ?_, ?_⟩
  · exact (names_follow_scopes _ p hp).1
  · rw [(layout_of_generate hp).1]
    rfl

end Tree

end Backpatch
