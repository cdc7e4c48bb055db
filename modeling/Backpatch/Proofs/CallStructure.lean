import Backpatch.Proofs.Operands

/-!
# The structure of calls

A call does not say how many arguments it has, so its code is read with the arities of the names at
hand: a load puts a variable on a stack, and a call takes as many trees as some variable below them
has parameters. Which variable that is may be open, since a name that waits for its arguments looks
like one that is passed as a value. `Reduces` gives the readings of some code, and the code of a tree has
the tree among them (`Tree.reduces_layout`). Where two readings part, one of them calls a name with some
arguments and the other passes that name and the same arguments to a call, as the last ones of more
(`Tree.Absorbs`). Trees that do not absorb each other's calls have one reading (`Reduces.unique`).
-/

namespace Backpatch

namespace Tree

/-- A tree of variables and calls, in which every call has as many arguments as its callee has
parameters. -/
inductive IsApplication (arity : String → Nat) : Tree → Prop where
  /-- A variable. -/
  | read (name : String) : IsApplication arity (read .variable name)
  /-- A call with as many arguments as the callee has parameters. -/
  | call {callee : String} {arguments : List Tree} (hlength : arguments.length = arity callee)
      (h : ∀ t ∈ arguments, IsApplication arity t) : IsApplication arity (call callee arguments)

/-- The arguments of a call. -/
def arguments : Tree → List Tree
  | call _ arguments => arguments
  | _ => []

/-- Some call within the trees `ts` ends in a name and arguments with which the trees `us` call that name,
so that the loads before it may be grouped in two ways. -/
def Absorbs (ts us : List Tree) : Prop :=
  ∃ f as, call f as ∈ preorderAll us ∧
    ∃ g before, call g (before ++ read .variable f :: as) ∈ preorderAll ts

end Tree

open Backpatch.Tree

/-- A reading of loads (`some name`) and calls (`none`), from one stack of trees to another, that makes
only calls among `parts`. The top of a stack comes first. -/
inductive Reduces (arity : String → Nat) (parts : List Tree) :
    List (Option String) → List Tree → List Tree → Prop where
  /-- The code is read. -/
  | done (stack : List Tree) : Reduces arity parts [] stack stack
  /-- A load puts a variable on the stack. -/
  | load {name : String} {code : List (Option String)} {stack stack' : List Tree}
      (h : Reduces arity parts code (read .variable name :: stack) stack') :
      Reduces arity parts (some name :: code) stack stack'
  /-- A call takes its arguments and the variable below them, which it calls. -/
  | call {callee : String} {args : List Tree} {code : List (Option String)}
      {stack stack' : List Tree} (hlength : args.length = arity callee)
      (hcall : call callee args ∈ parts)
      (h : Reduces arity parts code (call callee args :: stack) stack') :
      Reduces arity parts (none :: code) (args.reverse ++ read .variable callee :: stack) stack'

section Reading

variable {arity : String → Nat} {parts : List Tree}

/-- Wherever the code of a tree stands, it can be read as putting the tree on the stack. -/
def Tree.ReadsAs (arity : String → Nat) (parts : List Tree) (t : Tree) : Prop :=
  ∀ (base : Nat) (T : Tables) (code : List (Option String)) (stack stack' : List Tree),
    T.scope = {} → (∀ s ∈ t.preorder, s ∈ parts) → Reduces arity parts code (t :: stack) stack' →
    Reduces arity parts ((t.layout base T).map Instruction.global? ++ code) stack stack'

/-- The code of a list of trees can be read as putting them on the stack one after the other if the code
of each can. -/
theorem Tree.reduces_layoutAll : ∀ (ts : List Tree), (∀ t ∈ ts, ReadsAs arity parts t) →
    ∀ (base : Nat) (T : Tables) (code : List (Option String)) (stack stack' : List Tree),
      T.scope = {} → (∀ s ∈ preorderAll ts, s ∈ parts) →
      Reduces arity parts code (ts.reverse ++ stack) stack' →
      Reduces arity parts ((layoutAll ts base T).map Instruction.global? ++ code) stack stack'
  | [], _, base, T, code, stack, stack', _, _, h => h
  | t :: ts, hts, base, T, code, stack, stack', hscope, hparts, h => by
    rw [List.forall_mem_cons] at hts
    rw [preorderAll, List.forall_mem_append] at hparts
    rw [List.reverse_cons, List.append_assoc] at h
    rw [layoutAll, List.map_append, List.append_assoc]
    exact hts.1 _ _ _ _ _ hscope hparts.1
      (reduces_layoutAll ts hts.2 _ _ _ _ _ ((extends_fill t T).scope hscope) hparts.2 h)

/-- The code of a tree of variables and calls can be read as the tree. -/
theorem Tree.reduces_layout {t : Tree} (ht : t.IsApplication arity) : ReadsAs arity parts t := by
  induction ht with
  | read name =>
    intro base T code stack stack' hscope _ h
    rw [layout, (T.read_of_outside hscope base name).2]
    exact .load h
  | @call callee args hlength _ ih =>
    intro base T code stack stack' hscope hparts h
    obtain ⟨hread, hcode⟩ := T.read_of_outside hscope base callee
    rw [preorder, List.forall_mem_cons] at hparts
    rw [layout, hread, hcode, List.map_cons, List.map_append, List.cons_append, List.append_assoc]
    refine .load (reduces_layoutAll args ih _ _ _ _ _ hscope hparts.2 ?_)
    exact .call hlength hparts.1 h

/-- Two ways to take the arguments of a call off one stack, the second with more of them: these end in
the callee of the first and its arguments. -/
theorem exists_of_reverse_append_eq {f g : String} {as bs stack stack' : List Tree}
    (h : as.reverse ++ read .variable f :: stack = bs.reverse ++ read .variable g :: stack')
    (hlt : as.length < bs.length) : ∃ before, bs = before ++ read .variable f :: as := by
  -- Both lists begin the same stack, so the shorter one begins the longer one.
  have hf : as.reverse ++ [read .variable f] <+: as.reverse ++ read .variable f :: stack :=
    ⟨stack, by simp⟩
  have hb : bs.reverse <+: as.reverse ++ read .variable f :: stack := h ▸ List.prefix_append _ _
  obtain ⟨rest, hrest⟩ := List.prefix_of_prefix_length_le hf hb (by simp; omega)
  refine ⟨rest.reverse, ?_⟩
  rw [← List.reverse_reverse bs, ← hrest]
  simp

namespace Reduces

variable {ts us : List Tree}

/-- Of two calls made from one stack, the second takes no more trees than the first. -/
theorem length_le (h : ¬ Absorbs ts us) {f g : String} {as bs stack stack' : List Tree}
    (hf : Tree.call f as ∈ preorderAll us) (hg : Tree.call g bs ∈ preorderAll ts)
    (hstack : as.reverse ++ read .variable f :: stack = bs.reverse ++ read .variable g :: stack') :
    bs.length ≤ as.length := by
  by_contra hlt
  obtain ⟨before, rfl⟩ := exists_of_reverse_append_eq hstack (Nat.lt_of_not_le hlt)
  exact h ⟨f, as, hf, g, before, hg⟩

/-- Trees that do not absorb each other's calls have no two readings of the same code. -/
theorem unique (htu : ¬ Absorbs ts us) (hut : ¬ Absorbs us ts)
    {code : List (Option String)} {stack stack₁ stack₂ : List Tree}
    (h₁ : Reduces arity (preorderAll ts) code stack stack₁)
    (h₂ : Reduces arity (preorderAll us) code stack stack₂) : stack₁ = stack₂ := by
  induction h₁ with
  | done stack =>
    cases h₂ with
    | done => rfl
  | load _ ih =>
    cases h₂ with
    | load h => exact ih h
  | @call f as code stack _ _ hcall _ ih =>
    generalize hstack : as.reverse ++ read .variable f :: stack = top at h₂
    cases h₂ with
    | @call g bs _ stack' _ _ hcall' h =>
      -- Both calls take the same number of trees, so they take the same trees.
      have hle := length_le hut hcall hcall' hstack
      have hge := length_le htu hcall' hcall hstack.symm
      have hlen : as.reverse.length = bs.reverse.length := by
        rw [List.length_reverse, List.length_reverse]
        exact Nat.le_antisymm hge hle
      obtain ⟨hrev, hrest⟩ := List.append_inj hstack hlen
      cases List.reverse_injective hrev
      cases hrest
      exact ih h

end Reduces

end Reading

namespace Tree

variable {arity : String → Nat}

/-- Lists of trees of variables and calls that do not absorb each other's calls are the same if their
code loads the same names and calls at the same places. -/
theorem eq_of_layoutAll {ts us : List Tree} (hts : ∀ t ∈ ts, t.IsApplication arity)
    (hus : ∀ u ∈ us, u.IsApplication arity) (htu : ¬ Absorbs ts us) (hut : ¬ Absorbs us ts)
    {base : Nat} {T U : Tables} (hT : T.scope = {}) (hU : U.scope = {})
    (h : (layoutAll ts base T).map Instruction.global? =
      (layoutAll us base U).map Instruction.global?) : ts = us := by
  -- Both lists of trees are readings of the same code.
  have h₁ := reduces_layoutAll ts (fun t ht => reduces_layout (hts t ht)) base T [] [] _ hT
    (fun _ => id) (.done _)
  have h₂ := reduces_layoutAll us (fun u hu => reduces_layout (hus u hu)) base U [] [] _ hU
    (fun _ => id) (.done _)
  rw [h] at h₁
  have hrev := Reduces.unique htu hut h₁ h₂
  rw [List.append_nil, List.append_nil] at hrev
  exact List.reverse_injective hrev

/-- Trees of variables and calls can be told apart by their code. Let every call have as many arguments
as its callee has parameters. Where a name is called within the arguments of one tree, let no call within
those of the other end in the name as a value and the same arguments. If the two trees have the same code,
they are the same tree. -/
theorem eq_of_same_code (arity : String → Nat) (t u : Tree) (p q : Program)
    (ht : t.IsApplication arity) (hu : u.IsApplication arity)
    (htu : ¬ Absorbs t.arguments u.arguments) (hut : ¬ Absorbs u.arguments t.arguments)
    (hp : t.generate = .ok p) (hq : u.generate = .ok q) (hcode : p.code = q.code) : t = u := by
  -- Only the loads and calls of the code matter.
  have hlayout : (t.layout 0 {}).map Instruction.global? = (u.layout 0 {}).map Instruction.global? := by
    rw [← (layout_of_generate hp).1, ← (layout_of_generate hq).1, hcode]
  cases ht with
  | read x =>
    cases hu with
    | read y =>
      cases hlayout
      rfl
    | call => simp [layout] at hlayout
  | call hlength hts =>
    cases hu with
    | read y => simp [layout] at hlayout
    | call hlength' hus =>
      rw [layout, layout, List.map_cons, List.map_cons, List.map_append, List.map_append] at hlayout
      obtain ⟨hcallee, hlayout⟩ := List.cons.inj hlayout
      cases hcallee
      have hargs := List.append_inj_left' hlayout rfl
      rw [eq_of_layoutAll hts hus htu hut rfl rfl hargs]

/-- A name that is passed as a value beside a call of it: what stands behind the value is not what the name
is called with, so the code has one reading. -/
theorem eq_of_same_code_map :
    ∃ arity t u, arity = (fun name => ([("map", 2), ("g", 1)].lookup name).getD 0) ∧
      t = call "map" [read .variable "g", call "g" [read .variable "x"]] ∧ u = t ∧
      t.IsApplication arity ∧ u.IsApplication arity ∧
      ¬ Absorbs t.arguments u.arguments ∧ ¬ Absorbs u.arguments t.arguments ∧
      ∃ p q, t.generate = .ok p ∧ u.generate = .ok q ∧ p.code = q.code ∧ t = u := by
  refine ⟨_, _, _, rfl, rfl, rfl, ?_⟩
  generalize ht : call _ _ = t
  have happ : t.IsApplication fun name => ([("map", 2), ("g", 1)].lookup name).getD 0 := by
    subst ht
    refine .call rfl (List.forall_mem_cons.mpr ⟨.read "g", List.forall_mem_singleton.mpr ?_⟩)
    exact .call rfl (List.forall_mem_singleton.mpr (.read "x"))
  have habsorbs : ¬ Absorbs t.arguments t.arguments := by
    subst ht
    rintro ⟨f, as, hf, g, before, hg⟩
    have hf : f = "g" ∧ as = [read .variable "x"] := by
      simpa [arguments, preorderAll, preorder] using hf
    have hg : g = "g" ∧ before ++ read .variable f :: as = [read .variable "x"] := by
      simpa [arguments, preorderAll, preorder] using hg
    have hlength := congrArg List.length hg.2
    simp [hf.2] at hlength
  obtain ⟨p, hp⟩ := exists_of_isOk (t := t) (by subst ht; decide +kernel)
  exact ⟨happ, happ, habsorbs, habsorbs, p, p, hp, hp, rfl,
    eq_of_same_code _ t t p p happ happ habsorbs habsorbs hp hp rfl⟩

/-- Two trees with the same code. The first call within the arguments is one of `x` in the one and of `y`
in the other, and each passes as a value what the other calls there. -/
theorem same_code_of_two_trees :
    ∃ arity t u, arity = (fun name => ([("f", 3), ("x", 1)].lookup name).getD 0) ∧
      t = call "f" [call "x" [read .variable "y"], read .variable "x", call "y" []] ∧
      u = call "f" [read .variable "x", call "y" [], call "x" [read .variable "y"]] ∧
      t.IsApplication arity ∧ u.IsApplication arity ∧
      (∃ p, t.generate = .ok p ∧ u.generate = .ok p) ∧ t ≠ u := by
  have hx : (call "x" [read .variable "y"]).IsApplication
      fun name => ([("f", 3), ("x", 1)].lookup name).getD 0 :=
    .call rfl (List.forall_mem_singleton.mpr (.read "y"))
  have hy : (call "y" []).IsApplication fun name => ([("f", 3), ("x", 1)].lookup name).getD 0 :=
    .call rfl (List.forall_mem_nil _)
  refine ⟨_, _, _, rfl, rfl, rfl, .call rfl ?_, .call rfl ?_, ?_⟩
  · exact List.forall_mem_cons.mpr ⟨hx, List.forall_mem_cons.mpr ⟨.read "x",
      List.forall_mem_singleton.mpr hy⟩⟩
  · exact List.forall_mem_cons.mpr ⟨.read "x", List.forall_mem_cons.mpr ⟨hy,
      List.forall_mem_singleton.mpr hx⟩⟩
  · refine ⟨(exists_of_isOk (by decide +kernel)).imp fun p hp => ⟨hp, ?_⟩, fun h => ?_⟩
    · rw [← hp]
      decide +kernel
    · cases h

end Tree

end Backpatch
