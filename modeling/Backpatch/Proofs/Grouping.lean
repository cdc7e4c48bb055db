import Backpatch.Generator

/-!
# How trees are put into blocks

A block emits nothing of its own, so the code of a tree does not show how the trees in it are put into
blocks. `Tree.Regroups` relates the trees that differ only in that: it has a rule for each way in which
blocks are made or taken apart, and one for each place of a tree in which that may happen.
`Tree.flat` is the tree with every block taken apart that can be, and trees are related exactly if they
are flat in the same way (`Tree.regroups_iff_flat_eq`).

Steps of generation may be bracketed in any way, so that related trees are one and the same step
(`Tree.compile_eq_of_regroups`). It starts from any state, with jumps pending and a function entered, and
it leaves the same state behind also where it fails.
-/

namespace Backpatch

namespace Tree

variable {t u : Tree}

/-! ## Regrouping -/

/-- Trees that differ only in how trees are put into blocks. -/
inductive Regroups : Tree → Tree → Prop where
  /-- Nothing is regrouped. -/
  | refl (t : Tree) : Regroups t t
  /-- Grouping is undone. -/
  | symm {t u : Tree} (h : Regroups t u) : Regroups u t
  /-- Grouping goes on. -/
  | trans {t u v : Tree} (h₁ : Regroups t u) (h₂ : Regroups u v) : Regroups t v
  /-- A program and a sequence. -/
  | form (form form' : BlockForm) (ts : List Tree) : Regroups (block form ts) (block form' ts)
  /-- A block in a block, and its trees in its place. -/
  | splice (form form' : BlockForm) (before ts after : List Tree) :
      Regroups (block form (before ++ block form' ts :: after)) (block form (before ++ (ts ++ after)))
  /-- A block of one tree, and that tree. -/
  | single (form : BlockForm) (t : Tree) : Regroups (block form [t]) t
  /-- Within a block. -/
  | item (form : BlockForm) (before after : List Tree) {t u : Tree} (h : Regroups t u) :
      Regroups (block form (before ++ t :: after)) (block form (before ++ u :: after))
  /-- Within the value that is stored. -/
  | store (form : StoreForm) (name : String) {t u : Tree} (h : Regroups t u) :
      Regroups (store form name t) (store form name u)
  /-- Within the body of a function. -/
  | function (name : String) (params : List String) {t u : Tree} (h : Regroups t u) :
      Regroups (function name params t) (function name params u)
  /-- Within what is printed. -/
  | print {t u : Tree} (h : Regroups t u) : Regroups (print t) (print u)
  /-- Within the test and the body of a loop. -/
  | loop {test test' body body' : Tree} (htest : Regroups test test')
      (hbody : Regroups body body') : Regroups (loop test body) (loop test' body')
  /-- Within an argument of a call. -/
  | argument (callee : String) (before after : List Tree) {t u : Tree} (h : Regroups t u) :
      Regroups (call callee (before ++ t :: after)) (call callee (before ++ u :: after))
  /-- Within the test and the branches of a conditional. -/
  | conditional {test test' consequent consequent' alternate alternate' : Tree}
      (htest : Regroups test test') (hconsequent : Regroups consequent consequent')
      (halternate : Regroups alternate alternate') :
      Regroups (conditional test consequent alternate) (conditional test' consequent' alternate')
  /-- Within the operands of a binary operator. -/
  | binary (op : BinaryOp) {left left' right right' : Tree} (hleft : Regroups left left')
      (hright : Regroups right right') : Regroups (binary op left right) (binary op left' right')
  /-- Within the operand of a unary operator. -/
  | unary (op : UnaryOp) {t u : Tree} (h : Regroups t u) : Regroups (unary op t) (unary op u)

/-- One tree for a list of trees: a tree that is alone stands for itself, and others need a block. -/
def bundle : List Tree → Tree
  | [t] => t
  | ts => block .sequence ts

mutual

/-- The trees that a tree consists of once it is no block: those of all trees of a block in their order,
and otherwise the tree alone. Within each of them the same is done, and bundled again. -/
def parts : Tree → List Tree
  | block _ ts => partsAll ts
  | store form name value => [store form name (bundle value.parts)]
  | read form name => [read form name]
  | function name params body => [function name params (bundle body.parts)]
  | print argument => [print (bundle argument.parts)]
  | loop test body => [loop (bundle test.parts) (bundle body.parts)]
  | call callee arguments => [call callee (bundleAll arguments)]
  | conditional test consequent alternate =>
    [conditional (bundle test.parts) (bundle consequent.parts) (bundle alternate.parts)]
  | binary op left right => [binary op (bundle left.parts) (bundle right.parts)]
  | unary op operand => [unary op (bundle operand.parts)]
  | literal v => [literal v]

/-- The parts of a list of trees. -/
def partsAll : List Tree → List Tree
  | [] => []
  | t :: ts => t.parts ++ partsAll ts

/-- The trees of a list, the parts of each bundled on their own. -/
def bundleAll : List Tree → List Tree
  | [] => []
  | t :: ts => bundle t.parts :: bundleAll ts

end

/-- The tree with no block within a block and no block of one tree, and every block a sequence. -/
def flat (t : Tree) : Tree :=
  bundle t.parts

/-- The parts of a list are the parts of its pieces. -/
theorem partsAll_append (ts us : List Tree) : partsAll (ts ++ us) = partsAll ts ++ partsAll us := by
  induction ts with
  | nil => rfl
  | cons t ts ih => rw [List.cons_append, partsAll, partsAll, ih, List.append_assoc]

/-- The members of a list are made flat each by itself. -/
theorem bundleAll_append (ts us : List Tree) :
    bundleAll (ts ++ us) = bundleAll ts ++ bundleAll us := by
  induction ts with
  | nil => rfl
  | cons t ts ih => rw [List.cons_append, bundleAll, bundleAll, ih, List.cons_append]

/-- Regrouping keeps the parts. -/
theorem parts_eq_of_regroups (h : t.Regroups u) : t.parts = u.parts := by
  induction h with
  | refl t => rfl
  | symm _ ih => exact ih.symm
  | trans _ _ ih₁ ih₂ => exact ih₁.trans ih₂
  | form form form' ts => rw [parts, parts]
  | splice form form' before ts after =>
    rw [parts, parts, partsAll_append, partsAll_append, partsAll_append, partsAll, parts]
  | single form t => rw [parts, partsAll, partsAll, List.append_nil]
  | item form before after _ ih =>
    rw [parts, parts, partsAll_append, partsAll_append, partsAll, partsAll, ih]
  | store form name _ ih => rw [parts, parts, ih]
  | function name params _ ih => rw [parts, parts, ih]
  | print _ ih => rw [parts, parts, ih]
  | loop _ _ ihtest ihbody => rw [parts, parts, ihtest, ihbody]
  | argument callee before after _ ih =>
    rw [parts, parts, bundleAll_append, bundleAll_append, bundleAll, bundleAll, ih]
  | conditional _ _ _ ihtest ihconsequent ihalternate =>
    rw [parts, parts, ihtest, ihconsequent, ihalternate]
  | binary op _ _ ihleft ihright => rw [parts, parts, ihleft, ihright]
  | unary op _ ih => rw [parts, parts, ih]

/-- A bundle is its trees in a sequence. -/
theorem regroups_bundle (ts : List Tree) : Regroups (block .sequence ts) (bundle ts) := by
  unfold bundle
  split
  · exact .single .sequence _
  · exact .refl _

/-- A bundle in a sequence, and its trees in its place. -/
theorem regroups_splice_bundle (before ts after : List Tree) :
    Regroups (block .sequence (before ++ bundle ts :: after))
      (block .sequence (before ++ (ts ++ after))) :=
  (Regroups.item .sequence before after (regroups_bundle ts).symm).trans
    (.splice .sequence .sequence before ts after)

mutual

/-- A tree is made flat by regrouping. -/
theorem regroups_flat : ∀ t : Tree, t.Regroups t.flat
  | block form ts => by
    have hparts := regroups_partsAll ts []
    exact ((Regroups.form form .sequence ts).trans hparts).trans (regroups_bundle _)
  | store form name value => .store form name (regroups_flat value)
  | read form name => .refl _
  | function name params body => .function name params (regroups_flat body)
  | print argument => .print (regroups_flat argument)
  | loop test body => .loop (regroups_flat test) (regroups_flat body)
  | call callee arguments => regroups_bundleAll callee arguments []
  | conditional test consequent alternate =>
    .conditional (regroups_flat test) (regroups_flat consequent) (regroups_flat alternate)
  | binary op left right => .binary op (regroups_flat left) (regroups_flat right)
  | unary op operand => .unary op (regroups_flat operand)
  | literal v => .refl _

/-- Trees behind others in a sequence are replaced by their parts. -/
theorem regroups_partsAll : ∀ ts before : List Tree,
    Regroups (block .sequence (before ++ ts)) (block .sequence (before ++ partsAll ts))
  | [], before => .refl _
  | t :: ts, before => by
    have hhead := Regroups.item .sequence before ts (regroups_flat t)
    have hsplice := regroups_splice_bundle before t.parts ts
    have hrest := regroups_partsAll ts (before ++ t.parts)
    rw [List.append_assoc, List.append_assoc] at hrest
    exact (hhead.trans hsplice).trans hrest

/-- Arguments behind others in a call are made flat, each on its own. -/
theorem regroups_bundleAll (callee : String) : ∀ ts before : List Tree,
    Regroups (call callee (before ++ ts)) (call callee (before ++ bundleAll ts))
  | [], before => .refl _
  | t :: ts, before => by
    have hhead := Regroups.argument callee before ts (regroups_flat t)
    have hrest := regroups_bundleAll callee ts (before ++ [t.flat])
    rw [List.append_assoc, List.append_assoc] at hrest
    exact hhead.trans hrest

end

/-- Two trees differ only in how trees are put into blocks exactly if they are flat in the same way. -/
theorem regroups_iff_flat_eq : t.Regroups u ↔ t.flat = u.flat := by
  constructor
  · intro h
    rw [flat, flat, parts_eq_of_regroups h]
  · intro h
    exact (regroups_flat t).trans (h ▸ (regroups_flat u).symm)

/-! ## Generation -/

/-- Lists of trees are generated one after the other. -/
theorem compileAll_append (ts us : List Tree) :
    compileAll (ts ++ us) = compileAll ts >>= fun _ => compileAll us := by
  induction ts with
  | nil => rw [compileAll, pure_bind, List.nil_append]
  | cons t ts ih => rw [List.cons_append, compileAll, compileAll, ih, bind_assoc]

/-- Trees that differ only in how trees are put into blocks are generated by the same steps. -/
theorem compile_eq_of_regroups (h : t.Regroups u) : t.compile = u.compile := by
  induction h with
  | refl t => rfl
  | symm _ ih => exact ih.symm
  | trans _ _ ih₁ ih₂ => exact ih₁.trans ih₂
  | form form form' ts => rw [compile, compile]
  | splice form form' before ts after =>
    rw [compile, compile, compileAll_append, compileAll_append, compileAll_append, compileAll,
      compile]
  | single form t =>
    rw [compile, compileAll]
    exact bind_pure_unit
  | item form before after _ ih =>
    rw [compile, compile, compileAll_append, compileAll_append, compileAll, compileAll, ih]
  | store form name _ ih => rw [compile, compile, ih]
  | function name params _ ih => rw [compile, compile, ih]
  | print _ ih => rw [compile, compile, ih]
  | loop _ _ ihtest ihbody => rw [compile, compile, ihtest, ihbody]
  | argument callee before after _ ih =>
    -- The arguments of a call are generated like the trees of a block, and stay arguments.
    rw [compile, compile, compileAll_append, compileAll_append, compileAll, compileAll, ih]
  | conditional _ _ _ ihtest ihconsequent ihalternate =>
    rw [compile, compile, ihtest, ihconsequent, ihalternate]
  | binary op _ _ ihleft ihright => rw [compile, compile, ihleft, ihright]
  | unary op _ ih => rw [compile, compile, ih]

/-- A sequence of two trees is one of them after the other, if the first does not fail. -/
theorem compile_pair (form : BlockForm) (t u : Tree) :
    (block form [t, u]).compile = t.compile >>= fun _ => u.compile := by
  have hlast : compileAll [u] = u.compile := compile_eq_of_regroups (.single form u)
  rw [compile, compileAll, hlast]

/-- Blocks are transparent. Trees that differ only in how trees are put into blocks, wherever in them
that is, have the same program or the same error, with the same events, and from every state of the
generator they give the same result and leave the same state. From every state, a sequence of two trees
is what the second one is from the state that the first one leaves; and if the first one fails, the
sequence fails as it does. -/
theorem blocks_are_transparent :
    (∀ t u : Tree, t.Regroups u →
      t.generate = u.generate ∧ t.events = u.events ∧ ∀ g, t.compile g = u.compile g) ∧
    ∀ (t u : Tree) (g g' : Generator),
      (t.compile g = .ok () g' → (block .sequence [t, u]).compile g = u.compile g') ∧
      ∀ e, t.compile g = .error e g' → (block .sequence [t, u]).compile g = .error e g' := by
  refine ⟨fun t u h => ?_, fun t u g g' => ⟨fun hok => ?_, fun e herror => ?_⟩⟩
  · have hcompile := compile_eq_of_regroups h
    have hprogram : t.compileProgram = u.compileProgram := by
      unfold compileProgram
      rw [hcompile]
    refine ⟨?_, ?_, fun g => congrFun hcompile g⟩
    · unfold generate
      rw [hprogram]
    · unfold events
      rw [hprogram]
  · rw [compile_pair, Step.bind_apply, hok]
  · rw [compile_pair, Step.bind_apply, herror]

/-- Blocks in the arguments of a call, in the test and the body of a loop and in the body of a function,
empty ones among them, around a function that is nested in another. Both trees fail at it with the same
events, and behind another tree both leave the same state. -/
theorem blocks_are_transparent_nested :
    ∃ t u, t = block .program [block .sequence [call "f" [block .program [read .variable "x"],
          block .sequence [block .sequence [], block .program [literal (.boolean true)]]]],
        loop (block .sequence [read .variable "y"]) (block .program [block .program [],
          function "g" ["y"] (block .sequence [print (block .sequence [read .variable "y"]),
            block .sequence [function "h" [] (block .program [])]])])] ∧
      u = block .sequence [call "f" [read .variable "x", literal (.boolean true)],
        loop (read .variable "y") (function "g" ["y"] (block .sequence [print (read .variable "y"),
          function "h" [] (block .sequence [])]))] ∧
      t.Regroups u ∧ t.generate = u.generate ∧ t.events = u.events ∧
      u.events = ([.entered "g" 1, .exited "g"], some (.nestedFunction "g" "h")) ∧
      ∃ g, (literal (.boolean false)).compile {} = .ok () g ∧
        (block .sequence [literal (.boolean false), t]).compile {} = u.compile g := by
  obtain ⟨hsame, hpair⟩ := blocks_are_transparent
  refine ⟨_, _, rfl, rfl, ?related, (hsame _ _ ?related).1, (hsame _ _ ?related).2.1, ?_, _, rfl,
    ((hpair _ _ _ _).1 rfl).trans ((hsame _ _ ?related).2.2 _)⟩
  · exact regroups_iff_flat_eq.mpr rfl
  · decide +kernel

end Tree

end Backpatch
