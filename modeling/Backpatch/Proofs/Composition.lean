import Backpatch.Proofs.Interchange
import Backpatch.Proofs.Nesting
import Backpatch.Proofs.Simulation
import Mathlib.Data.List.Forall2

/-!
# Programs one after the other

A tree that follows another starts on what that one has left: a stack that is not empty, globals that
have values, fewer steps, and a pool whose constants may stand for its own literals. `State.Framed`
says that none of this has come near the tree's own part of the state, and evaluation keeps it
(`Tree.simulates_evaluate`) as long as the literals can stand for each other. So the program of a
sequence does what the programs of its two parts do, one after the other
(`Tree.run_of_sequence`). A zero and its negative are one constant of the pool, though, and printing
does tell them apart (`Tree.run_of_sequence_of_zeros`).
-/

namespace Backpatch

open Halt

/-! ## Frames -/

/-- `s'` is `s` in a frame: the values of `below` lie under its stack, those of `before` were printed
before, globals that `s` has no values for may have some, and values may be other NaNs. -/
structure State.Framed (below before : List Value) (s s' : State) : Prop where
  /-- The stack ends in the values below. -/
  stack : ∃ top, s'.stack = top ++ below ∧ List.Forall₂ Value.Interchangeable s.stack top
  /-- The globals that have values keep them. -/
  globals : ∀ name v, s.globals name = some v →
    ∃ v', s'.globals name = some v' ∧ v.Interchangeable v'
  /-- The printed values come after those before. -/
  printed : ∃ after, s'.printed.toList = before ++ after ∧
    List.Forall₂ Value.Interchangeable s.printed.toList after

/-- `effect'` does in a frame what `effect` does, if that succeeds. -/
def Follows (below before : List Value) (effect effect' : State → Except Halt State) : Prop :=
  ∀ {s s' r}, State.Framed below before s s' → effect s = .ok r →
    ∃ r', effect' s' = .ok r' ∧ State.Framed below before r r'

section Effects

variable {below before : List Value} {s s' r : State} {v v' : Value}

/-- The state that nothing has happened in, in any frame. -/
theorem State.Framed.start (s' : State) : Framed s'.stack s'.printed.toList {} s' where
  stack := ⟨[], rfl, .nil⟩
  globals name v h := by cases h
  printed := ⟨[], (List.append_nil _).symm, .nil⟩

/-- A value that is popped lies above the frame. -/
theorem State.Framed.pop (h : Framed below before s s') (hpop : s.pop = .ok (v, r)) :
    ∃ v' r', s'.pop = .ok (v', r') ∧ v.Interchangeable v' ∧ Framed below before r r' := by
  obtain ⟨top, htop, hstack⟩ := h.stack
  unfold State.pop at hpop
  split at hpop
  · next u us hu =>
    cases hpop
    rw [hu] at hstack
    obtain ⟨v', vs, hv, hvs, rfl⟩ := List.forall₂_cons_left_iff.mp hstack
    refine ⟨v', { s' with stack := vs ++ below }, ?_, hv, ⟨vs, rfl, hvs⟩, h.globals, h.printed⟩
    unfold State.pop
    rw [htop]
    rfl
  · cases hpop

/-- A value that is pushed lies above the frame. -/
theorem follows_push (hv : v.Interchangeable v') :
    Follows below before (State.push v) (State.push v') := by
  intro s s' r h hpush
  cases hpush
  obtain ⟨top, htop, hstack⟩ := h.stack
  refine ⟨_, rfl, ⟨v' :: top, ?_, .cons hv hstack⟩, h.globals, h.printed⟩
  exact congrArg (v' :: ·) htop

/-- A read finds what was stored, whatever globals the frame has. -/
theorem follows_load (name : String) :
    Follows below before (State.load name) (State.load name) := by
  intro s s' r h hload
  unfold State.load at hload ⊢
  cases hname : s.globals name with
  | some v =>
    rw [hname] at hload
    obtain ⟨v', hname', hv⟩ := h.globals name v hname
    rw [hname']
    exact follows_push hv h hload
  | none =>
    rw [hname] at hload
    cases hload

/-- A store. -/
theorem follows_assign (name : String) :
    Follows below before (State.assign name) (State.assign name) := by
  intro s s' r h hassign
  obtain ⟨⟨v, s₁⟩, hpop, hassign⟩ := bind_eq_ok_iff.mp hassign
  obtain ⟨v', s₁', hpop', hv, h₁⟩ := h.pop hpop
  cases hassign
  refine ⟨_, bind_eq_ok_iff.mpr ⟨_, hpop', rfl⟩, h₁.stack, fun x u hx => ?_, h₁.printed⟩
  dsimp only at hx ⊢
  by_cases hname : x = name
  · subst hname
    rw [Function.update_self] at hx ⊢
    cases hx
    exact ⟨v', rfl, hv⟩
  · rw [Function.update_of_ne hname] at hx ⊢
    exact h₁.globals x u hx

/-- Printing comes after what the frame has printed. -/
theorem follows_print : Follows below before State.print State.print := by
  intro s s' r h hprint
  obtain ⟨⟨v, s₁⟩, hpop, hprint⟩ := bind_eq_ok_iff.mp hprint
  obtain ⟨v', s₁', hpop', hv, h₁⟩ := h.pop hpop
  obtain ⟨after, hafter, hprinted⟩ := h₁.printed
  cases hprint
  refine ⟨_, bind_eq_ok_iff.mpr ⟨_, hpop', rfl⟩, h₁.stack, h₁.globals, after ++ [v'], ?_, ?_⟩
  · rw [Array.toList_push, hafter, List.append_assoc]
  · rw [Array.toList_push]
    exact List.rel_append hprinted (.cons hv .nil)

/-- A unary operator. -/
theorem follows_unary (op : UnaryOp) :
    Follows below before (State.unary op) (State.unary op) := by
  intro s s' r h hunary
  obtain ⟨⟨v, s₁⟩, hpop, hanswer⟩ := bind_eq_ok_iff.mp hunary
  obtain ⟨v', s₁', hpop', hv, h₁⟩ := h.pop hpop
  dsimp only at hanswer
  cases hresult : v.applyUnary op with
  | ok u =>
    rw [hresult] at hanswer
    obtain ⟨u', hresult', hu⟩ := Value.applyUnary_congr op hv hresult
    obtain ⟨r', hpush, hr⟩ := follows_push hu h₁ hanswer
    refine ⟨r', bind_eq_ok_iff.mpr ⟨_, hpop', ?_⟩, hr⟩
    dsimp only
    rw [hresult']
    exact hpush
  | error e =>
    rw [hresult] at hanswer
    cases hanswer

/-- A binary operator. -/
theorem follows_binary (op : BinaryOp) :
    Follows below before (State.binary op) (State.binary op) := by
  intro s s' r h hbinary
  obtain ⟨⟨right, s₁⟩, hpop, hbinary⟩ := bind_eq_ok_iff.mp hbinary
  obtain ⟨⟨left, s₂⟩, hpop₁, hanswer⟩ := bind_eq_ok_iff.mp hbinary
  obtain ⟨right', s₁', hpop', hright, h₁⟩ := h.pop hpop
  obtain ⟨left', s₂', hpop₁', hleft, h₂⟩ := h₁.pop hpop₁
  dsimp only at hanswer
  -- The operands can stand for each other, so both ways give the same result.
  cases hresult : Value.applyBinary op left right with
  | ok u =>
    rw [hresult] at hanswer
    obtain ⟨r', hpush, hr⟩ := follows_push (.refl u) h₂ hanswer
    refine ⟨r', bind_eq_ok_iff.mpr ⟨_, hpop', bind_eq_ok_iff.mpr ⟨_, hpop₁', ?_⟩⟩, hr⟩
    dsimp only
    rw [← Value.applyBinary_congr op hleft hright, hresult]
    exact hpush
  | error e =>
    rw [hresult] at hanswer
    cases hanswer

/-- What the machine does not support fails in every frame. -/
theorem follows_unsupported (opcode : Opcode) :
    Follows below before (State.unsupported opcode) (State.unsupported opcode) :=
  fun _ h => by cases h

end Effects

/-! ## Evaluation in a frame -/

/-- `w'` is `w` in a frame that has taken `spare` steps. -/
structure Progress.Framed (below before : List Value) (spare : Nat) (w w' : Progress) : Prop where
  /-- The state is in the frame. -/
  state : State.Framed below before w.state w'.state
  /-- The steps of the frame are no longer left. -/
  left : w.left = w'.left + spare

/-- `f'` does in a frame what `f` does, if that succeeds with the steps of the frame to spare. -/
structure Simulates (below before : List Value) (spare : Nat)
    (f f' : Progress → Except Halt Progress) : Prop where
  /-- Steps are only ever taken. -/
  spends : Spends f
  /-- A success is one in the frame. -/
  simulates : ∀ {w w' v}, Progress.Framed below before spare w w' → f w = .ok v →
    spare ≤ v.left → ∃ v', f' w' = .ok v' ∧ Progress.Framed below before spare v v'

namespace Simulates

variable {below before : List Value} {spare : Nat} {f f' g g' : Progress → Except Halt Progress}
  {effect effect' : State → Except Halt State}

/-- Nothing is nothing in a frame. -/
theorem ok : Simulates below before spare .ok .ok where
  spends := .ok
  simulates h hok _ := by
    cases hok
    exact ⟨_, rfl, h⟩

/-- One part after another. -/
theorem bind (hf : Simulates below before spare f f') (hg : Simulates below before spare g g') :
    Simulates below before spare (fun w => f w >>= g) (fun w => f' w >>= g') where
  spends := hf.spends.bind hg.spends
  simulates h hok hspare := by
    obtain ⟨u, hu, hv⟩ := bind_eq_ok_iff.mp hok
    have hle := hg.spends _ _ hv
    obtain ⟨u', hu', h'⟩ := hf.simulates h hu (Nat.le_trans hspare hle)
    obtain ⟨v', hv', h''⟩ := hg.simulates h' hv hspare
    exact ⟨v', bind_eq_ok_iff.mpr ⟨u', hu', hv'⟩, h''⟩

/-- A step that leaves enough of them to spare. -/
theorem spend : Simulates below before spare Progress.spend Progress.spend where
  spends := .spend
  simulates := by
    intro w w' v h hspend hspare
    have hleft := Progress.left_of_spend hspend
    have hframe := h.left
    unfold Progress.spend at hspend ⊢
    split at hspend
    · cases hspend
    · next left hw =>
      cases hspend
      dsimp only at hleft hspare
      -- There is a step left in the frame, since the frame has steps to spare.
      obtain ⟨left', hw'⟩ : ∃ left', w'.left = left' + 1 := ⟨w'.left - 1, by omega⟩
      rw [hw']
      refine ⟨⟨w'.state, left'⟩, rfl, h.state, ?_⟩
      dsimp only
      omega

/-- A step with an effect. -/
theorem perform (heffect : Follows below before effect effect') :
    Simulates below before spare (Progress.perform effect) (Progress.perform effect') where
  spends := .perform effect
  simulates h hok hspare := by
    obtain ⟨u, hspend, hok⟩ := bind_eq_ok_iff.mp hok
    obtain ⟨r, hr, hok⟩ := bind_eq_ok_iff.mp hok
    cases hok
    obtain ⟨u', hspend', h'⟩ := spend.simulates h hspend hspare
    obtain ⟨r', hr', hstate⟩ := heffect h'.state hr
    refine ⟨⟨r', u'.left⟩, ?_, hstate, h'.left⟩
    exact bind_eq_ok_iff.mpr ⟨u', hspend', bind_eq_ok_iff.mpr ⟨r', hr', rfl⟩⟩

/-- A branch goes the same way in a frame. -/
theorem branch (hf : Simulates below before spare f f') (hg : Simulates below before spare g g') :
    Simulates below before spare (Progress.branch f g) (Progress.branch f' g') where
  spends := .branch hf.spends hg.spends
  simulates := by
    intro w w' v h hok hspare
    obtain ⟨u, hspend, hok⟩ := bind_eq_ok_iff.mp hok
    obtain ⟨⟨c, s⟩, hpop, hok⟩ := bind_eq_ok_iff.mp hok
    dsimp only at hok
    have hle : v.left ≤ u.left := by
      split at hok
      · exact hf.spends ⟨s, u.left⟩ v hok
      · exact hg.spends ⟨s, u.left⟩ v hok
    obtain ⟨u', hspend', h'⟩ := spend.simulates h hspend (Nat.le_trans hspare hle)
    obtain ⟨c', s', hpop', hc, hstate⟩ := h'.state.pop hpop
    have hframed : Progress.Framed below before spare ⟨s, u.left⟩ ⟨s', u'.left⟩ :=
      ⟨hstate, h'.left⟩
    -- Values that can stand for each other count alike, so the ways are the same.
    have hways : ∃ v', (if c'.truthy then f' ⟨s', u'.left⟩ else g' ⟨s', u'.left⟩) = .ok v' ∧
        Progress.Framed below before spare v v' := by
      rw [← hc.truthy_eq]
      split at hok
      · next htrue =>
        rw [if_pos htrue]
        exact hf.simulates hframed hok hspare
      · next hfalse =>
        rw [if_neg hfalse]
        exact hg.simulates hframed hok hspare
    obtain ⟨v', hv', h''⟩ := hways
    exact ⟨v', bind_eq_ok_iff.mpr ⟨u', hspend', bind_eq_ok_iff.mpr ⟨_, hpop', hv'⟩⟩, h''⟩

/-- Any number of rounds. -/
theorem repeatWhile (hf : Simulates below before spare f f')
    (hg : Simulates below before spare g g') : ∀ rounds,
    Simulates below before spare (Progress.repeatWhile f g rounds) (Progress.repeatWhile f' g' rounds)
  | 0 => ⟨Spends.repeatWhile hf.spends hg.spends 0, fun _ h => by cases h⟩
  | rounds + 1 => hf.bind (branch ((hg.bind spend).bind (repeatWhile hf hg rounds)) ok)

end Simulates

namespace Tree

variable {below before : List Value} {spare : Nat} {denote denote' : Value → Value}

/-- A loop that goes round in a frame. -/
theorem simulates_loop {test body : Tree}
    (htest : Simulates below before spare (test.evaluate denote) (test.evaluate denote'))
    (hbody : Simulates below before spare (body.evaluate denote) (body.evaluate denote')) :
    Simulates below before spare ((loop test body).evaluate denote)
      ((loop test body).evaluate denote') where
  spends := spends_evaluate denote _
  simulates := by
    intro w w' v h hok hspare
    rw [evaluate] at hok
    obtain ⟨v', hv', h'⟩ := (htest.repeatWhile hbody (w.left + 1)).simulates h hok hspare
    -- There are fewer steps left in the frame, and rounds that no step is left for do not matter.
    have hlt : w'.left < w.left + 1 := by
      rw [h.left]
      omega
    refine ⟨v', ?_, h'⟩
    rw [evaluate, ← hv']
    exact Progress.repeatWhile_eq (spends_evaluate denote' test) (spends_evaluate denote' body)
      (Nat.lt_succ_self _) hlt

mutual

/-- A tree whose literals can stand for each other evaluates in a frame as it does outside. -/
theorem simulates_evaluate : ∀ t : Tree,
    (∀ v, literal v ∈ t.preorder → (denote v).Interchangeable (denote' v)) →
    Simulates below before spare (t.evaluate denote) (t.evaluate denote')
  | block _ items, h => simulates_evaluateAll items fun v hv => h v (by simp [preorder, hv])
  | store _ name value, h =>
    (simulates_evaluate value fun v hv => h v (by simp [preorder, hv])).bind
      (.perform (follows_assign name))
  | read _ name, h => .perform (follows_load name)
  | function _ _ _, h => .perform (follows_unsupported _)
  | print argument, h =>
    (simulates_evaluate argument fun v hv => h v (by simp [preorder, hv])).bind
      (.perform follows_print)
  | loop test body, h =>
    simulates_loop (simulates_evaluate test fun v hv => h v (by simp [preorder, hv]))
      (simulates_evaluate body fun v hv => h v (by simp [preorder, hv]))
  | call callee arguments, h =>
    ((Simulates.perform (follows_load callee)).bind
      (simulates_evaluateAll arguments fun v hv => h v (by simp [preorder, hv]))).bind
      (.perform (follows_unsupported _))
  | conditional test consequent alternate, h =>
    (simulates_evaluate test fun v hv => h v (by simp [preorder, hv])).bind
      (.branch
        ((simulates_evaluate consequent fun v hv => h v (by simp [preorder, hv])).bind .spend)
        (simulates_evaluate alternate fun v hv => h v (by simp [preorder, hv])))
  | binary op left right, h =>
    ((simulates_evaluate left fun v hv => h v (by simp [preorder, hv])).bind
      (simulates_evaluate right fun v hv => h v (by simp [preorder, hv]))).bind
      (.perform (follows_binary op))
  | unary op operand, h =>
    (simulates_evaluate operand fun v hv => h v (by simp [preorder, hv])).bind
      (.perform (follows_unary op))
  | literal v, h => .perform (follows_push (h v (by simp [preorder])))

/-- Trees whose literals can stand for each other evaluate in a frame as they do outside. -/
theorem simulates_evaluateAll : ∀ ts : List Tree,
    (∀ v, literal v ∈ preorderAll ts → (denote v).Interchangeable (denote' v)) →
    Simulates below before spare (evaluateAll denote ts) (evaluateAll denote' ts)
  | [], _ => .ok
  | t :: ts, h =>
    (simulates_evaluate t fun v hv => h v (by simp [preorderAll, hv])).bind
      (simulates_evaluateAll ts fun v hv => h v (by simp [preorderAll, hv]))

end

/-! ## Literals of a sequence -/

variable {t u : Tree} {p q : Program}

/-- The literals of a sequence of two trees. -/
theorem literals_sequence (t u : Tree) :
    (block .sequence [t, u]).literals = t.literals ++ u.literals := by
  rw [literals, preorder, List.filterMap_cons_none rfl, preorderAll, preorderAll, preorderAll,
    List.append_nil, List.filterMap_append]
  rfl

/-- The literals of a tree include what a tree within it says. -/
theorem mem_literals {v : Value} (h : literal v ∈ t.preorder) : v ∈ t.literals :=
  List.mem_filterMap.mpr ⟨_, h, rfl⟩

/-- A literal of a tree is of the class of some first one there. -/
theorem exists_find?_same {v : Value} (h : literal v ∈ t.preorder) :
    ∃ c, t.literals.find? (fun u => u.same v) = some c := by
  refine Option.isSome_iff_exists.mp (List.find?_isSome.mpr ⟨v, mem_literals h, ?_⟩)
  rw [Value.same_eq]
  exact beq_self_eq_true _

/-- The first literal of a class is a constant of the program. -/
theorem mem_constants_of_find? (hp : t.generate = .ok p) {v c : Value}
    (h : t.literals.find? (fun u => u.same v) = some c) : c ∈ p.constants := by
  have hsame : (fun u => Value.same u v) = LiteralPool.ofClass v.canonical :=
    funext fun u => u.same_eq v
  have hplace := LiteralPool.constant_place_insertAll t.literals v
  rw [← hsame, h] at hplace
  rw [(layout_of_generate hp).2.2, t.literals_fill]
  exact List.mem_of_getElem? hplace

/-- The literals of the first tree stand for in the sequence what they stand for in the tree. -/
theorem denotes_sequence_left (u : Tree) {v : Value} (h : literal v ∈ t.preorder) :
    (block .sequence [t, u]).denotes v = t.denotes v := by
  obtain ⟨c, hc⟩ := exists_find?_same h
  rw [denotes, denotes, literals_sequence, List.find?_append, hc]
  rfl

/-- The literals of the second tree stand for what they stand for in the tree, or for constants of the
first program. -/
theorem denotes_sequence_right (hp : t.generate = .ok p) (hq : u.generate = .ok q)
    (hshared : ∀ c ∈ p.constants, ∀ d ∈ q.constants, c.same d = true → c.Interchangeable d)
    {v : Value} (h : literal v ∈ u.preorder) :
    (u.denotes v).Interchangeable ((block .sequence [t, u]).denotes v) := by
  obtain ⟨d, hd⟩ := exists_find?_same h
  rw [denotes, denotes, literals_sequence, List.find?_append, hd]
  cases hc : t.literals.find? (fun u => u.same v) with
  | none => exact .refl d
  | some c =>
    have hsame : c.same d = true := by
      have hcv := List.find?_some hc
      have hdv := List.find?_some hd
      rw [Value.same_eq, beq_iff_eq] at hcv hdv ⊢
      rw [hcv, hdv]
    exact (hshared c (mem_constants_of_find? hp hc) d (mem_constants_of_find? hq hd) hsame).symm

/-! ## Sequences -/

/-- Trees that have programs have one as a sequence, as far as its addresses reach. -/
theorem exists_generate_sequence (hp : t.generate = .ok p) (hq : u.generate = .ok q)
    (hnodes : (block .sequence [t, u]).nodes < 2 ^ 31)
    (hparams : ParamsFit (block .sequence [t, u]).preorder) :
    ∃ r, (block .sequence [t, u]).generate = .ok r := by
  obtain ⟨g, hg, -⟩ := exists_compile_of_generate hp
  obtain ⟨g', hg', -⟩ := exists_compile_of_generate hq
  have hnil : (block .sequence [t, u]).nestings none = [] := by
    have ht : t.nestings none = [] := nestings_of_compile hg
    have hu : u.nestings none = [] := nestings_of_compile hg'
    rw [nestings, nestingsAll, nestingsAll, nestingsAll, ht, hu]
    rfl
  rcases generate_cases hnodes hparams with ⟨-, hr⟩ | ⟨outer, inner, rest, hcons, -⟩
  · exact hr
  · rw [hnil] at hcons
    cases hcons

/-- Values that can stand for each other are the same once there is one NaN. -/
theorem map_oneNaN_eq {vs ws : List Value} (h : List.Forall₂ Value.Interchangeable vs ws) :
    vs.map Value.oneNaN = ws.map Value.oneNaN := by
  induction h with
  | nil => rfl
  | cons hv _ ih => rw [List.map_cons, List.map_cons, hv.oneNaN_eq, ih]

/-- The evaluation of a sequence is the evaluations of its trees, one after the other: as many steps,
and the values printed by the one before those by the other. -/
theorem evaluate_sequence (hp : t.generate = .ok p) (hq : u.generate = .ok q)
    (hshared : ∀ c ∈ p.constants, ∀ d ∈ q.constants, c.same d = true → c.Interchangeable d)
    {limit spent : Nat} {w v : Progress} (hw : t.evaluate t.denotes ⟨{}, limit⟩ = .ok w)
    (hv : u.evaluate u.denotes ⟨{}, limit⟩ = .ok v) (hspent : limit = w.left + spent)
    (hle : spent ≤ v.left) :
    ∃ x, (block .sequence [t, u]).evaluate (block .sequence [t, u]).denotes ⟨{}, limit⟩ = .ok x ∧
      v.left = x.left + spent ∧
      x.state.printed.toList.map Value.oneNaN =
        (w.state.printed.toList ++ v.state.printed.toList).map Value.oneNaN := by
  have hfirst : ∀ v, literal v ∈ t.preorder →
      (t.denotes v).Interchangeable ((block .sequence [t, u]).denotes v) := fun v hv => by
    rw [denotes_sequence_left u hv]
    exact .refl _
  -- The first tree is in the frame of a fresh state, and the second in what the first leaves.
  have hfresh : Progress.Framed [] [] 0 ⟨{}, limit⟩ ⟨{}, limit⟩ := ⟨.start {}, rfl⟩
  obtain ⟨w', hw', hstate, hwleft⟩ :=
    (simulates_evaluate t hfirst).simulates hfresh hw (Nat.zero_le _)
  have hframe : Progress.Framed w'.state.stack w'.state.printed.toList spent ⟨{}, limit⟩ w' :=
    ⟨.start w'.state, by dsimp only; omega⟩
  obtain ⟨x, hx, hframed, hxleft⟩ := (simulates_evaluate u fun v hv =>
    denotes_sequence_right hp hq hshared hv).simulates hframe hv hle
  refine ⟨x, ?_, hxleft, ?_⟩
  · rw [evaluate, evaluateAll]
    refine bind_eq_ok_iff.mpr ⟨w', hw', ?_⟩
    rw [evaluateAll]
    exact bind_eq_ok_iff.mpr ⟨x, hx, rfl⟩
  · obtain ⟨first, hfirst, hprinted⟩ := hstate.printed
    obtain ⟨after, hafter, hprinted'⟩ := hframed.printed
    have hnil : w'.state.printed.toList = first := hfirst
    rw [hafter, hnil, List.map_append, List.map_append, map_oneNaN_eq hprinted,
      map_oneNaN_eq hprinted']

/-- Programs compose. If two trees have programs that run to their ends, the constants that they share
can stand for each other, and the runs have steps enough together, then the program of the two trees
one after the other, which there is as far as its addresses reach, runs to its end too. It takes the
steps of both and prints what the first prints and then what the second does, where NaNs are not told
apart. The trees may have variables in common: a tree that runs by itself stores what it reads. -/
theorem run_of_sequence (t u : Tree) (p q : Program) (m n : Machine) (hp : t.generate = .ok p)
    (hq : u.generate = .ok q) (hm : Machine.run p = .ok m) (hn : Machine.run q = .ok n)
    (hsteps : m.trace.size + n.trace.size ≤ Machine.stepLimit)
    (hshared : ∀ c ∈ p.constants, ∀ d ∈ q.constants, c.same d = true → c.Interchangeable d) :
    ((block .sequence [t, u]).nodes < 2 ^ 31 →
      ParamsFit (block .sequence [t, u]).preorder →
      ∃ r, (block .sequence [t, u]).generate = .ok r) ∧
    ∀ r, (block .sequence [t, u]).generate = .ok r → ∃ k, Machine.run r = .ok k ∧
      k.trace.size = m.trace.size + n.trace.size ∧
      k.printed.toList.map Value.oneNaN =
        (m.printed.toList ++ n.printed.toList).map Value.oneNaN := by
  refine ⟨exists_generate_sequence hp hq, fun r hr => ?_⟩
  obtain ⟨w, hw, hmw⟩ := exists_evaluate_of_run hp hm
  obtain ⟨v, hv, hnv⟩ := exists_evaluate_of_run hq hn
  have hwsteps := hmw.steps
  have hvsteps := hnv.steps
  have hspent : Machine.stepLimit = w.left + m.trace.size := by omega
  have hle : m.trace.size ≤ v.left := by omega
  obtain ⟨x, hx, hleft, hprinted⟩ := evaluate_sequence hp hq hshared hw hv hspent hle
  obtain ⟨k, hk, hkx⟩ := exists_run_of_evaluate hr hx
  have hksteps := hkx.steps
  refine ⟨k, hk, by omega, ?_⟩
  rw [hkx.represents.printed, hprinted, hmw.represents.printed, hnv.represents.printed]

/-- Two programs that use one variable and share a NaN, of which the first leaves one on the stack. -/
theorem run_of_sequence_shared :
    ∃ t u, t = block .program [literal (.number .nan),
        store .declaration "x" (literal (.boolean true)), print (read .variable "x")] ∧
      u = block .program [store .declaration "x" (literal (.number Number.nan.neg)),
        print (read .variable "x")] ∧
      ∃ r k, (block .sequence [t, u]).generate = .ok r ∧ Machine.run r = .ok k ∧
        k.printed.toList.map Value.oneNaN = [.boolean true, .number .nan] := by
  refine ⟨_, _, rfl, rfl, ?_⟩
  generalize ht : block .program _ = t
  generalize hu : block .program _ = u
  obtain ⟨p, hp⟩ := exists_of_isOk (t := t) (by subst ht; decide +kernel)
  obtain ⟨q, hq⟩ := exists_of_isOk (t := u) (by subst hu; decide +kernel)
  subst ht hu
  obtain ⟨m, hm, hmw⟩ := exists_run_of_evaluate hp rfl
  obtain ⟨n, hn, hnv⟩ := exists_run_of_evaluate hq rfl
  have hmsteps : m.trace.size + 9995 = 10000 := hmw.steps
  have hnsteps : n.trace.size + 9996 = 10000 := hnv.steps
  have hshared : ∀ c ∈ p.constants, ∀ d ∈ q.constants, c.same d = true → c.Interchangeable d := by
    rw [(layout_of_generate hp).2.2, (layout_of_generate hq).2.2]
    decide +kernel
  obtain ⟨hgenerate, hrun⟩ := run_of_sequence _ _ p q m n hp hq hm hn
    (show m.trace.size + n.trace.size ≤ 10000 by omega) hshared
  obtain ⟨r, hr⟩ := hgenerate (by decide) fun name params body hmem => by
    simp [preorder, preorderAll] at hmem
  obtain ⟨k, hk, -, hprinted⟩ := hrun r hr
  refine ⟨r, k, hr, hk, hprinted.trans ?_⟩
  rw [hmw.represents.printed, hnv.represents.printed]
  decide

/-- A zero and its negative are one constant. Either is printed as it is, but after the other it is
printed as that, although the programs have no name in common. -/
theorem run_of_sequence_of_zeros :
    ∃ t u, t = print (literal (.number .zero)) ∧ u = print (literal (.number Number.zero.neg)) ∧
      ∃ p q r m n k, t.generate = .ok p ∧ u.generate = .ok q ∧
        (block .sequence [t, u]).generate = .ok r ∧
        p.names = [] ∧ q.names = [] ∧ Machine.run p = .ok m ∧ Machine.run q = .ok n ∧
        m.trace.size + n.trace.size ≤ Machine.stepLimit ∧ Machine.run r = .ok k ∧
        k.printed.toList.map Value.oneNaN ≠
          (m.printed.toList ++ n.printed.toList).map Value.oneNaN := by
  refine ⟨_, _, rfl, rfl, ?_⟩
  generalize ht : print _ = t
  generalize hu : print _ = u
  obtain ⟨p, hp⟩ := exists_of_isOk (t := t) (by subst ht; decide +kernel)
  obtain ⟨q, hq⟩ := exists_of_isOk (t := u) (by subst hu; decide +kernel)
  obtain ⟨r, hr⟩ := exists_of_isOk (t := block .sequence [t, u]) (by subst ht hu; decide +kernel)
  subst ht hu
  obtain ⟨m, hm, hmw⟩ := exists_run_of_evaluate hp rfl
  obtain ⟨n, hn, hnv⟩ := exists_run_of_evaluate hq rfl
  obtain ⟨k, hk, hkx⟩ := exists_run_of_evaluate hr rfl
  have hmsteps : m.trace.size + 9998 = 10000 := hmw.steps
  have hnsteps : n.trace.size + 9998 = 10000 := hnv.steps
  refine ⟨p, q, r, m, n, k, hp, hq, hr, (layout_of_generate hp).2.1, (layout_of_generate hq).2.1,
    hm, hn, ?_, hk, ?_⟩
  · show m.trace.size + n.trace.size ≤ 10000
    omega
  · rw [hkx.represents.printed, hmw.represents.printed, hnv.represents.printed]
    decide

end Tree

end Backpatch
