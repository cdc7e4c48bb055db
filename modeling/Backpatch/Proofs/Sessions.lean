import Backpatch.Proofs.Nesting

/-!
# Sessions that go on after a failure

A generator may be used for one tree after another, also after a failure, and `finish` ends the
session. A failed call leaves the jumps open that its fault stands behind, and nothing ever patches
them, so `finish` refuses exactly the sessions with such a call, and names the oldest of these jumps.
What a call uses up, whether it fails or not, is bounded by the size of its tree, so sessions of
moderate size never run out of addresses or identifiers.
-/

namespace Backpatch

namespace Generation

variable {g : Generator}

/-- The oldest pending jump is the one that `finish` names. -/
theorem finish_of_pending {address : Nat} {rest : List Nat}
    (h : g.buffer.pending = address :: rest) :
    finish g = .error (.pendingJump address) g := by
  simp only [finish, CodeBuffer.finish, h]

/-- A program cannot be finished exactly if a jump is pending. -/
theorem finish_error_iff : (∃ e g', finish g = .error e g') ↔ g.buffer.pending ≠ [] := by
  cases h : g.buffer.pending with
  | nil => simp [finish, CodeBuffer.finish, h]
  | cons address rest => simp [finish_of_pending h]

end Generation

namespace Tree

/-- The jumps that a tree leaves open: those that its first fault stands behind, the outermost
first. -/
def openGuards (t : Tree) : List Guard :=
  t.fault?.elim [] Fault.guards

end Tree

namespace Generator

/-- The generator after some trees, one after the other. A failure does not end the session. -/
def session (g : Generator) (ts : List Tree) : Generator :=
  ts.foldl (fun g t => t.compile.after g) g

/-- No tree of a session fails for want of addresses or of identifiers. -/
def WithinLimits : Generator → List Tree → Prop
  | _, [] => True
  | g, t :: ts =>
    (∀ e g', t.compile g = .error e g' → e.isLimit = false) ∧ WithinLimits (t.compile.after g) ts

variable {g : Generator} {t : Tree}

/-- A call outside all functions fails exactly if its tree has a fault, and with the first one. -/
theorem compile_error_iff (h : g.scope.function = none)
    (hroom : ∀ e g', t.compile g = .error e g' → e.isLimit = false) (e : GenerationError) :
    (∃ g', t.compile g = .error e g') ↔
      ∃ fault, t.fault? = some fault ∧ e = .nestedFunction fault.outer fault.inner := by
  rcases compile_cases h hroom with ⟨g', hok, hfault, -⟩ | ⟨fault, g', herror, hfault, -⟩
  · simp [hok, hfault]
  · simp [herror, hfault, eq_comm]

/-- A call leaves the jumps open that the first fault of its tree stands behind, and ends outside all
functions. -/
theorem holds_after (h : g.scope.function = none)
    (hroom : ∀ e g', t.compile g = .error e g' → e.isLimit = false) :
    g.Holds (t.compile.after g) t.openGuards ∧ (t.compile.after g).scope.function = none := by
  rcases compile_cases h hroom with ⟨g', hok, hfault, hend⟩ | ⟨fault, g', herror, hfault, hend⟩
  · rw [Step.after_of_ok hok, Tree.openGuards, hfault]
    exact hend
  · rw [Step.after_of_error herror, Tree.openGuards, hfault]
    exact hend

/-- A session may be cut in two. -/
theorem withinLimits_append : ∀ {g : Generator} {ts us : List Tree}, g.WithinLimits (ts ++ us) →
    g.WithinLimits ts ∧ (g.session ts).WithinLimits us
  | _, [], _, h => ⟨trivial, h⟩
  | _, _ :: _, _, ⟨hroom, h⟩ =>
    have h' := withinLimits_append h
    ⟨⟨hroom, h'.1⟩, h'.2⟩

/-- A session keeps the code and the pending jumps from before it, and ends outside all functions. -/
theorem prefix_session : ∀ {g : Generator} {ts : List Tree}, g.scope.function = none →
    g.WithinLimits ts → g.buffer.code.toList <+: (g.session ts).buffer.code.toList ∧
      g.buffer.pending <+: (g.session ts).buffer.pending ∧
      (g.session ts).scope.function = none
  | _, [], h, _ => ⟨List.prefix_refl _, List.prefix_refl _, h⟩
  | g, t :: ts, h, ⟨hroom, hlimits⟩ => by
    obtain ⟨hholds, hfunction⟩ := holds_after h hroom
    obtain ⟨hcode, hpending, hend⟩ := prefix_session hfunction hlimits
    refine ⟨hholds.code.trans hcode, ?_, hend⟩
    refine List.IsPrefix.trans ?_ hpending
    rw [hholds.pending]
    exact List.prefix_append _ _

/-- A session whose calls leave nothing open keeps the pending jumps as they were. -/
theorem pending_session : ∀ {g : Generator} {ts : List Tree}, g.scope.function = none →
    g.WithinLimits ts → (∀ t ∈ ts, t.openGuards = []) →
    (g.session ts).buffer.pending = g.buffer.pending
  | _, [], _, _, _ => rfl
  | g, t :: ts, h, ⟨hroom, hlimits⟩, hnil => by
    obtain ⟨hholds, hfunction⟩ := holds_after h hroom
    have hrest := pending_session hfunction hlimits fun u hu => hnil u (List.mem_cons_of_mem t hu)
    rw [hholds.pending, hnil t List.mem_cons_self, List.map_nil, List.append_nil] at hrest
    exact hrest

/-- The part of a session up to a call and with it: the call is made outside all functions and with
room left, it leaves what it leaves, and the rest of the session keeps that. -/
theorem holds_call {before after : List Tree} (h : g.scope.function = none)
    (hlimits : g.WithinLimits (before ++ t :: after)) :
    (g.session before).scope.function = none ∧
      (∀ e g', t.compile (g.session before) = .error e g' → e.isLimit = false) ∧
      ∃ g', (g.session before).Holds g' t.openGuards ∧
        g'.buffer.code.toList <+: (g.session (before ++ t :: after)).buffer.code.toList ∧
        g'.buffer.pending <+: (g.session (before ++ t :: after)).buffer.pending := by
  obtain ⟨hbefore, hroom, hafter⟩ := withinLimits_append hlimits
  obtain ⟨-, -, hfunction⟩ := prefix_session h hbefore
  obtain ⟨hholds, hfunction'⟩ := holds_after hfunction hroom
  obtain ⟨hcode, hpending, -⟩ := prefix_session hfunction' hafter
  have hsession : g.session (before ++ t :: after) =
      (t.compile.after (g.session before)).session after := List.foldl_append
  rw [hsession]
  exact ⟨hfunction, hroom, _, hholds, hcode, hpending⟩

/-- A session with room for all of its trees never runs out of addresses or identifiers. -/
theorem withinLimits_of_hasRoom : ∀ {g : Generator} {ts : List Tree}, g.HasRoom (Tree.contentsAll ts) →
    g.WithinLimits ts
  | _, [], _ => trivial
  | g, t :: ts, h => by
    rw [Tree.contentsAll_cons] at h
    have huses := t.uses_compile
    exact ⟨huses.room g h.left,
      withinLimits_of_hasRoom (h.right (huses.code g) (huses.names g) (huses.literals g))⟩

end Generator

namespace Tree

/-- A session of fewer than `2 ^ 31` trees in all and with fewer than `2 ^ 32` parameters to each
function never runs out of addresses or identifiers. -/
theorem withinLimits_of_nodes {ts : List Tree} (hnodes : nodesAll ts < 2 ^ 31)
    (hparams : ParamsFit (preorderAll ts)) : Generator.WithinLimits {} ts :=
  Generator.withinLimits_of_hasRoom (hasRoom_startAll hnodes hparams)

/-- What a failure leaves behind, and when `finish` then fails. In a session of any number of calls,
failed ones among them, that does not run out of addresses or identifiers:

- a call fails exactly if its tree has a fault, and with the first one;
- `finish` fails exactly if the first fault of some tree stands behind a jump, that is in the body of a
  loop or in a branch of a conditional;
- it then names the outermost such jump of the first such call, which is in the code without a
  target. -/
theorem finish_fails_iff_guarded (ts : List Tree) (hlimits : Generator.WithinLimits {} ts) :
    (∀ before t after e, ts = before ++ t :: after →
      ((∃ g, t.compile (Generator.session {} before) = .error e g) ↔
        ∃ fault, t.fault? = some fault ∧ e = .nestedFunction fault.outer fault.inner)) ∧
    ((∃ e g, Generation.finish (Generator.session {} ts) = .error e g) ↔
      ∃ t ∈ ts, t.openGuards ≠ []) ∧
    ∀ before t after guard rest, ts = before ++ t :: after → (∀ s ∈ before, s.openGuards = []) →
      t.openGuards = guard :: rest →
      ∃ address, address = (Generator.session {} before).buffer.code.size + guard.offset ∧
        Generation.finish (Generator.session {} ts) =
          .error (.pendingJump address) (Generator.session {} ts) ∧
        (Generator.session {} ts).buffer.code[address]? =
          some ⟨address, guard.branch.opcode, none, none⟩ := by
  refine ⟨?_, ?_, ?_⟩
  · rintro before t after e rfl
    obtain ⟨hfunction, hroom, -⟩ := Generator.holds_call rfl hlimits
    exact Generator.compile_error_iff hfunction hroom e
  · rw [Generation.finish_error_iff]
    constructor
    · intro hpending
      by_contra hall
      push Not at hall
      exact hpending (Generator.pending_session rfl hlimits hall)
    · rintro ⟨t, ht, hguards⟩
      -- The jumps that this call leaves pending are pending to the end.
      obtain ⟨before, after, rfl⟩ := List.append_of_mem ht
      obtain ⟨-, -, g', hholds, -, hpending⟩ := Generator.holds_call rfl hlimits
      refine hpending.ne_nil ?_
      rw [hholds.pending]
      simp [hguards]
  · rintro before t after guard rest rfl hbefore hguards
    obtain ⟨-, -, g', hholds, hcode, hpending⟩ := Generator.holds_call rfl hlimits
    refine ⟨_, rfl, ?_, ?_⟩
    · -- Nothing is pending before this call, and what is pending after it stays so.
      have hnil : (Generator.session {} before).buffer.pending = [] :=
        Generator.pending_session rfl (Generator.withinLimits_append hlimits).1 hbefore
      rw [hholds.pending, hnil, hguards] at hpending
      obtain ⟨younger, hsession⟩ := hpending
      exact Generation.finish_of_pending hsession.symm
    · exact getElem?_of_prefix hcode (hholds.jumps guard (hguards ▸ List.mem_cons_self))

/-- Four calls of which three fail. The fault of the first is in the test of a loop and leaves nothing
open. The third has its fault in the alternate of a conditional in the body of a loop, so that the exit
of the loop, at address 5, is the oldest of the jumps that are left open. -/
theorem finish_fails_iff_guarded_alternate :
    ∃ ts, ts = [
        function "f" [] (loop (function "g" [] (literal (.boolean true))) (block .sequence [])),
        literal (.boolean true),
        function "f" ["a"] (loop (read .variable "a") (conditional (read .variable "a")
          (literal (.boolean true)) (function "h" [] (literal (.boolean true))))),
        loop (literal (.boolean true)) (function "f" [] (function "g" [] (read .variable "a")))] ∧
      ∃ g, Generation.finish (Generator.session {} ts) = .error (.pendingJump 5) g ∧
        g.buffer.code[5]? = some ⟨5, .jumpIfFalse, none, none⟩ := by
  refine ⟨_, rfl, ?_⟩
  generalize hts : (List.cons _ _ : List Tree) = ts
  have hfit : ParamsFit (preorderAll ts) := by
    subst hts
    intro name params body hmem
    simp only [preorder, preorderAll, List.cons_append, List.nil_append, List.append_nil,
      List.mem_cons, List.not_mem_nil, or_false, reduceCtorEq, false_or, function.injEq] at hmem
    have hparams : params = [] ∨ params = ["a"] := by tauto
    rcases hparams with rfl | rfl <;> decide
  have hlimits := withinLimits_of_nodes (by subst hts; decide) hfit
  obtain ⟨-, -, hfirst⟩ := finish_fails_iff_guarded ts hlimits
  obtain ⟨address, haddress, hfinish, hjump⟩ := hfirst [_, _] _ [_] ⟨.ifFalse, 2⟩ _ hts.symm
    (by decide +kernel) rfl
  obtain rfl : address = 5 := haddress.trans (by decide +kernel)
  exact ⟨_, hfinish, hjump⟩

end Tree

end Backpatch
