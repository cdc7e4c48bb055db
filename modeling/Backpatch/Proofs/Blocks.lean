import Backpatch.Proofs.Backpatching
import Mathlib.Logic.Relation

/-!
# Code in blocks

The code of a tree is entered at its first address and left at the address after it, whatever code
stands around it. `Region` says where the jumps of a stretch of code go, and `Tree.region_layout` that
those of a tree stay with the tree. `IsBlock` says that no jump from the rest of some code goes into
the middle of a stretch. Blocks nest (`IsBlock.trans`), so it is enough that each tree that a tree
starts on is a block of it (`Tree.isBlock_of_starts`).
-/

namespace Backpatch

namespace Instruction

/-- If this is a jump, it has a target from `lo` to `hi` that is not its own address. -/
def JumpsWithin (lo hi : Nat) (i : Instruction) : Prop :=
  i.opcode.isJump = true → ∃ q, i.operand = some q ∧ lo ≤ q ∧ q ≤ hi ∧ q ≠ i.address

/-- If this is a jump, it has a target, and that is not strictly between `a` and `b`. -/
def JumpsAround (a b : Nat) (i : Instruction) : Prop :=
  i.opcode.isJump = true → ∃ q, i.operand = some q ∧ (q ≤ a ∨ b ≤ q)

variable {lo hi a b : Nat} {i : Instruction}

/-- What is no jump jumps nowhere. -/
theorem jumpsAround_of_not_isJump (h : i.opcode.isJump = false) : i.JumpsAround a b := by
  intro hjump
  rw [h] at hjump
  cases hjump

/-- A jump that stays on one side of a stretch does not go into it. -/
theorem JumpsWithin.around (h : i.JumpsWithin lo hi) (hside : hi ≤ a ∨ b ≤ lo) :
    i.JumpsAround a b := by
  intro hjump
  obtain ⟨q, hq, hlo, hhi, -⟩ := h hjump
  exact ⟨q, hq, by omega⟩

/-- A jump around a stretch is one around each stretch inside it. -/
theorem JumpsAround.mono {a' b' : Nat} (h : i.JumpsAround a b) (ha : a ≤ a') (hb : b' ≤ b) :
    i.JumpsAround a' b' := by
  intro hjump
  obtain ⟨q, hq, hside⟩ := h hjump
  exact ⟨q, hq, by omega⟩

end Instruction

/-- The reads of names are no jumps. -/
theorem Tables.isJump_readCode (T : Tables) (address : Nat) (name : String) :
    (T.readCode address name).opcode.isJump = false := by
  unfold readCode
  split <;> rfl

/-! ## Regions -/

/-- `code` stands from address `base` on, its jumps go to addresses from `lo` to `hi`, and each
conditional one lands right after an unconditional one further down. -/
structure Region (lo hi base : Nat) (code : List Instruction) : Prop where
  /-- Addresses count up. -/
  address : ∀ k i, code[k]? = some i → i.address = base + k
  /-- The jumps have their targets. -/
  jumps : ∀ i ∈ code, i.JumpsWithin lo hi
  /-- A conditional jump skips `n` instructions and a jump. -/
  landing : ∀ k i, code[k]? = some i → i.opcode = .jumpIfFalse →
    ∃ n j, i.operand = some (base + k + 2 + n) ∧ code[k + 1 + n]? = some j ∧ j.opcode = .jump

namespace Region

variable {lo hi base : Nat} {code code₁ code₂ : List Instruction}

/-- There is nothing to check in no code. -/
theorem nil : Region lo hi base [] where
  address _ _ h := by cases h
  jumps _ h := by cases h
  landing _ _ h := by cases h

/-- One instruction that is no jump. -/
theorem plain {i : Instruction} (haddress : i.address = base) (h : i.opcode.isJump = false) :
    Region lo hi base [i] where
  address k j hj := by
    cases k with
    | zero =>
      cases hj
      exact haddress
    | succ k => cases hj
  jumps j hj := by
    rw [List.mem_singleton.mp hj]
    intro hjump
    rw [h] at hjump
    cases hjump
  landing k j hj hbranch := by
    cases k with
    | zero =>
      cases hj
      rw [hbranch] at h
      cases h
    | succ k => cases hj

/-- One jump to another address. -/
theorem jump {q : Nat} (hlo : lo ≤ q) (hhi : q ≤ hi) (hq : q ≠ base) :
    Region lo hi base [⟨base, .jump, some q, none⟩] where
  address k j hj := by
    cases k with
    | zero =>
      cases hj
      rfl
    | succ k => cases hj
  jumps j hj := by
    rw [List.mem_singleton.mp hj]
    exact fun _ => ⟨q, rfl, hlo, hhi, hq⟩
  landing k j hj hbranch := by
    cases k with
    | zero =>
      cases hj
      cases hbranch
    | succ k => cases hj

/-- Targets may be looked for in a wider range. -/
theorem widen {lo' hi' : Nat} (h : Region lo' hi' base code) (hlo : lo ≤ lo') (hhi : hi' ≤ hi) :
    Region lo hi base code where
  address := h.address
  jumps i hi hjump := by
    obtain ⟨q, hq, hlo', hhi', hself⟩ := h.jumps i hi hjump
    exact ⟨q, hq, by omega, by omega, hself⟩
  landing := h.landing

/-- Regions stand one after the other. -/
theorem append {base₂ : Nat} (h₁ : Region lo hi base code₁) (h₂ : Region lo hi base₂ code₂)
    (hbase : base₂ = base + code₁.length) : Region lo hi base (code₁ ++ code₂) where
  -- Before the seam the first region answers, and after it the second.
  address k i hk := by
    rcases Nat.lt_or_ge k code₁.length with hlt | hge
    · rw [List.getElem?_append_left hlt] at hk
      exact h₁.address k i hk
    · rw [List.getElem?_append_right hge] at hk
      rw [h₂.address _ i hk]
      omega
  jumps := List.forall_mem_append.mpr ⟨h₁.jumps, h₂.jumps⟩
  landing k i hk hbranch := by
    rcases Nat.lt_or_ge k code₁.length with hlt | hge
    · rw [List.getElem?_append_left hlt] at hk
      obtain ⟨n, j, hq, hj, hjump⟩ := h₁.landing k i hk hbranch
      -- The jump that is landed after is in the first region too, so it is found before the seam.
      have hn : k + 1 + n < code₁.length := (List.getElem?_eq_some_iff.mp hj).1
      exact ⟨n, j, hq, by rw [List.getElem?_append_left hn, hj], hjump⟩
    · rw [List.getElem?_append_right hge] at hk
      obtain ⟨n, j, hq, hj, hjump⟩ := h₂.landing _ i hk hbranch
      refine ⟨n, j, ?_, ?_, hjump⟩
      · rw [hq, hbase]
        congr 1
        omega
      · rw [List.getElem?_append_right (by omega), ← hj]
        congr 1
        omega

/-- A conditional jump over a region that ends in a jump. -/
theorem branch {j : Instruction} {q : Nat} (h : Region lo hi (base + 1) (code₁ ++ j :: code₂))
    (hj : j.opcode = .jump) (hq : q = base + 1 + code₁.length + 1) (hlo : lo ≤ q) (hhi : q ≤ hi) :
    Region lo hi base (⟨base, .jumpIfFalse, some q, none⟩ :: (code₁ ++ j :: code₂)) where
  address k i hk := by
    cases k with
    | zero =>
      cases hk
      rfl
    | succ k =>
      rw [h.address k i hk]
      omega
  jumps := by
    refine List.forall_mem_cons.mpr ⟨fun _ => ⟨q, rfl, hlo, hhi, ?_⟩, h.jumps⟩
    show q ≠ base
    omega
  landing k i hk hbranch := by
    cases k with
    | zero =>
      cases hk
      -- The new jump lands behind `j`.
      refine ⟨code₁.length, j, ?_, ?_, hj⟩
      · show some q = _
        rw [hq]
        congr 1
        omega
      · rw [show 0 + 1 + code₁.length = code₁.length + 1 by omega, List.getElem?_cons_succ,
          List.getElem?_append_right (Nat.le_refl _), Nat.sub_self, List.getElem?_cons_zero]
    | succ k =>
      obtain ⟨n, i', hq', hi', hjump⟩ := h.landing k i hk hbranch
      refine ⟨n, i', ?_, ?_, hjump⟩
      · rw [hq']
        congr 1
        omega
      · rw [show k + 1 + 1 + n = k + 1 + n + 1 by omega, List.getElem?_cons_succ, hi']

/-- The jumps of a region on one side of a stretch do not go into the stretch. -/
theorem around {a b : Nat} (h : Region lo hi base code) (hside : hi ≤ a ∨ b ≤ lo) :
    ∀ i ∈ code, i.JumpsAround a b :=
  fun i hi => (h.jumps i hi).around hside

end Region

namespace Tree

mutual

/-- The jumps of a tree go to addresses from its first one to the one after it. -/
theorem region_layout : ∀ (t : Tree) (base : Nat) (T : Tables),
    Region base (base + t.size) base (t.layout base T)
  | block _ items, base, T => region_layoutAll items base T
  | store _ name value, base, T => by
    rw [layout, size]
    exact ((region_layout value base T).widen (Nat.le_refl _) (by omega)).append (.plain rfl rfl)
      (by rw [length_layout]; rfl)
  | read _ name, base, T => by
    refine .plain ?_ (T.isJump_readCode base name)
    unfold Tables.readCode
    split <;> rfl
  | function name params body, base, T => by
    rw [layout, size]
    have hmake : Region base (base + (body.size + 2)) base [⟨base, .makeFunction, none, none⟩] :=
      .plain rfl rfl
    have hbody := (region_layout body (base + 1) (T.within name params)).widen
      (Nat.le_succ base) (show _ ≤ base + (body.size + 2) by omega)
    exact hmake.append (hbody.append (.plain rfl rfl) (by rw [length_layout]; rfl)) rfl
  | print argument, base, T => by
    rw [layout, size]
    exact ((region_layout argument base T).widen (Nat.le_refl _) (by omega)).append
      (.plain rfl rfl) (by rw [length_layout])
  | loop test body, base, T => by
    rw [layout]
    have htest := (region_layout test base T).widen (Nat.le_refl base)
      (show _ ≤ base + (loop test body).size by rw [size]; omega)
    have hbody := (region_layout body (base + test.size + 1) (test.fill T)).widen
      (show base ≤ _ by omega) (show _ ≤ base + (loop test body).size by rw [size]; omega)
    -- The way back stands right before the end, which is where the exit lands.
    have hback : Region base (base + (loop test body).size) (base + test.size + 1 + body.size)
        [⟨base + test.size + 1 + body.size, .jump, some base, none⟩] :=
      .jump (Nat.le_refl base) (Nat.le_add_right _ _) (by omega)
    refine htest.append (.branch (hbody.append hback (by rw [length_layout])) rfl ?_
      (Nat.le_add_right _ _) (Nat.le_refl _)) (by rw [length_layout])
    rw [length_layout, size]
    omega
  | call callee arguments, base, T => by
    rw [layout, size]
    have hload : Region base (base + (sizeAll arguments + 2)) base [T.readCode base callee] := by
      refine .plain ?_ (T.isJump_readCode base callee)
      unfold Tables.readCode
      split <;> rfl
    have harguments := (region_layoutAll arguments (base + 1) (T.withRead callee)).widen
      (Nat.le_succ base) (show _ ≤ base + (sizeAll arguments + 2) by omega)
    exact hload.append (harguments.append (.plain rfl rfl) (by rw [length_layoutAll])) rfl
  | conditional test consequent alternate, base, T => by
    rw [layout]
    have hsize : (conditional test consequent alternate).size =
        test.size + consequent.size + alternate.size + 2 := by rw [size]
    have htest := (region_layout test base T).widen (Nat.le_refl base)
      (show _ ≤ base + (conditional test consequent alternate).size by omega)
    have hconsequent := (region_layout consequent (base + test.size + 1) (test.fill T)).widen
      (show base ≤ _ by omega)
      (show _ ≤ base + (conditional test consequent alternate).size by omega)
    have hover : Region base (base + (conditional test consequent alternate).size)
        (base + test.size + 1 + consequent.size)
        [⟨base + test.size + 1 + consequent.size, .jump,
          some (base + (conditional test consequent alternate).size), none⟩] :=
      .jump (Nat.le_add_right _ _) (Nat.le_refl _) (by omega)
    have halternate := (region_layout alternate (base + test.size + 1 + consequent.size + 1)
      (consequent.fill (test.fill T))).widen (show base ≤ _ by omega)
      (show _ ≤ base + (conditional test consequent alternate).size by omega)
    -- The jump over the alternate stands right before it, which is where the false branch lands.
    have hbranches := hconsequent.append (hover.append halternate rfl) (by rw [length_layout])
    exact htest.append (.branch hbranches rfl (by rw [length_layout]) (by omega) (by omega))
      (by rw [length_layout])
  | binary op left right, base, T => by
    rw [layout, size]
    have hleft := (region_layout left base T).widen (Nat.le_refl base)
      (show _ ≤ base + (left.size + right.size + 1) by omega)
    have hright := (region_layout right (base + left.size) (left.fill T)).widen
      (show base ≤ _ by omega) (show _ ≤ base + (left.size + right.size + 1) by omega)
    exact hleft.append (hright.append (.plain rfl rfl) (by rw [length_layout]))
      (by rw [length_layout])
  | unary op operand, base, T => by
    rw [layout, size]
    exact ((region_layout operand base T).widen (Nat.le_refl _) (by omega)).append
      (.plain rfl op.isJump_opcode) (by rw [length_layout])
  | literal v, base, T => .plain rfl rfl

/-- The jumps of a list of trees go to addresses from its first one to the one after it. -/
theorem region_layoutAll : ∀ (ts : List Tree) (base : Nat) (T : Tables),
    Region base (base + sizeAll ts) base (layoutAll ts base T)
  | [], base, T => .nil
  | t :: ts, base, T => by
    rw [layoutAll, sizeAll]
    have hhead := (region_layout t base T).widen (Nat.le_refl base)
      (show _ ≤ base + (t.size + sizeAll ts) by omega)
    have htail := (region_layoutAll ts (base + t.size) (t.fill T)).widen
      (show base ≤ _ by omega) (show _ ≤ base + (t.size + sizeAll ts) by omega)
    exact hhead.append htail (by rw [length_layout])

end

/-! ## The trees within a tree -/

open Generation

/-- Generating the code of one tree from one generator starts on a tree right below it from
another. -/
inductive Starts : Tree × Generator → Tree × Generator → Prop where
  /-- A member of a block, after those before it. -/
  | item {form : BlockForm} {before after : List Tree} {t : Tree} {g h : Generator}
      (hbefore : compileAll before g = .ok () h) :
      Starts (block form (before ++ t :: after), g) (t, h)
  /-- The value of a store. -/
  | stored {form : StoreForm} {name : String} {value : Tree} {g : Generator} :
      Starts (store form name value, g) (value, g)
  /-- The body of a function, in its scope. -/
  | functionBody {name : String} {params : List String} {body : Tree} {g g₁ h : Generator}
      (hmake : emit .makeFunction none none g = .ok () g₁)
      (henter : enterScope name params g₁ = .ok () h) :
      Starts (function name params body, g) (body, h)
  /-- What is printed. -/
  | printed {argument : Tree} {g : Generator} : Starts (print argument, g) (argument, g)
  /-- The test of a loop. -/
  | loopTest {test body : Tree} {g h : Generator} {start : Nat}
      (hstart : nextAddress g = .ok start h) : Starts (loop test body, g) (test, h)
  /-- The body of a loop, after the exit. -/
  | loopBody {test body : Tree} {g g₁ g₂ h : Generator} {start : Nat} {toEnd : Label}
      (hstart : nextAddress g = .ok start g₁) (htest : test.compile g₁ = .ok () g₂)
      (hreserve : reserve .ifFalse g₂ = .ok toEnd h) : Starts (loop test body, g) (body, h)
  /-- An argument of a call, after the callee and the arguments before it. -/
  | argument {callee : String} {before after : List Tree} {t : Tree} {g g₁ h : Generator}
      (hload : load callee g = .ok () g₁) (hbefore : compileAll before g₁ = .ok () h) :
      Starts (call callee (before ++ t :: after), g) (t, h)
  /-- The test of a conditional. -/
  | conditionalTest {test consequent alternate : Tree} {g : Generator} :
      Starts (conditional test consequent alternate, g) (test, g)
  /-- What a conditional does if the test holds. -/
  | consequent {test consequent alternate : Tree} {g g₁ h : Generator} {toAlternate : Label}
      (htest : test.compile g = .ok () g₁) (hreserve : reserve .ifFalse g₁ = .ok toAlternate h) :
      Starts (conditional test consequent alternate, g) (consequent, h)
  /-- What a conditional does otherwise, after the jump over it. -/
  | alternate {test consequent alternate : Tree} {g g₁ g₂ g₃ g₄ h : Generator}
      {toAlternate toEnd : Label} (htest : test.compile g = .ok () g₁)
      (hreserve : reserve .ifFalse g₁ = .ok toAlternate g₂)
      (hconsequent : consequent.compile g₂ = .ok () g₃)
      (hreserve' : reserve .always g₃ = .ok toEnd g₄) (hpatch : patch toAlternate g₄ = .ok () h) :
      Starts (conditional test consequent alternate, g) (alternate, h)
  /-- The left operand. -/
  | left {op : BinaryOp} {left right : Tree} {g : Generator} :
      Starts (binary op left right, g) (left, g)
  /-- The right operand, after the left one. -/
  | right {op : BinaryOp} {left right : Tree} {g h : Generator}
      (hleft : left.compile g = .ok () h) : Starts (binary op left right, g) (right, h)
  /-- The operand of a unary operator. -/
  | operand {op : UnaryOp} {operand : Tree} {g : Generator} :
      Starts (unary op operand, g) (operand, g)

/-- While the code of `t` is generated from `g`, the code of `u` is generated from `h`. -/
def Visits (t : Tree) (g : Generator) (u : Tree) (h : Generator) : Prop :=
  Relation.ReflTransGen Starts (t, g) (u, h)

/-- Generating a list of trees is generating its members in turn. -/
theorem exists_of_compileAll_append {t : Tree} {after : List Tree} {g' : Generator} :
    ∀ {before : List Tree} {g : Generator}, compileAll (before ++ t :: after) g = .ok () g' →
      ∃ g₁ g₂, compileAll before g = .ok () g₁ ∧ t.compile g₁ = .ok () g₂ ∧
        compileAll after g₂ = .ok () g'
  | [], g, h => by
    rw [List.nil_append, compileAll] at h
    obtain ⟨_, g₂, ht, hafter⟩ := Step.bind_eq_ok_iff.mp h
    exact ⟨g, g₂, rfl, ht, hafter⟩
  | u :: before, g, h => by
    rw [List.cons_append, compileAll] at h
    obtain ⟨_, g₀, hu, hrest⟩ := Step.bind_eq_ok_iff.mp h
    obtain ⟨g₁, g₂, hbefore, ht, hafter⟩ := exists_of_compileAll_append hrest
    refine ⟨g₁, g₂, ?_, ht, hafter⟩
    rw [compileAll]
    exact Step.bind_eq_ok_iff.mpr ⟨(), g₀, hu, hbefore⟩

mutual

/-- Every tree within a tree whose generation succeeds is visited. -/
theorem exists_visits : ∀ (t : Tree) {g g' : Generator} {u : Tree}, t.compile g = .ok () g' →
    u ∈ t.preorder → ∃ h, t.Visits g u h
  | block _ items, g, g', u, hcompile, hu => by
    rw [preorder] at hu
    -- In each case the tree is visited first, and the trees within a part when the part is.
    rcases List.mem_cons.mp hu with rfl | hu
    · exact ⟨g, .refl⟩
    obtain ⟨before, t, after, h₁, h, rfl, hbefore, hvisits⟩ :=
      exists_visits_member items hcompile hu
    exact ⟨h, .head (.item hbefore) hvisits⟩
  | store _ name value, g, g', u, hcompile, hu => by
    rw [preorder] at hu
    rcases List.mem_cons.mp hu with rfl | hu
    · exact ⟨g, .refl⟩
    rw [compile] at hcompile
    obtain ⟨_, g₁, hvalue, -⟩ := Step.bind_eq_ok_iff.mp hcompile
    obtain ⟨h, hvisits⟩ := exists_visits value hvalue hu
    exact ⟨h, .head .stored hvisits⟩
  | read _ name, g, g', u, hcompile, hu => by
    rw [List.mem_singleton.mp hu]
    exact ⟨g, .refl⟩
  | function name params body, g, g', u, hcompile, hu => by
    rw [preorder] at hu
    rcases List.mem_cons.mp hu with rfl | hu
    · exact ⟨g, .refl⟩
    obtain ⟨_, _, _, _, hmake, henter, hbody, -⟩ := steps_of_function hcompile
    obtain ⟨h, hvisits⟩ := exists_visits body hbody hu
    exact ⟨h, .head (.functionBody hmake henter) hvisits⟩
  | print argument, g, g', u, hcompile, hu => by
    rw [preorder] at hu
    rcases List.mem_cons.mp hu with rfl | hu
    · exact ⟨g, .refl⟩
    rw [compile] at hcompile
    obtain ⟨_, g₁, hargument, -⟩ := Step.bind_eq_ok_iff.mp hcompile
    obtain ⟨h, hvisits⟩ := exists_visits argument hargument hu
    exact ⟨h, .head .printed hvisits⟩
  | loop test body, g, g', u, hcompile, hu => by
    rw [preorder] at hu
    rcases List.mem_cons.mp hu with rfl | hu
    · exact ⟨g, .refl⟩
    obtain ⟨_, _, _, _, _, _, _, hstart, htest, hreserve, hbody, -⟩ := steps_of_loop hcompile
    rcases List.mem_append.mp hu with hu | hu
    · obtain ⟨h, hvisits⟩ := exists_visits test htest hu
      exact ⟨h, .head (.loopTest hstart) hvisits⟩
    · obtain ⟨h, hvisits⟩ := exists_visits body hbody hu
      exact ⟨h, .head (.loopBody hstart htest hreserve) hvisits⟩
  | call callee arguments, g, g', u, hcompile, hu => by
    rw [preorder] at hu
    rcases List.mem_cons.mp hu with rfl | hu
    · exact ⟨g, .refl⟩
    obtain ⟨_, _, hload, harguments, -⟩ := steps_of_call hcompile
    obtain ⟨before, t, after, h₁, h, rfl, hbefore, hvisits⟩ :=
      exists_visits_member arguments harguments hu
    exact ⟨h, .head (.argument hload hbefore) hvisits⟩
  | conditional test consequent alternate, g, g', u, hcompile, hu => by
    rw [preorder] at hu
    rcases List.mem_cons.mp hu with rfl | hu
    · exact ⟨g, .refl⟩
    obtain ⟨_, _, _, _, _, _, _, _, htest, hreserve, hconsequent, hreserve', hpatch, halternate, -⟩ :=
      steps_of_conditional hcompile
    rcases List.mem_append.mp hu with hu | hu
    · rcases List.mem_append.mp hu with hu | hu
      · obtain ⟨h, hvisits⟩ := exists_visits test htest hu
        exact ⟨h, .head .conditionalTest hvisits⟩
      · obtain ⟨h, hvisits⟩ := exists_visits consequent hconsequent hu
        exact ⟨h, .head (.consequent htest hreserve) hvisits⟩
    · obtain ⟨h, hvisits⟩ := exists_visits alternate halternate hu
      exact ⟨h, .head (.alternate htest hreserve hconsequent hreserve' hpatch) hvisits⟩
  | binary op left right, g, g', u, hcompile, hu => by
    rw [preorder] at hu
    rcases List.mem_cons.mp hu with rfl | hu
    · exact ⟨g, .refl⟩
    obtain ⟨_, _, hleft, hright, -⟩ := steps_of_binary hcompile
    rcases List.mem_append.mp hu with hu | hu
    · obtain ⟨h, hvisits⟩ := exists_visits left hleft hu
      exact ⟨h, .head .left hvisits⟩
    · obtain ⟨h, hvisits⟩ := exists_visits right hright hu
      exact ⟨h, .head (.right hleft) hvisits⟩
  | unary op operand, g, g', u, hcompile, hu => by
    rw [preorder] at hu
    rcases List.mem_cons.mp hu with rfl | hu
    · exact ⟨g, .refl⟩
    rw [compile] at hcompile
    obtain ⟨_, g₁, hoperand, -⟩ := Step.bind_eq_ok_iff.mp hcompile
    obtain ⟨h, hvisits⟩ := exists_visits operand hoperand hu
    exact ⟨h, .head .operand hvisits⟩
  | literal v, g, g', u, hcompile, hu => by
    rw [List.mem_singleton.mp hu]
    exact ⟨g, .refl⟩

/-- Every tree within the members of a list whose generation succeeds is visited by a member. -/
theorem exists_visits_member : ∀ (ts : List Tree) {g g' : Generator} {u : Tree},
    compileAll ts g = .ok () g' → u ∈ preorderAll ts →
    ∃ before t after h₁ h, ts = before ++ t :: after ∧ compileAll before g = .ok () h₁ ∧
      t.Visits h₁ u h
  | [], g, g', u, hcompile, hu => by cases hu
  | t :: ts, g, g', u, hcompile, hu => by
    rw [compileAll] at hcompile
    obtain ⟨_, g₁, ht, hts⟩ := Step.bind_eq_ok_iff.mp hcompile
    rcases List.mem_append.mp hu with hu | hu
    · obtain ⟨h, hvisits⟩ := exists_visits t ht hu
      exact ⟨[], t, ts, g, h, rfl, rfl, hvisits⟩
    · obtain ⟨before, t', after, h₁, h, rfl, hbefore, hvisits⟩ := exists_visits_member ts hts hu
      refine ⟨t :: before, t', after, h₁, h, rfl, ?_, hvisits⟩
      rw [compileAll]
      exact Step.bind_eq_ok_iff.mpr ⟨(), g₁, ht, hbefore⟩

end

end Tree

/-! ## Blocks -/

/-- `inner`, from address `a` on, is a block of `code`, from address `base` on: no jump of `code`
outside `inner` goes into the middle of it. -/
def IsBlock (base : Nat) (code : List Instruction) (a : Nat) (inner : List Instruction) : Prop :=
  ∃ before after, code = before ++ (inner ++ after) ∧ a = base + before.length ∧
    (∀ i ∈ before, i.JumpsAround a (a + inner.length)) ∧
    ∀ i ∈ after, i.JumpsAround a (a + inner.length)

namespace IsBlock

variable {base a : Nat} {code inner : List Instruction}

/-- Code is a block of itself. -/
theorem refl : IsBlock base code base code :=
  ⟨[], [], (List.append_nil code).symm, rfl, fun _ hi => absurd hi List.not_mem_nil,
    fun _ hi => absurd hi List.not_mem_nil⟩

/-- What code begins with is a block if what follows it jumps around it. -/
theorem of_append {after : List Instruction}
    (h : ∀ i ∈ after, i.JumpsAround base (base + inner.length)) :
    IsBlock base (inner ++ after) base inner :=
  ⟨[], after, rfl, rfl, fun _ hi => absurd hi List.not_mem_nil, h⟩

/-- What code begins with is a block if one instruction follows it that is no jump. -/
theorem of_concat {i : Instruction} (h : i.opcode.isJump = false) :
    IsBlock base (inner ++ [i]) base inner :=
  .of_append (List.forall_mem_singleton.mpr (Instruction.jumpsAround_of_not_isJump h))

/-- What code ends with is a block if what stands before it jumps around it. -/
theorem of_append_end {before : List Instruction} (ha : a = base + before.length)
    (h : ∀ i ∈ before, i.JumpsAround a (a + inner.length)) :
    IsBlock base (before ++ inner) a inner :=
  ⟨before, [], by rw [List.append_nil], ha, h, fun _ hi => absurd hi List.not_mem_nil⟩

/-- A block of a block is a block. -/
theorem trans {a' : Nat} {inner' : List Instruction} (h : IsBlock base code a inner)
    (h' : IsBlock a inner a' inner') : IsBlock base code a' inner' := by
  obtain ⟨before, after, rfl, rfl, hbefore, hafter⟩ := h
  obtain ⟨before', after', rfl, rfl, hbefore', hafter'⟩ := h'
  simp only [List.length_append] at hbefore hafter
  refine ⟨before ++ before', after' ++ after, ?_, ?_, List.forall_mem_append.mpr ⟨?_, hbefore'⟩,
    List.forall_mem_append.mpr ⟨hafter', ?_⟩⟩
  · simp only [List.append_assoc]
  · rw [List.length_append, Nat.add_assoc]
  · exact fun i hi => (hbefore i hi).mono (by omega) (by omega)
  · exact fun i hi => (hafter i hi).mono (by omega) (by omega)

/-- What stands before a block or after it jumps around it. -/
theorem around (h : IsBlock base code a inner) {k : Nat} {i : Instruction}
    (hk : code[k]? = some i) (hside : base + k < a ∨ a + inner.length ≤ base + k) :
    i.JumpsAround a (a + inner.length) := by
  obtain ⟨before, after, rfl, rfl, hbefore, hafter⟩ := h
  rcases hside with hlt | hge
  · rw [List.getElem?_append_left (by omega)] at hk
    exact hbefore i (List.mem_of_getElem? hk)
  · rw [List.getElem?_append_right (by omega), List.getElem?_append_right (by omega)] at hk
    exact hafter i (List.mem_of_getElem? hk)

/-- A block stands in the code from its address on. -/
theorem getElem?_inner (h : IsBlock base code a inner) {k : Nat} (hlo : a ≤ base + k)
    (hhi : base + k < a + inner.length) : code[k]? = inner[base + k - a]? := by
  obtain ⟨before, after, rfl, rfl, -, -⟩ := h
  rw [List.getElem?_append_right (by omega), List.getElem?_append_left (by omega)]
  congr 1
  omega

/-- The first instruction of a block stands at its address. -/
theorem head {i : Instruction} (h : IsBlock 0 code a (i :: inner)) : code[a]? = some i := by
  rw [h.getElem?_inner (by omega) (by simp), Nat.zero_add, Nat.sub_self, List.getElem?_cons_zero]

end IsBlock

namespace Tree

open Generation

/-- The layout of a list of trees splits where the list splits. -/
theorem layoutAll_append (us : List Tree) : ∀ (ts : List Tree) (base : Nat) (T : Tables),
    layoutAll (ts ++ us) base T =
      layoutAll ts base T ++ layoutAll us (base + sizeAll ts) (fillAll ts T)
  | [], base, T => rfl
  | t :: ts, base, T => by
    rw [List.cons_append, layoutAll, layoutAll_append us ts, layoutAll, List.append_assoc, sizeAll,
      fillAll, Nat.add_assoc]

/-- A member of a list of trees is a block of the list. -/
theorem isBlock_member (before : List Tree) (t : Tree) (after : List Tree) (base : Nat)
    (T : Tables) :
    IsBlock base (layoutAll (before ++ t :: after) base T) (base + sizeAll before)
      (t.layout (base + sizeAll before) (fillAll before T)) := by
  refine ⟨_, _, layoutAll_append _ before base T, ?_, ?_, ?_⟩
  · rw [length_layoutAll]
  · exact (region_layoutAll before base T).around (.inl (Nat.le_refl _))
  · rw [length_layout]
    exact (region_layoutAll after _ _).around (.inr (Nat.le_refl _))

/-- A test and what stands behind the jump that it decides are blocks, if this jump goes past them and
the rest of the code jumps around both. -/
theorem isBlock_of_exit (test branch : Tree) (base : Nat) (T : Tables) {exit : Nat}
    {rest : List Instruction} (hexit : base + test.size + 1 + branch.size ≤ exit)
    (hrest : ∀ i ∈ rest, i.JumpsAround base (base + test.size + 1 + branch.size)) :
    IsBlock base (test.layout base T ++ ⟨base + test.size, .jumpIfFalse, some exit, none⟩ ::
        (branch.layout (base + test.size + 1) (test.fill T) ++ rest)) base (test.layout base T) ∧
      IsBlock base (test.layout base T ++ ⟨base + test.size, .jumpIfFalse, some exit, none⟩ ::
          (branch.layout (base + test.size + 1) (test.fill T) ++ rest))
        (base + test.size + 1) (branch.layout (base + test.size + 1) (test.fill T)) := by
  constructor
  · refine .of_append ?_
    rw [length_layout, List.forall_mem_cons, List.forall_mem_append]
    refine ⟨fun _ => ⟨_, rfl, .inr (by omega)⟩, (region_layout branch _ _).around (.inr (by omega)), ?_⟩
    exact fun i hi => (hrest i hi).mono (Nat.le_refl _) (by omega)
  · -- The test and its jump are all that stands before the branch.
    rw [← List.singleton_append, ← List.append_assoc]
    refine ⟨_, _, rfl, ?_, ?_, ?_⟩
    · rw [List.length_append, length_layout, List.length_singleton, Nat.add_assoc]
    · rw [List.forall_mem_append, List.forall_mem_singleton, length_layout]
      exact ⟨(region_layout test base T).around (.inl (Nat.le_succ _)),
        fun _ => ⟨_, rfl, .inr hexit⟩⟩
    · rw [length_layout]
      exact fun i hi => (hrest i hi).mono (by omega) (Nat.le_refl _)

/-- The test of a loop and its body are blocks of it: the exit goes past the body, and the way back to
the start of the test. -/
theorem isBlock_loop (test body : Tree) (base : Nat) (T : Tables) :
    IsBlock base ((loop test body).layout base T) base (test.layout base T) ∧
      IsBlock base ((loop test body).layout base T) (base + test.size + 1)
        (body.layout (base + test.size + 1) (test.fill T)) := by
  rw [layout]
  refine isBlock_of_exit test body base T ?_ ?_
  · rw [size]
    omega
  · exact List.forall_mem_singleton.mpr fun _ => ⟨_, rfl, .inl (Nat.le_refl _)⟩

/-- The test of a conditional and its consequent are blocks of it: the jumps around them go to the
alternate and to the end. -/
theorem isBlock_conditional (test consequent alternate : Tree) (base : Nat) (T : Tables) :
    IsBlock base ((conditional test consequent alternate).layout base T) base (test.layout base T) ∧
      IsBlock base ((conditional test consequent alternate).layout base T) (base + test.size + 1)
        (consequent.layout (base + test.size + 1) (test.fill T)) := by
  rw [layout]
  refine isBlock_of_exit test consequent base T (Nat.le_succ _) ?_
  rw [List.forall_mem_cons]
  refine ⟨fun _ => ⟨_, rfl, .inr ?_⟩, (region_layout alternate _ _).around (.inr (Nat.le_succ _))⟩
  rw [size]
  omega

/-- The alternate of a conditional is a block of it: the jumps before it go to its start and past
it. -/
theorem isBlock_alternate (test consequent alternate : Tree) (base : Nat) (T : Tables) :
    IsBlock base ((conditional test consequent alternate).layout base T)
      (base + test.size + 1 + consequent.size + 1)
      (alternate.layout (base + test.size + 1 + consequent.size + 1)
        (consequent.fill (test.fill T))) := by
  rw [layout, List.append_cons (consequent.layout _ _), ← List.cons_append, ← List.append_assoc]
  refine .of_append_end ?_ ?_
  · simp only [List.length_append, List.length_cons, List.length_nil, length_layout]
    omega
  · rw [List.forall_mem_append, List.forall_mem_cons, List.forall_mem_append,
      List.forall_mem_singleton, length_layout]
    refine ⟨(region_layout test base T).around (.inl ?_), fun _ => ⟨_, rfl, .inl (Nat.le_refl _)⟩,
      (region_layout consequent _ _).around (.inl (Nat.le_succ _)), fun _ => ⟨_, rfl, .inr ?_⟩⟩
    · omega
    · rw [size]
      omega

/-- The arguments of a call are a block of it. -/
theorem isBlock_arguments (callee : String) (arguments : List Tree) (base : Nat) (T : Tables) :
    IsBlock base ((call callee arguments).layout base T) (base + 1)
      (layoutAll arguments (base + 1) (T.withRead callee)) := by
  refine ⟨[_], _, rfl, rfl, ?_, ?_⟩
  · exact List.forall_mem_singleton.mpr
      (Instruction.jumpsAround_of_not_isJump (T.isJump_readCode base callee))
  · exact List.forall_mem_singleton.mpr (Instruction.jumpsAround_of_not_isJump rfl)

/-- The left operand of an operator is a block of its application. -/
theorem isBlock_left (op : BinaryOp) (left right : Tree) (base : Nat) (T : Tables) :
    IsBlock base ((binary op left right).layout base T) base (left.layout base T) := by
  refine .of_append ?_
  rw [length_layout, List.forall_mem_append, List.forall_mem_singleton]
  exact ⟨(region_layout right _ _).around (.inr (Nat.le_refl _)),
    Instruction.jumpsAround_of_not_isJump rfl⟩

/-- The right operand of an operator is a block of its application. -/
theorem isBlock_right (op : BinaryOp) (left right : Tree) (base : Nat) (T : Tables) :
    IsBlock base ((binary op left right).layout base T) (base + left.size)
      (right.layout (base + left.size) (left.fill T)) := by
  refine ⟨_, _, rfl, ?_, ?_, ?_⟩
  · rw [length_layout]
  · exact (region_layout left _ _).around (.inl (Nat.le_refl _))
  · exact List.forall_mem_singleton.mpr (Instruction.jumpsAround_of_not_isJump rfl)

variable {g g' : Generator}

/-- A tree adds as many instructions as its size says. -/
theorem size_of_compile {t : Tree} (h : t.compile g = .ok () g') :
    g'.buffer.code.size = g.buffer.code.size + t.size := by
  rw [(continues_of_compile t h).size, length_layout]

/-- A list of trees adds as many instructions as its size says. -/
theorem size_of_compileAll {ts : List Tree} (h : compileAll ts g = .ok () g') :
    g'.buffer.code.size = g.buffer.code.size + sizeAll ts := by
  rw [(continues_of_compileAll ts h).size, length_layoutAll]

/-- If generating a tree succeeds, so does each tree that it starts on, whose code is a block of the
code of the tree. -/
theorem isBlock_of_starts {t u : Tree} {h : Generator} (hstarts : Starts (t, g) (u, h))
    (hcompile : t.compile g = .ok () g') :
    (∃ h', u.compile h = .ok () h') ∧
      IsBlock g.buffer.code.size (t.layout g.buffer.code.size g.tables)
        h.buffer.code.size (u.layout h.buffer.code.size h.tables) := by
  cases hstarts with
  | @item form before after _ _ _ hbefore =>
    obtain ⟨_, h', hbefore', ht, -⟩ := exists_of_compileAll_append hcompile
    -- Generation is a function, so the steps up to `u` are those of the whole tree.
    cases hbefore.symm.trans hbefore'
    refine ⟨⟨h', ht⟩, ?_⟩
    rw [size_of_compileAll hbefore, (continues_of_compileAll before hbefore).tables]
    exact isBlock_member before u after _ _
  | stored =>
    rw [compile] at hcompile
    obtain ⟨_, h', hvalue, -⟩ := Step.bind_eq_ok_iff.mp hcompile
    exact ⟨⟨h', hvalue⟩, .of_concat rfl⟩
  | functionBody hmake henter =>
    obtain ⟨_, _, h', _, hmake', henter', hbody, -⟩ := steps_of_function hcompile
    cases hmake.symm.trans hmake'
    cases henter.symm.trans henter'
    refine ⟨⟨h', hbody⟩, ?_⟩
    have c₁ := continues_of_emit hmake
    obtain ⟨-, c₂⟩ := continues_of_enterScope henter
    rw [(c₁.trans c₂).size, c₂.tables, c₁.tables]
    refine ⟨[_], _, rfl, rfl, ?_, ?_⟩ <;>
      exact List.forall_mem_singleton.mpr (Instruction.jumpsAround_of_not_isJump rfl)
  | printed =>
    rw [compile] at hcompile
    obtain ⟨_, h', hargument, -⟩ := Step.bind_eq_ok_iff.mp hcompile
    exact ⟨⟨h', hargument⟩, .of_concat rfl⟩
  | loopTest hstart =>
    obtain ⟨_, _, h', _, _, _, _, hstart', htest, -⟩ := steps_of_loop hcompile
    obtain ⟨-, rfl⟩ := eq_of_nextAddress hstart
    obtain ⟨-, rfl⟩ := eq_of_nextAddress hstart'
    exact ⟨⟨h', htest⟩, (isBlock_loop _ _ _ _).1⟩
  | loopBody hstart htest hreserve =>
    obtain ⟨_, _, _, _, _, h', _, hstart', htest', hreserve', hbody, -⟩ := steps_of_loop hcompile
    obtain ⟨-, rfl⟩ := eq_of_nextAddress hstart
    obtain ⟨-, rfl⟩ := eq_of_nextAddress hstart'
    cases htest.symm.trans htest'
    cases hreserve.symm.trans hreserve'
    refine ⟨⟨h', hbody⟩, ?_⟩
    obtain ⟨-, c⟩ := continues_of_reserve hreserve
    rw [c.size, c.tables, size_of_compile htest, (continues_of_compile _ htest).tables]
    exact (isBlock_loop _ _ _ _).2
  | @argument callee before after _ _ _ _ hload hbefore =>
    obtain ⟨_, _, hload', harguments, -⟩ := steps_of_call hcompile
    cases hload.symm.trans hload'
    obtain ⟨_, h', hbefore', ht, -⟩ := exists_of_compileAll_append harguments
    cases hbefore.symm.trans hbefore'
    refine ⟨⟨h', ht⟩, ?_⟩
    have c := continues_of_load hload
    rw [size_of_compileAll hbefore, (continues_of_compileAll before hbefore).tables, c.size,
      c.tables]
    exact (isBlock_arguments _ _ _ _).trans (isBlock_member before u after _ _)
  | conditionalTest =>
    obtain ⟨h', _, _, _, _, _, _, _, htest, -⟩ := steps_of_conditional hcompile
    exact ⟨⟨h', htest⟩, (isBlock_conditional _ _ _ _ _).1⟩
  | consequent htest hreserve =>
    obtain ⟨_, _, _, h', _, _, _, _, htest', hreserve', hconsequent, -⟩ :=
      steps_of_conditional hcompile
    cases htest.symm.trans htest'
    cases hreserve.symm.trans hreserve'
    refine ⟨⟨h', hconsequent⟩, ?_⟩
    obtain ⟨-, c⟩ := continues_of_reserve hreserve
    rw [c.size, c.tables, size_of_compile htest, (continues_of_compile _ htest).tables]
    exact (isBlock_conditional _ _ _ _ _).2
  | alternate htest hreserve hconsequent hreserve' hpatch =>
    obtain ⟨_, _, _, _, _, _, _, h', htest', hreserve'', hconsequent', hreserve₃, hpatch',
      halternate, -⟩ := steps_of_conditional hcompile
    cases htest.symm.trans htest'
    cases hreserve.symm.trans hreserve''
    cases hconsequent.symm.trans hconsequent'
    cases hreserve'.symm.trans hreserve₃
    cases hpatch.symm.trans hpatch'
    refine ⟨⟨h', halternate⟩, ?_⟩
    obtain ⟨-, c⟩ := continues_of_reserve hreserve
    obtain ⟨-, c'⟩ := continues_of_reserve hreserve'
    obtain ⟨hsize, htables⟩ := size_tables_of_patch hpatch
    rw [hsize, htables, c'.size, c'.tables, size_of_compile hconsequent,
      (continues_of_compile _ hconsequent).tables, c.size, c.tables, size_of_compile htest,
      (continues_of_compile _ htest).tables]
    exact isBlock_alternate _ _ _ _ _
  | left =>
    obtain ⟨h', _, hleft, -⟩ := steps_of_binary hcompile
    exact ⟨⟨h', hleft⟩, isBlock_left _ _ _ _ _⟩
  | right hleft =>
    obtain ⟨_, h', hleft', hright, -⟩ := steps_of_binary hcompile
    cases hleft.symm.trans hleft'
    refine ⟨⟨h', hright⟩, ?_⟩
    rw [size_of_compile hleft, (continues_of_compile _ hleft).tables]
    exact isBlock_right _ _ _ _ _
  | @operand op _ _ =>
    rw [compile] at hcompile
    obtain ⟨_, h', hoperand, -⟩ := Step.bind_eq_ok_iff.mp hcompile
    exact ⟨⟨h', hoperand⟩, .of_concat op.isJump_opcode⟩

/-- If generating a tree succeeds, so does each tree that it visits, whose code is a block of the code
of the tree. -/
theorem isBlock_of_visits {t u : Tree} {h : Generator} (hvisits : t.Visits g u h)
    (hcompile : t.compile g = .ok () g') :
    (∃ h', u.compile h = .ok () h') ∧
      IsBlock g.buffer.code.size (t.layout g.buffer.code.size g.tables)
        h.buffer.code.size (u.layout h.buffer.code.size h.tables) := by
  unfold Visits at hvisits
  generalize hx : (u, h) = x at hvisits
  -- By induction on the way down to `u`, where each step finds a block inside the last one.
  induction hvisits generalizing u h with
  | refl =>
    cases hx
    exact ⟨⟨g', hcompile⟩, .refl⟩
  | tail _ hstarts ih =>
    subst hx
    obtain ⟨⟨_, hparent⟩, hblock⟩ := ih rfl
    obtain ⟨hok, hinner⟩ := isBlock_of_starts hstarts hparent
    exact ⟨hok, hblock.trans hinner⟩

/-- Where the jumps of code go that holds the code of a tree as a block: those of the tree stay with
it, and the others do not go into the middle of it. -/
theorem exists_target_of_isBlock {code : List Instruction} {a k : Nat} {u : Tree} {T : Tables}
    {i : Instruction} (h : IsBlock 0 code a (u.layout a T)) (hk : code[k]? = some i)
    (hjump : i.opcode.isJump = true) :
    ∃ q, i.operand = some q ∧ (a ≤ k ∧ k < a + u.size → a ≤ q ∧ q ≤ a + u.size) ∧
      (k < a ∨ a + u.size ≤ k → q ≤ a ∨ a + u.size ≤ q) := by
  by_cases hin : a ≤ k ∧ k < a + u.size
  · rw [h.getElem?_inner (by omega) (by rw [length_layout]; omega)] at hk
    have hregion := region_layout u a T
    obtain ⟨q, hq, hlo, hhi, -⟩ := hregion.jumps i (List.mem_of_getElem? hk) hjump
    exact ⟨q, hq, fun _ => ⟨hlo, hhi⟩, by omega⟩
  · have haround := h.around hk (by rw [length_layout]; omega)
    rw [length_layout] at haround
    obtain ⟨q, hq, hside⟩ := haround hjump
    exact ⟨q, hq, fun h => absurd h hin, fun _ => hside⟩

/-- Code comes in blocks with a single entry and a single exit. If a tree gives a program, every tree
within it is visited, and each time its code fills the addresses from `a` up to `b`, the lengths of
the code before and after it. A jump of the program from one of these addresses goes to one from `a`
to `b`, and a jump from elsewhere goes to `a` or before it or to `b` or beyond it. No jump goes to
its own address, and a conditional one goes forward, to the address after an unconditional one. -/
theorem blocks_single_entry_single_exit (t : Tree) (p : Program) (hp : t.generate = .ok p) :
    (∀ u ∈ t.preorder, ∃ g, t.Visits {} u g) ∧
    (∀ u g, t.Visits {} u g → ∃ g', u.compile g = .ok () g' ∧
      ∀ (k : Nat) (i : Instruction), p.code[k]? = some i → i.opcode.isJump = true →
        ∃ q, i.operand = some q ∧
          (g.buffer.code.size ≤ k ∧ k < g'.buffer.code.size →
            g.buffer.code.size ≤ q ∧ q ≤ g'.buffer.code.size) ∧
          (k < g.buffer.code.size ∨ g'.buffer.code.size ≤ k →
            q ≤ g.buffer.code.size ∨ g'.buffer.code.size ≤ q)) ∧
    (∀ (k : Nat) (i : Instruction), p.code[k]? = some i →
      i.address = k ∧ (i.opcode.isJump = true → i.operand ≠ some k)) ∧
    ∀ (k : Nat) (i : Instruction), p.code[k]? = some i → i.opcode = .jumpIfFalse →
      ∃ q j, i.operand = some q ∧ k + 2 ≤ q ∧ q ≤ p.code.size ∧ p.code[q - 1]? = some j ∧
        j.opcode = .jump := by
  obtain ⟨g₀, hcompile, -⟩ := exists_compile_of_generate hp
  obtain ⟨hcode, -, -⟩ := layout_of_generate hp
  -- The code is one region, which says what its addresses and jumps are like.
  have hregion : Region 0 (0 + t.size) 0 p.code.toList := hcode ▸ region_layout t 0 {}
  refine ⟨fun u hu => exists_visits t hcompile hu, ?_, ?_, ?_⟩
  · intro u g hvisits
    obtain ⟨⟨g', hok⟩, hblock⟩ := isBlock_of_visits hvisits hcompile
    refine ⟨g', hok, fun k i hk hjump => ?_⟩
    rw [size_of_compile hok]
    rw [← Array.getElem?_toList, hcode] at hk
    exact exists_target_of_isBlock hblock hk hjump
  · intro k i hk
    rw [← Array.getElem?_toList] at hk
    have haddress : i.address = k := by rw [hregion.address k i hk, Nat.zero_add]
    refine ⟨haddress, fun hjump hself => ?_⟩
    obtain ⟨q, hq, -, -, hne⟩ := hregion.jumps i (List.mem_of_getElem? hk) hjump
    rw [hself] at hq
    cases hq
    exact hne haddress.symm
  · intro k i hk hbranch
    rw [← Array.getElem?_toList] at hk
    obtain ⟨n, j, hq, hj, hjump⟩ := hregion.landing k i hk hbranch
    rw [Array.getElem?_toList] at hj
    have hlt : k + 1 + n < p.code.size := (Array.getElem?_eq_some_iff.mp hj).1
    refine ⟨0 + k + 2 + n, j, hq, by omega, by omega, ?_, hjump⟩
    rw [show 0 + k + 2 + n - 1 = k + 1 + n by omega, hj]

/-- A conditional with empty branches in a loop: its code is a block, although all of its three
boundaries are targets. -/
theorem blocks_single_entry_single_exit_nested :
    ∃ u, u = conditional (literal (.boolean true)) (block .sequence []) (block .sequence []) ∧
      ∃ p g g', (loop (read .variable "x") u).generate = .ok p ∧ u.compile g = .ok () g' ∧
        ∀ (k : Nat) (i : Instruction), p.code[k]? = some i → i.opcode.isJump = true →
          ∃ q, i.operand = some q ∧ (k < g.buffer.code.size ∨ g'.buffer.code.size ≤ k →
            q ≤ g.buffer.code.size ∨ g'.buffer.code.size ≤ q) := by
  refine ⟨_, rfl, ?_⟩
  generalize hu : conditional _ _ _ = u
  obtain ⟨p, hp⟩ : ∃ p, (loop (read .variable "x") u).generate = .ok p := by
    subst hu
    exact ⟨_, rfl⟩
  obtain ⟨hvisited, hblocks, -⟩ := blocks_single_entry_single_exit _ p hp
  obtain ⟨g, hg⟩ := hvisited u (by subst hu; simp [preorder, preorderAll])
  obtain ⟨g', hok, hjumps⟩ := hblocks _ g hg
  refine ⟨p, g, g', hp, hok, fun k i hk hjump => ?_⟩
  obtain ⟨q, hq, -, houtside⟩ := hjumps k i hk hjump
  exact ⟨q, hq, houtside⟩

end Tree

end Backpatch
