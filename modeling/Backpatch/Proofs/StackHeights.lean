import Backpatch.Proofs.Safety

/-!
# Stack heights

In a program of expressions and statements the height of the stack depends only on the address.
`Tree.heights` writes the heights down without running anything. Each instruction of the tree takes the
height at its address to the height at every address where the machine may go on
(`Instruction.Respects`), so both branches of a conditional meet at one height, and a loop comes back
to its test at the height that it started from. An execution keeps to these heights step by step.
-/

namespace Backpatch

/-! ## The heights of a tree -/

namespace Tree

/-- The trees that leave one value. -/
inductive IsExpression : Tree → Prop where
  /-- A literal. -/
  | literal (v : Value) : IsExpression (literal v)
  /-- A variable or a reference to a function. -/
  | read (form : ReadForm) (name : String) : IsExpression (read form name)
  /-- A unary operator applied to an expression. -/
  | unary (op : UnaryOp) {operand : Tree} (h : IsExpression operand) :
      IsExpression (unary op operand)
  /-- A binary operator applied to two expressions. -/
  | binary (op : BinaryOp) {left right : Tree} (hleft : IsExpression left)
      (hright : IsExpression right) : IsExpression (binary op left right)
  /-- One of two expressions, by a third. -/
  | conditional {test consequent alternate : Tree} (htest : IsExpression test)
      (hconsequent : IsExpression consequent) (halternate : IsExpression alternate) :
      IsExpression (conditional test consequent alternate)

/-- The trees that leave no value. -/
inductive IsStatement : Tree → Prop where
  /-- A declaration or an assignment of an expression. -/
  | store (form : StoreForm) (name : String) {value : Tree} (h : IsExpression value) :
      IsStatement (store form name value)
  /-- An expression printed. -/
  | print {argument : Tree} (h : IsExpression argument) : IsStatement (print argument)
  /-- A statement repeated while an expression holds. -/
  | loop {test body : Tree} (htest : IsExpression test) (hbody : IsStatement body) :
      IsStatement (loop test body)
  /-- Statements one after the other. -/
  | block (form : BlockForm) {items : List Tree} (h : ∀ t ∈ items, IsStatement t) :
      IsStatement (block form items)

mutual

/-- The heights of the stack before each instruction of a tree that is entered at height `h`. Functions
and calls, which the machine does not run, have none. -/
def heights : Tree → Nat → List Nat
  | block _ items, h => heightsAll items h
  | store _ _ value, h => value.heights h ++ [h + 1]
  | read _ _, h => [h]
  | function _ _ _, _ => []
  | print argument, h => argument.heights h ++ [h + 1]
  | loop test body, h => test.heights h ++ (h + 1) :: (body.heights h ++ [h])
  | call _ _, _ => []
  | conditional test consequent alternate, h =>
    -- The consequent leaves its value before the jump over the alternate, which is entered without it.
    test.heights h ++ (h + 1) :: (consequent.heights h ++ (h + 1) :: alternate.heights h)
  | binary _ left right, h => left.heights h ++ (right.heights (h + 1) ++ [h + 2])
  | unary _ operand, h => operand.heights h ++ [h + 1]
  | literal _, h => [h]

/-- The heights before each instruction of a list of trees, all entered at height `h`. -/
def heightsAll : List Tree → Nat → List Nat
  | [], _ => []
  | t :: ts, h => t.heights h ++ heightsAll ts h

end

/-- The height of the stack at an address of the program of a tree. The program starts with an empty
stack, and behind it the stack is empty again. -/
def heightAt (t : Tree) (address : Nat) : Nat :=
  (t.heights 0).getD address 0

end Tree

/-! ## Instructions that respect heights -/

/-- From `base` on, `height` is as listed. -/
def Lists (height : Nat → Nat) (base : Nat) (hs : List Nat) : Prop :=
  ∀ k h, hs[k]? = some h → height (base + k) = h

namespace Lists

variable {height : Nat → Nat} {base h : Nat} {hs hs' : List Nat}

/-- The front of a list is listed. -/
theorem left (hl : Lists height base (hs ++ hs')) : Lists height base hs := by
  intro k h hk
  have hlt := (List.getElem?_eq_some_iff.mp hk).1
  exact hl k h (by rw [List.getElem?_append_left hlt, hk])

/-- The back of a list is listed behind its front. -/
theorem right (hl : Lists height base (hs ++ hs')) {n : Nat} (hn : hs.length = n) :
    Lists height (base + n) hs' := by
  intro k h hk
  subst hn
  rw [Nat.add_assoc]
  refine hl _ h ?_
  rw [List.getElem?_append_right (Nat.le_add_right _ _), Nat.add_sub_cancel_left, hk]

/-- The first height. -/
theorem head (hl : Lists height base (h :: hs)) : height base = h :=
  hl 0 h rfl

/-- The heights after the first. -/
theorem tail (hl : Lists height base (h :: hs)) : Lists height (base + 1) hs := by
  intro k h' hk
  rw [Nat.add_assoc, Nat.add_comm 1 k]
  exact hl (k + 1) h' hk

end Lists

namespace Instruction

/-- At its address there is what the instruction pops, and where the machine may go on the height is
the one after it. -/
structure Respects (height : Nat → Nat) (i : Instruction) : Prop where
  /-- There are enough values. -/
  pops_le : i.opcode.pops ≤ height i.address
  /-- Every way on has the height that the operation leaves. -/
  next : ∀ k ∈ i.next i.address, height k + i.opcode.pops = height i.address + i.opcode.pushes

namespace Respects

variable {height : Nat → Nat} {i : Instruction} {a target n : Nat} {display : Option String}

/-- An instruction that only goes on to the next one, with `n` values that it does not touch. -/
theorem of_next (hnext : i.next i.address = [i.address + 1])
    (hbefore : height i.address = n + i.opcode.pops)
    (hafter : height (i.address + 1) = n + i.opcode.pushes) : i.Respects height where
  pops_le := by
    rw [hbefore]
    exact Nat.le_add_left _ _
  next := by
    intro k hk
    rw [hnext, List.mem_singleton] at hk
    subst hk
    omega

/-- A jump keeps the height. -/
theorem jump (hbefore : height a = n) (htarget : height target = n) :
    Respects height ⟨a, .jump, some target, display⟩ where
  pops_le := Nat.zero_le _
  next := by
    intro k hk
    cases List.mem_singleton.mp hk
    exact htarget.trans hbefore.symm

/-- A conditional jump takes the test away on both ways. -/
theorem jumpIfFalse (hbefore : height a = n + 1) (hafter : height (a + 1) = n)
    (htarget : height target = n) : Respects height ⟨a, .jumpIfFalse, some target, display⟩ where
  pops_le := by
    rw [hbefore]
    exact Nat.le_add_left _ _
  next := by
    intro k hk
    rw [hbefore]
    rcases List.mem_pair.mp hk with rfl | rfl
    · exact congrArg (· + 1) hafter
    · exact congrArg (· + 1) htarget

end Respects

end Instruction

/-! ## Trees that keep to their heights -/

namespace Tree

/-- Outside all functions the tree leaves `n` values: if `height` is as the tree says and is `n` higher
behind it, then the tree is entered at the height given, and its instructions respect `height`. -/
structure Balanced (n : Nat) (t : Tree) : Prop where
  /-- There is one height for each instruction. -/
  length : ∀ h, (t.heights h).length = t.size
  /-- The tree starts at the height given. -/
  entry : ∀ {height : Nat → Nat} {base h : Nat}, Lists height base (t.heights h) →
    height (base + t.size) = h + n → height base = h
  /-- Its instructions respect the heights. -/
  respects : ∀ {height : Nat → Nat} {base h : Nat} {T : Tables}, T.scope = {} →
    Lists height base (t.heights h) → height (base + t.size) = h + n →
    ∀ i ∈ t.layout base T, i.Respects height

namespace Balanced

variable {t test body consequent alternate left right : Tree}

/-- A literal leaves its value. -/
theorem literal (v : Value) : (literal v).Balanced 1 where
  length _ := rfl
  entry hl _ := hl.head
  respects := by
    intro height base h T _ hl hend i hi
    rw [layout, List.mem_singleton] at hi
    subst hi
    exact .of_next rfl hl.head hend

/-- A read leaves the value read. -/
theorem read (form : ReadForm) (name : String) : (read form name).Balanced 1 where
  length _ := rfl
  entry hl _ := hl.head
  respects := by
    intro height base h T hscope hl hend i hi
    rw [layout, (Tables.read_of_outside hscope base name).2, List.mem_singleton] at hi
    subst hi
    exact .of_next rfl hl.head hend

/-- A tree that takes the value of `t` with one instruction more and leaves `n` values. -/
theorem of_concat {n : Nat} {u : Tree} (ht : t.Balanced 1)
    (hheights : ∀ h, u.heights h = t.heights h ++ [h + 1]) (hsize : u.size = t.size + 1)
    (hlayout : ∀ base T, ∃ i, u.layout base T = t.layout base T ++ [i] ∧
      i.address = base + t.size ∧ i.next i.address = [i.address + 1] ∧ i.opcode.pops = 1 ∧
      i.opcode.pushes = n) : u.Balanced n where
  length h := by
    rw [hheights, hsize, List.length_append, ht.length, List.length_singleton]
  entry hl _ := by
    rw [hheights] at hl
    exact ht.entry hl.left (hl.right (ht.length _)).head
  respects := by
    intro height base h T hscope hl hend i hi
    obtain ⟨last, hu, haddress, hnext, hpops, rfl⟩ := hlayout base T
    rw [hheights] at hl
    rw [hsize, ← Nat.add_assoc, ← haddress] at hend
    -- Before the last instruction the operand is on the stack, and behind it the result.
    have hlast := (hl.right (ht.length h)).head
    rw [hu, List.mem_append, List.mem_singleton] at hi
    rcases hi with hi | rfl
    · exact ht.respects hscope hl.left hlast i hi
    · rw [← haddress, ← hpops] at hlast
      exact .of_next hnext hlast hend

/-- A unary operator takes one value and leaves one. -/
theorem unary (op : UnaryOp) (ht : t.Balanced 1) : (unary op t).Balanced 1 := by
  refine ht.of_concat (fun _ => rfl) rfl fun base T => ⟨_, rfl, rfl, ?_⟩
  cases op <;> exact ⟨rfl, rfl, rfl⟩

/-- A binary operator takes two values, the second above the first, and leaves one. -/
theorem binary (op : BinaryOp) (hleft : left.Balanced 1) (hright : right.Balanced 1) :
    (binary op left right).Balanced 1 where
  length h := by
    rw [heights, size, List.length_append, List.length_append, hleft.length, hright.length,
      List.length_singleton, Nat.add_assoc]
  entry hl _ := by
    have hl' := hl.right (hleft.length _)
    exact hleft.entry hl.left (hright.entry hl'.left (hl'.right (hright.length _)).head)
  respects := by
    intro height base h T hscope hl hend i hi
    have hl' := hl.right (hleft.length h)
    have hop := (hl'.right (hright.length (h + 1))).head
    rw [layout, List.mem_append, List.mem_append, List.mem_singleton] at hi
    rcases hi with hi | hi | rfl
    · exact hleft.respects hscope hl.left (hright.entry hl'.left hop) i hi
    · exact hright.respects ((extends_fill left T).scope hscope) hl'.left hop i hi
    · refine .of_next rfl hop ?_
      rw [size, ← Nat.add_assoc, ← Nat.add_assoc] at hend
      exact hend

/-- A conditional takes the value of its test and leaves that of one branch. Both ways reach its end
with one value more than it was entered with. -/
theorem conditional (htest : test.Balanced 1) (hconsequent : consequent.Balanced 1)
    (halternate : alternate.Balanced 1) :
    (conditional test consequent alternate).Balanced 1 where
  length h := by
    rw [heights, size, List.length_append, List.length_cons, List.length_append, List.length_cons,
      htest.length, hconsequent.length, halternate.length]
    omega
  entry hl _ := htest.entry hl.left (hl.right (htest.length _)).head
  respects := by
    intro height base h T hscope hl hend i hi
    have hl' := hl.right (htest.length h)
    have hl'' := hl'.tail.right (hconsequent.length h)
    -- Both branches end at the same height, since the jump leads to where the alternate ends.
    have hend' : height (base + test.size + 1 + consequent.size + 1 + alternate.size) = h + 1 := by
      rw [← hend, size]
      congr 1
      omega
    have hscope' := (extends_fill test T).scope hscope
    have hscope'' := (extends_fill consequent (test.fill T)).scope hscope'
    rw [layout, List.mem_append, List.mem_cons, List.mem_append, List.mem_cons] at hi
    rcases hi with hi | rfl | hi | rfl | hi
    · exact htest.respects hscope hl.left hl'.head i hi
    · exact .jumpIfFalse hl'.head (hconsequent.entry hl'.tail.left hl''.head)
        (halternate.entry hl''.tail hend')
    · exact hconsequent.respects hscope' hl'.tail.left hl''.head i hi
    · exact .jump hl''.head hend
    · exact halternate.respects hscope'' hl''.tail hend' i hi

/-- A store takes the value. -/
theorem store (form : StoreForm) (name : String) (ht : t.Balanced 1) :
    (store form name t).Balanced 0 :=
  ht.of_concat (fun _ => rfl) rfl fun _ _ => ⟨_, rfl, rfl, rfl, rfl, rfl⟩

/-- Printing takes the value. -/
theorem print (ht : t.Balanced 1) : (print t).Balanced 0 :=
  ht.of_concat (fun _ => rfl) rfl fun _ _ => ⟨_, rfl, rfl, rfl, rfl, rfl⟩

/-- A loop takes the value of its test, and comes back to it at the height that it was entered
with. -/
theorem loop (htest : test.Balanced 1) (hbody : body.Balanced 0) :
    (loop test body).Balanced 0 where
  length h := by
    rw [heights, size, List.length_append, List.length_cons, List.length_append, htest.length,
      hbody.length, List.length_singleton]
    omega
  entry hl _ := htest.entry hl.left (hl.right (htest.length _)).head
  respects := by
    intro height base h T hscope hl hend i hi
    have hl' := hl.right (htest.length h)
    -- The body ends at the height at which the test begins, so the jump back keeps it.
    have hback := (hl'.tail.right (hbody.length h)).head
    rw [layout, List.mem_append, List.mem_cons, List.mem_append, List.mem_singleton] at hi
    rcases hi with hi | rfl | hi | rfl
    · exact htest.respects hscope hl.left hl'.head i hi
    · exact .jumpIfFalse hl'.head (hbody.entry hl'.tail.left hback) hend
    · exact hbody.respects ((extends_fill test T).scope hscope) hl'.tail.left hback i hi
    · exact .jump hback (htest.entry hl.left hl'.head)

/-- Trees that leave nothing leave nothing one after the other. -/
theorem block (form : BlockForm) : ∀ {items : List Tree}, (∀ t ∈ items, t.Balanced 0) →
    (block form items).Balanced 0
  | [], _ =>
    { length := fun _ => rfl
      entry := fun _ hend => hend
      respects := fun _ _ _ _ hi => absurd hi List.not_mem_nil }
  | t :: ts, hitems =>
    have ht : t.Balanced 0 := hitems t List.mem_cons_self
    have hts : (Tree.block form ts).Balanced 0 :=
      block form fun u hu => hitems u (List.mem_cons_of_mem t hu)
    { length := fun h => by
        rw [heights, size, heightsAll, sizeAll, List.length_append, ht.length]
        exact congrArg (t.size + ·) (hts.length h)
      entry := fun hl hend => by
        rw [size, sizeAll, ← Nat.add_assoc] at hend
        exact ht.entry hl.left (hts.entry (hl.right (ht.length _)) hend)
      respects := fun {height base h T} hscope hl hend i hi => by
        rw [size, sizeAll, ← Nat.add_assoc] at hend
        have hl' := hl.right (ht.length h)
        rw [layout, layoutAll, List.mem_append] at hi
        rcases hi with hi | hi
        · exact ht.respects hscope hl.left (hts.entry hl' hend) i hi
        · exact hts.respects ((extends_fill t T).scope hscope) hl' hend i hi }

end Balanced

/-- An expression leaves one value. -/
theorem IsExpression.balanced {t : Tree} (h : t.IsExpression) : t.Balanced 1 := by
  induction h with
  | literal v => exact .literal v
  | read form name => exact .read form name
  | unary op _ ih => exact .unary op ih
  | binary op _ _ ihleft ihright => exact .binary op ihleft ihright
  | conditional _ _ _ ihtest ihconsequent ihalternate =>
    exact .conditional ihtest ihconsequent ihalternate

/-- A statement leaves none. -/
theorem IsStatement.balanced {t : Tree} (h : t.IsStatement) : t.Balanced 0 := by
  induction h with
  | store form name h => exact .store form name h.balanced
  | print h => exact .print h.balanced
  | loop htest _ ih => exact .loop htest.balanced ih
  | block form _ ih => exact .block form ih

end Tree

/-! ## Executions -/

namespace Executes

variable {p : Program} {height : Nat → Nat} {ks : List Nat} {m : Machine}

/-- An execution keeps to heights that the code respects. -/
theorem length_stack (hregion : Region 0 p.code.size 0 p.code.toList) (hstart : height 0 = 0)
    (hrespects : ∀ i ∈ p.code, i.Respects height) (h : Executes p ks m) :
    m.stack.length = height m.pc := by
  induction h with
  | start => exact hstart.symm
  | step _ hi hstep ih =>
    have hmoves := Machine.moves_of_step hstep
    have hi' := hrespects _ (Array.mem_of_getElem? hi)
    have haddress := Tree.address_of_region hregion hi
    have hnext := hi'.next _ (haddress ▸ hmoves.pc)
    rw [haddress] at hnext
    have hstack := hmoves.stack
    omega

end Executes

namespace Tree

/-- The program of a statement starts at height 0, respects the heights of the tree, and is at height 0
behind its end. -/
theorem heightAt_of_generate {t : Tree} {p : Program} (ht : t.IsStatement)
    (h : t.generate = .ok p) :
    t.heightAt 0 = 0 ∧ (∀ i ∈ p.code, i.Respects t.heightAt) ∧
      ∀ k, p.code.size ≤ k → t.heightAt k = 0 := by
  obtain ⟨hcode, -, -⟩ := layout_of_generate h
  have hb := ht.balanced
  have hsize : p.code.size = t.size := by
    rw [← Array.length_toList, hcode, length_layout]
  -- `heightAt` lists the heights of the code, and is zero behind it.
  have hlists : Lists t.heightAt 0 (t.heights 0) := by
    intro k n hk
    rw [Nat.zero_add, heightAt, List.getD_eq_getElem?_getD, hk, Option.getD_some]
  have hbehind (k) (hk : p.code.size ≤ k) : t.heightAt k = 0 := by
    rw [hsize, ← hb.length 0] at hk
    rw [heightAt, List.getD_eq_getElem?_getD, List.getElem?_eq_none hk, Option.getD_none]
  have hend : t.heightAt (0 + t.size) = 0 := by
    rw [Nat.zero_add, ← hsize]
    exact hbehind _ (Nat.le_refl _)
  refine ⟨hb.entry hlists hend, fun i hi => ?_, hbehind⟩
  rw [Array.mem_def, hcode] at hi
  exact hb.respects rfl hlists hend i hi

/-- The stack discipline of statements. However long the machine goes on in the program of a statement,
the height of its stack is the one that the tree has for the address, and the stack holds what the
instruction there pops. So no run lacks a value, and a run that ends well ends with an empty stack. -/
theorem stack_height_by_address (t : Tree) (p : Program) (ht : t.IsStatement)
    (hp : t.generate = .ok p) :
    (∀ ks m, Executes p ks m → m.stack.length = t.heightAt m.pc ∧
      ∀ i, p.code[m.pc]? = some i → i.opcode.pops ≤ m.stack.length) ∧
    Machine.run p ≠ .error .stackUnderflow ∧
    ∀ m, Machine.run p = .ok m → m.stack = [] := by
  have hregion := region_of_generate hp
  obtain ⟨hstart, hrespects, hbehind⟩ := heightAt_of_generate ht hp
  have hheight (ks m) (hexec : Executes p ks m) : m.stack.length = t.heightAt m.pc :=
    hexec.length_stack hregion hstart hrespects
  have hpops (ks m i) (hexec : Executes p ks m) (hi : p.code[m.pc]? = some i) :
      i.opcode.pops ≤ m.stack.length := by
    have hle := (hrespects i (Array.mem_of_getElem? hi)).pops_le
    rw [address_of_region hregion hi] at hle
    exact hheight ks m hexec ▸ hle
  refine ⟨fun ks m hexec => ⟨hheight ks m hexec, fun i => hpops ks m i hexec⟩, ?_, ?_⟩
  · intro hrun
    -- The step that fails is taken with a stack that is high enough.
    obtain ⟨ks, m, i, hexec, hi, hstep | he⟩ := Executes.of_runFrom_error .start hrun
    · have hfits := fits_of_generate hp i (Array.mem_of_getElem? hi)
      cases Machine.fails_of_step hfits (hexec.steady hregion).globals hstep with
      | underflow hlt => exact Nat.not_lt.mpr (hpops ks m i hexec hi) hlt
    · cases he
  · intro m hrun
    -- A run that ends has left the code, and behind it the height is zero.
    obtain ⟨⟨ks, hexec⟩, hnone⟩ := Executes.of_runFrom_ok .start hrun
    have hge := Array.getElem?_eq_none_iff.mp hnone
    exact List.eq_nil_of_length_eq_zero ((hheight ks m hexec).trans (hbehind _ hge))

/-- A loop that stores a conjunction with a conditional in it. Where the branches of the conditional
meet, at address 11, the stack holds the two operands, and the run ends with an empty stack. -/
theorem stack_height_by_address_branches :
    ∃ t, t = block .program [store .declaration "x" (literal (.boolean true)),
        loop (read .variable "x") (store .assignment "x" (binary .and (read .variable "x")
          (conditional (read .variable "x") (unary .not (read .variable "x"))
            (read .variable "x"))))] ∧
      ∃ p, t.generate = .ok p ∧
        (∀ ks m, Executes p ks m → m.pc = 11 → m.stack.length = 2) ∧
        ∃ m, Machine.run p = .ok m ∧ m.stack = [] := by
  refine ⟨_, rfl, (exists_of_isOk (by decide +kernel)).imp fun p hp => ⟨hp, ?_⟩⟩
  obtain ⟨hheight, -, hempty⟩ := stack_height_by_address _ p (by
    have hread : IsExpression (read .variable "x") := .read _ _
    refine .block _ fun t hmem => ?_
    rcases List.mem_pair.mp hmem with rfl | rfl
    · exact .store _ _ (.literal _)
    · exact .loop hread (.store _ _ (.binary _ hread
        (.conditional hread (.unary _ hread) hread)))) hp
  obtain ⟨m, hrun⟩ := exists_run_of_isOk hp (by decide +kernel)
  refine ⟨fun ks m hexec hpc => ?_, m, hrun, hempty m hrun⟩
  rw [(hheight ks m hexec).1, hpc]
  rfl

end Tree

end Backpatch
