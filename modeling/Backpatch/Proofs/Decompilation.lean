import Backpatch.Proofs.Operands
import Backpatch.Proofs.StackHeights

/-!
# Code can be read back

Statements without functions and calls can be read back from their code. `Program.decompile` goes over
the code once, with a stack of the pieces that are read and do not belong to a larger piece yet. The code
of an expression is postfix, so an operator finds its operands on top. Where a conditional ends cannot
be seen from its last instruction, which is one of its alternate; but it ends where the jump behind
its consequent goes to, so the alternate is the value that is complete at that address
(`Piece.settle`). A loop ends with its way back, and its body is all that has been read since its test.

Code does not show all of a tree. `Tree.Alike` relates the trees that differ only in what it does not
show, and `Tree.lines` is one way to write each of them. It is the one that is read back
(`Tree.decompile_of_generate`), so trees with the same program are alike.
-/

namespace Backpatch

namespace Tree

/-! ## What code does not show -/

/-- Trees without functions and calls that differ only in whether a store is a declaration or an
assignment, in whether a read is one of a variable or of a function, in how statements are put into
blocks, and in which of the literals that are the same to a table they have. -/
inductive Alike : Tree → Tree → Prop where
  /-- A tree is like itself. -/
  | refl (t : Tree) : Alike t t
  /-- Trees are alike both ways. -/
  | symm {t u : Tree} (h : Alike t u) : Alike u t
  /-- Trees that are like a third one. -/
  | trans {t u v : Tree} (h₁ : Alike t u) (h₂ : Alike u v) : Alike t v
  /-- Literals that are the same to a table. -/
  | literal {v w : Value} (h : v.same w = true) : Alike (literal v) (literal w)
  /-- A variable and a reference to a function. -/
  | read (form form' : ReadForm) (name : String) : Alike (read form name) (read form' name)
  /-- A declaration and an assignment. -/
  | store (form form' : StoreForm) (name : String) {t u : Tree} (h : Alike t u) :
      Alike (store form name t) (store form' name u)
  /-- A program and a sequence. -/
  | form (form form' : BlockForm) (items : List Tree) : Alike (block form items) (block form' items)
  /-- A block in a block, and its items in its place. -/
  | splice (form form' : BlockForm) (before items after : List Tree) :
      Alike (block form (before ++ block form' items :: after)) (block form (before ++ (items ++ after)))
  /-- A block of one item, and that item. -/
  | single (form : BlockForm) (t : Tree) : Alike (block form [t]) t
  /-- Blocks that are alike but for one item. -/
  | item (form : BlockForm) (before after : List Tree) {t u : Tree} (h : Alike t u) :
      Alike (block form (before ++ t :: after)) (block form (before ++ u :: after))
  /-- What is printed. -/
  | print {t u : Tree} (h : Alike t u) : Alike (print t) (print u)
  /-- The test of a loop and its body. -/
  | loop {test test' body body' : Tree} (htest : Alike test test') (hbody : Alike body body') :
      Alike (loop test body) (loop test' body')
  /-- The test of a conditional and its branches. -/
  | conditional {test test' consequent consequent' alternate alternate' : Tree}
      (htest : Alike test test') (hconsequent : Alike consequent consequent')
      (halternate : Alike alternate alternate') :
      Alike (conditional test consequent alternate) (conditional test' consequent' alternate')
  /-- The operands of a binary operator. -/
  | binary (op : BinaryOp) {left left' right right' : Tree} (hleft : Alike left left')
      (hright : Alike right right') : Alike (binary op left right) (binary op left' right')
  /-- The operand of a unary operator. -/
  | unary (op : UnaryOp) {t u : Tree} (h : Alike t u) : Alike (unary op t) (unary op u)

/-- An expression written in one way: every name read as a variable, every literal canonical. -/
def plain : Tree → Tree
  | read _ name => read .variable name
  | conditional test consequent alternate =>
    conditional test.plain consequent.plain alternate.plain
  | binary op left right => binary op left.plain right.plain
  | unary op operand => unary op operand.plain
  | literal v => literal v.canonical
  | t => t

mutual

/-- A statement as a list of statements that are no blocks, written in one way: every store an
assignment, every body of a loop a sequence. -/
def lines : Tree → List Tree
  | block _ items => linesAll items
  | store _ name value => [store .assignment name value.plain]
  | print argument => [print argument.plain]
  | loop test body => [loop test.plain (block .sequence body.lines)]
  | t => [t]

/-- The lines of a list of statements. -/
def linesAll : List Tree → List Tree
  | [] => []
  | t :: ts => t.lines ++ linesAll ts

end

/-- An expression is alike to its plain form. -/
theorem alike_plain {t : Tree} (h : t.IsExpression) : t.Alike t.plain := by
  induction h with
  | literal v =>
    refine .literal ?_
    rw [Value.same_eq, v.canonical_canonical, beq_self_eq_true]
  | read form name => exact .read form .variable name
  | unary op _ ih => exact .unary op ih
  | binary op _ _ ihleft ihright => exact .binary op ihleft ihright
  | conditional _ _ _ ihtest ihconsequent ihalternate =>
    exact .conditional ihtest ihconsequent ihalternate

/-- Statements behind others in a sequence are alike to their lines if each of them is. -/
theorem alike_linesAll : ∀ (items before : List Tree),
    (∀ t ∈ items, t.Alike (block .sequence t.lines)) →
    Alike (block .sequence (before ++ items)) (block .sequence (before ++ linesAll items))
  | [], before, _ => .refl _
  | t :: ts, before, h => by
    rw [List.forall_mem_cons] at h
    have hitem := Alike.item .sequence before ts h.1
    have hsplice := Alike.splice .sequence .sequence before t.lines ts
    have hrest := alike_linesAll ts (before ++ t.lines) h.2
    rw [List.append_assoc, List.append_assoc] at hrest
    exact (hitem.trans hsplice).trans hrest

/-- A statement is alike to the sequence of its lines. -/
theorem alike_lines {t : Tree} (h : t.IsStatement) : t.Alike (block .sequence t.lines) := by
  induction h with
  | store form name h =>
    exact (Alike.store form .assignment name (alike_plain h)).trans (Alike.single .sequence _).symm
  | print h => exact (Alike.print (alike_plain h)).trans (Alike.single .sequence _).symm
  | loop htest _ ih =>
    exact (Alike.loop (alike_plain htest) ih).trans (Alike.single .sequence _).symm
  | block form _ ih => exact (Alike.form form .sequence _).trans (alike_linesAll _ [] ih)

end Tree

/-! ## Reading code -/

/-- What has been read and does not belong to a larger piece yet. -/
inductive Piece where
  /-- A value. -/
  | value (t : Tree)
  /-- A statement. -/
  | statement (t : Tree)
  /-- A value that decides about what follows. -/
  | tested (t : Tree)
  /-- A conditional without its alternate, and where it ends. -/
  | branch (test consequent : Tree) (finish : Nat)

namespace Piece

open Backpatch.Tree

/-- A value that is complete at an address, on top of other pieces. It is the alternate of a conditional
that ends there, which is then complete itself. -/
def settle (address : Nat) : Tree → List Piece → List Piece
  | t, branch test consequent finish :: pieces =>
    if finish = address then settle address (conditional test consequent t) pieces
    else value t :: branch test consequent finish :: pieces
  | t, pieces => value t :: pieces

/-- Takes the statements on top, the first one read to the front, and puts others behind them. -/
def takeStatements : List Piece → List Tree → List Tree × List Piece
  | statement t :: pieces, ts => takeStatements pieces (t :: ts)
  | pieces, ts => (ts, pieces)

/-- The way back of a loop: the statements on top are its body, and its test is below them. -/
def closeLoop (pieces : List Piece) : Option (List Piece) :=
  match takeStatements pieces [] with
  | (body, tested t :: pieces) => some (statement (loop t (block .sequence body)) :: pieces)
  | _ => none

/-- No conditional on top ends before the address. -/
def Waits (address : Nat) : List Piece → Prop
  | branch _ _ finish :: _ => address ≤ finish
  | _ => True

/-- What waits for an address waits for every smaller one. -/
theorem Waits.mono {a b : Nat} {pieces : List Piece} (h : Waits b pieces) (hle : a ≤ b) :
    Waits a pieces := by
  cases pieces with
  | nil => trivial
  | cons piece pieces =>
    cases piece with
    | branch test consequent finish => exact Nat.le_trans hle h
    | _ => trivial

/-- A value that ends before the conditional on top does is no alternate yet. -/
theorem settle_of_waits {address : Nat} {pieces : List Piece} (h : Waits (address + 1) pieces)
    (t : Tree) : settle address t pieces = value t :: pieces := by
  cases pieces with
  | nil => rfl
  | cons piece pieces =>
    cases piece with
    | branch test consequent finish => exact if_neg (Nat.ne_of_gt h)
    | _ => rfl

/-- No conditional is open on top. -/
def Closed (pieces : List Piece) : Prop :=
  ∀ address, Waits address pieces

/-- Statements wait for nothing. -/
theorem Closed.statements {pieces : List Piece} (h : Closed pieces) (ts : List Tree) :
    Closed ((ts.map statement).reverse ++ pieces) := by
  rw [← List.map_reverse]
  cases ts.reverse with
  | nil => exact h
  | cons t ts => exact fun _ => trivial

/-- Where a branch ends, its conditional is complete. -/
theorem settle_branch (finish : Nat) (test consequent t : Tree) (pieces : List Piece) :
    settle finish t (branch test consequent finish :: pieces) =
      settle finish (conditional test consequent t) pieces :=
  if_pos rfl

/-- Statements are taken in the order in which they were read. -/
theorem takeStatements_append (ts us : List Tree) (pieces : List Piece) :
    takeStatements ((ts.map statement).reverse ++ pieces) us = takeStatements pieces (ts ++ us) := by
  induction ts generalizing us pieces with
  | nil => rfl
  | cons t ts ih =>
    rw [List.map_cons, List.reverse_cons, List.append_assoc, ih]
    rfl

end Piece

namespace Program

open Backpatch.Tree Piece

/-- The pieces after one more instruction. -/
def parseStep (p : Program) (pieces : List Piece) (i : Instruction) : Option (List Piece) :=
  match i.opcode, i.operand, pieces with
  | .loadConst, some id, pieces => do
    let v ← p.constant? id
    return settle (i.address + 1) (literal v.canonical) pieces
  | .loadName, some id, pieces => do
    let name ← p.name? id
    return settle (i.address + 1) (read .variable name) pieces
  | .storeName, some id, value t :: pieces => do
    let name ← p.name? id
    return statement (store .assignment name t) :: pieces
  | .callBuiltin, some _, value t :: pieces => some (statement (print t) :: pieces)
  | .binary, some code, value right :: value left :: pieces => do
    let op ← (BinaryOp.ofCode code).toOption
    return settle (i.address + 1) (binary op left right) pieces
  | .not, none, value t :: pieces => some (settle (i.address + 1) (unary .not t) pieces)
  | .negate, none, value t :: pieces => some (settle (i.address + 1) (unary .negate t) pieces)
  | .jumpIfFalse, some _, value t :: pieces => some (tested t :: pieces)
  | .jump, some finish, value consequent :: tested test :: pieces =>
    some (branch test consequent finish :: pieces)
  | .jump, some _, pieces => closeLoop pieces
  | _, _, _ => none

/-- The pieces after some code. -/
def parse (p : Program) (code : List Instruction) (pieces : List Piece) : Option (List Piece) :=
  code.foldlM p.parseStep pieces

/-- The statements that a program has the code of. -/
def decompile (p : Program) : Option Tree := do
  let pieces ← p.parse p.code.toList []
  match takeStatements pieces [] with
  | (ts, []) => return block .sequence ts
  | _ => none

variable {p : Program} {pieces pieces' : List Piece}

/-- Code is read piece by piece. -/
theorem parse_append {code : List Instruction} (h : p.parse code pieces = some pieces')
    (code' : List Instruction) : p.parse (code ++ code') pieces = p.parse code' pieces' := by
  unfold parse at h ⊢
  rw [List.foldlM_append, h]
  rfl

/-- Code is read from its first instruction on. -/
theorem parse_cons {i : Instruction} (h : p.parseStep pieces i = some pieces')
    (code : List Instruction) : p.parse (i :: code) pieces = p.parse code pieces' := by
  unfold parse
  rw [List.foldlM_cons, h]
  rfl

/-- Code that leaves a value, with more code behind it. -/
theorem parse_value {code : List Instruction} {address : Nat} {t : Tree}
    (h : p.parse code pieces = some (settle address t pieces)) (hwaits : Waits (address + 1) pieces)
    (code' : List Instruction) :
    p.parse (code ++ code') pieces = p.parse code' (value t :: pieces) := by
  rw [parse_append h, settle_of_waits hwaits]

/-- The way back of a loop, with the body read on top of the test. -/
theorem parseStep_closeLoop {a target : Nat} (t : Tree) (ts : List Tree) (pieces : List Piece) :
    p.parseStep ((ts.map statement).reverse ++ tested t :: pieces)
        ⟨a, .jump, some target, none⟩ =
      some (statement (loop t (block .sequence ts)) :: pieces) := by
  have hclose : closeLoop ((ts.map statement).reverse ++ tested t :: pieces) =
      some (statement (loop t (block .sequence ts)) :: pieces) := by
    rw [closeLoop, takeStatements_append, List.append_nil]
    rfl
  rw [← hclose, ← List.map_reverse]
  cases ts.reverse <;> rfl

end Program

namespace Tree

open Piece Program

section Layout

variable {p : Program} {denote : Value → Value}

/-- The code of an expression reads as the value that it leaves, if no conditional below that value ends
inside it. -/
theorem parse_expression (hclass : ∀ v, (denote v).canonical = v.canonical) {t : Tree}
    (ht : t.IsExpression) (base : Nat) (T : Tables) (pieces : List Piece) (hscope : T.scope = {})
    (h : Linked p denote (t.fill T)) (hwaits : Waits (base + t.size) pieces) :
    p.parse (t.layout base T) pieces = some (settle (base + t.size) t.plain pieces) := by
  induction ht generalizing base T pieces with
  | literal v =>
    have hv : p.constant? (T.literals.place v) = some (denote v) := h.constant_of_withLiteral
    refine parse_cons ?_ []
    simp only [Tables.literalCode, parseStep, hv, plain, ← hclass v]
    rfl
  | read form name =>
    obtain ⟨hfill, hcode⟩ := T.read_of_outside hscope base name
    rw [fill, hfill] at h
    refine parse_cons ?_ []
    simp only [hcode, parseStep, h.name?_place]
    rfl
  | unary op _ ih =>
    rw [size] at hwaits
    have hoperand := ih base T pieces hscope h (hwaits.mono (by omega))
    rw [layout, parse_value hoperand hwaits]
    exact parse_cons (by cases op <;> rfl) []
  | @binary op left right _ _ ihleft ihright =>
    rw [size] at hwaits
    have hleft := ihleft base T pieces hscope (h.of_extends (extends_fill right _))
      (hwaits.mono (by omega))
    have hright := ihright (base + left.size) (left.fill T) (value left.plain :: pieces)
      ((extends_fill left T).scope hscope) h trivial
    rw [layout, parse_value hleft (hwaits.mono (by omega)), parse_value hright trivial]
    refine parse_cons ?_ []
    simp only [parseStep, op.ofCode_code]
    rw [size, Nat.add_assoc, Nat.add_assoc]
    rfl
  | @conditional test consequent alternate _ _ _ ihtest ihconsequent ihalternate =>
    rw [size] at hwaits
    have hscope₁ := (extends_fill test T).scope hscope
    have hscope₂ := (extends_fill consequent _).scope hscope₁
    have h' := h.of_extends (extends_fill alternate _)
    have htest := ihtest base T pieces hscope (h'.of_extends (extends_fill consequent _))
      (hwaits.mono (by omega))
    have hconsequent := ihconsequent (base + test.size + 1) (test.fill T)
      (tested test.plain :: pieces) hscope₁ h' trivial
    have hend : base + (conditional test consequent alternate).size =
        base + test.size + 1 + consequent.size + 1 + alternate.size := by
      rw [size]
      omega
    -- The alternate ends where the conditional does, so its value is the one that completes it.
    have halternate := ihalternate (base + test.size + 1 + consequent.size + 1)
      (consequent.fill (test.fill T)) (branch test.plain consequent.plain
        (base + (conditional test consequent alternate).size) :: pieces) hscope₂ h
      (Nat.le_of_eq hend.symm)
    rw [layout, parse_value htest (hwaits.mono (by omega)), parse_cons rfl,
      parse_value hconsequent trivial, parse_cons rfl, halternate, ← hend, settle_branch]
    rfl

/-- The code of an expression, with more code behind it, if no conditional is open below it. -/
theorem parse_expression_append (hclass : ∀ v, (denote v).canonical = v.canonical) {t : Tree}
    (ht : t.IsExpression) {base : Nat} {T : Tables} {pieces : List Piece} (hscope : T.scope = {})
    (h : Linked p denote (t.fill T)) (hclosed : Closed pieces) (code : List Instruction) :
    p.parse (t.layout base T ++ code) pieces = p.parse code (value t.plain :: pieces) :=
  parse_value (parse_expression hclass ht base T pieces hscope h (hclosed _)) (hclosed _) code

/-- Wherever the code of a tree stands, it reads as the lines of the tree. -/
def ReadsBack (p : Program) (denote : Value → Value) (t : Tree) : Prop :=
  ∀ (base : Nat) (T : Tables) (pieces : List Piece), T.scope = {} → Linked p denote (t.fill T) →
    Closed pieces → p.parse (t.layout base T) pieces = some ((t.lines.map statement).reverse ++ pieces)

/-- The code of a list of trees reads as their lines if the code of each does. -/
theorem parse_layoutAll : ∀ (ts : List Tree), (∀ t ∈ ts, ReadsBack p denote t) →
    ∀ (base : Nat) (T : Tables) (pieces : List Piece), T.scope = {} →
      Linked p denote (fillAll ts T) → Closed pieces →
      p.parse (layoutAll ts base T) pieces =
        some (((linesAll ts).map statement).reverse ++ pieces)
  | [], _, base, T, pieces, _, _, _ => rfl
  | t :: ts, hread, base, T, pieces, hscope, h, hclosed => by
    rw [List.forall_mem_cons] at hread
    have hhead := hread.1 base T pieces hscope (h.of_extends (extends_fillAll ts _)) hclosed
    have hscope' := (extends_fill t T).scope hscope
    rw [layoutAll, parse_append hhead, parse_layoutAll ts hread.2 _ _ _ hscope' h
      (hclosed.statements t.lines), linesAll, List.map_append, List.reverse_append,
      List.append_assoc]

/-- The code of a statement reads as its lines. -/
theorem readsBack_of_isStatement (hclass : ∀ v, (denote v).canonical = v.canonical) {t : Tree}
    (ht : t.IsStatement) : ReadsBack p denote t := by
  induction ht with
  | store form name hvalue =>
    intro base T pieces hscope h hclosed
    have hname : p.name? _ = some name := h.name?_place
    rw [layout, parse_expression_append hclass hvalue hscope (h.of_extends (.withGlobal _ name))
      hclosed]
    refine parse_cons ?_ []
    simp only [Tables.storeCode, parseStep, hname]
    rfl
  | print hargument =>
    intro base T pieces hscope h hclosed
    rw [layout, parse_expression_append hclass hargument hscope h hclosed]
    exact parse_cons rfl []
  | @loop test body htest _ ih =>
    intro base T pieces hscope h hclosed
    -- The body is read on top of the test, which stays there until the way back.
    have hbody := ih (base + test.size + 1) (test.fill T) (tested test.plain :: pieces)
      ((extends_fill test T).scope hscope) h fun _ => trivial
    rw [layout, parse_expression_append hclass htest hscope
      (h.of_extends (extends_fill body _)) hclosed, parse_cons rfl, parse_append hbody]
    exact parse_cons (parseStep_closeLoop _ _ _) []
  | block form _ ih => exact parse_layoutAll _ ih

end Layout

/-- The program of a statement is read back as the lines of the statement. -/
theorem decompile_of_generate {t : Tree} {p : Program} (ht : t.IsStatement)
    (h : t.generate = .ok p) : p.decompile = some (block .sequence t.lines) := by
  obtain ⟨hcode, -, -⟩ := layout_of_generate h
  have hread := readsBack_of_isStatement t.canonical_denotes ht 0 {} [] rfl (linked_of_generate h)
    fun _ => trivial
  have htake : takeStatements ((t.lines.map statement).reverse ++ []) [] = (t.lines, []) := by
    rw [takeStatements_append, List.append_nil]
    rfl
  rw [decompile, hcode, hread]
  simp only [Option.bind_eq_bind, Option.bind_some, htake]
  rfl

/-- No two different statements share their program: if two statements without functions and calls have
the same code, the same names and the same constants, they differ only in how stores, reads and blocks
are written and in literals that are the same to a table. -/
theorem alike_of_same_program (t u : Tree) (p q : Program) (ht : t.IsStatement) (hu : u.IsStatement)
    (hp : t.generate = .ok p) (hq : u.generate = .ok q) (hcode : p.code = q.code)
    (hnames : p.names = q.names) (hconstants : p.constants = q.constants) : t.Alike u := by
  have hsame : p = q := by
    cases p
    cases q
    cases hcode
    cases hnames
    cases hconstants
    rfl
  have hlines : block .sequence t.lines = block .sequence u.lines := by
    refine Option.some.inj ?_
    rw [← decompile_of_generate ht hp, ← decompile_of_generate hu hq, hsame]
  exact (alike_lines ht).trans (hlines ▸ (alike_lines hu).symm)

/-- Two programs that differ in all these ways at once. The second zero of each is loaded from the
constant that the first one makes, so its sign is lost. -/
theorem alike_of_same_program_loop :
    ∃ t u, t = block .program [store .declaration "x" (literal (.number ⟨false, 0, 0⟩)),
        loop (read .variable "x") (print (conditional (read .variable "x")
          (literal (.number ⟨true, 0, 0⟩)) (unary .negate (read .variable "x"))))] ∧
      u = block .sequence [block .program [store .assignment "x" (literal (.number ⟨false, 0, 0⟩))],
        loop (read .function "x") (block .sequence [print (conditional (read .variable "x")
          (literal (.number ⟨false, 0, 0⟩)) (unary .negate (read .function "x")))])] ∧
      ∃ p, t.generate = .ok p ∧ u.generate = .ok p ∧ t.Alike u := by
  refine ⟨_, _, rfl, rfl, ?_⟩
  refine (exists_of_isOk (by decide +kernel)).imp fun p hp => ⟨hp, ?_⟩
  refine ⟨?hq, alike_of_same_program _ _ p p ?_ ?_ hp ?hq rfl rfl rfl⟩
  · rw [← hp]
    decide +kernel
  · refine .block .program (List.forall_mem_cons.mpr ⟨.store _ _ (.literal _), ?_⟩)
    exact List.forall_mem_singleton.mpr
      (.loop (.read _ _) (.print (.conditional (.read _ _) (.literal _) (.unary _ (.read _ _)))))
  · refine .block .sequence (List.forall_mem_cons.mpr ⟨.block .program ?_, ?_⟩)
    · exact List.forall_mem_singleton.mpr (.store _ _ (.literal _))
    · refine List.forall_mem_singleton.mpr (.loop (.read _ _) (.block .sequence ?_))
      exact List.forall_mem_singleton.mpr
        (.print (.conditional (.read _ _) (.literal _) (.unary _ (.read _ _))))

end Tree

end Backpatch
