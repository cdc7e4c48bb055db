import Backpatch.Proofs.Linking

/-!
# Code and tables determine each other

An instruction of a program carries what its operation reads, and finds it in the tables of the
program (`Instruction.Fits`). For the other direction, `Tables.Accounts` says that tables have grown
by what some code refers to and by nothing else, in the order of the code. Stretches of code compose
(`Accounts.trans`), and both facts follow the layout of a tree.
-/

namespace Backpatch

namespace Instruction

/-- The instruction is one that the program has a use for: its operand is there if the operation reads
one and is found where the operation looks it up, and its note says what the operand stands for. -/
inductive Fits (p : Program) : Instruction → Prop where
  /-- The read of a global, with its name. -/
  | loadName {a id : Nat} {name : String} (h : p.name? id = some name) :
      Fits p ⟨a, .loadName, some id, some name⟩
  /-- The store to a global, with its name. -/
  | storeName {a id : Nat} {name : String} (h : p.name? id = some name) :
      Fits p ⟨a, .storeName, some id, some name⟩
  /-- The read of a parameter. -/
  | loadFast {a slot : Nat} {name : String} : Fits p ⟨a, .loadFast, some slot, some name⟩
  /-- A constant, with its text. -/
  | loadConst {a id : Nat} {v : Value} (h : p.constant? id = some v) :
      Fits p ⟨a, .loadConst, some id, some v.text⟩
  /-- A function. -/
  | makeFunction {a : Nat} : Fits p ⟨a, .makeFunction, none, none⟩
  /-- A call, which does not say of how many arguments. -/
  | call {a : Nat} : Fits p ⟨a, .call, none, none⟩
  /-- The call that prints. -/
  | print {a : Nat} : Fits p ⟨a, .callBuiltin, some Builtin.print.id, some Builtin.print.name⟩
  /-- A binary operator, with its symbol. -/
  | binary {a : Nat} (op : BinaryOp) : Fits p ⟨a, .binary, some op.code, some op.symbol⟩
  /-- A negated truth value. -/
  | not {a : Nat} : Fits p ⟨a, .not, none, none⟩
  /-- A negated number. -/
  | negate {a : Nat} : Fits p ⟨a, .negate, none, none⟩
  /-- A jump. -/
  | jump {a target : Nat} : Fits p ⟨a, .jump, some target, none⟩
  /-- A jump that is taken if the test fails. -/
  | jumpIfFalse {a target : Nat} : Fits p ⟨a, .jumpIfFalse, some target, none⟩

/-- The global that an instruction reads or stores, by its note. -/
def global? (i : Instruction) : Option String :=
  match i.opcode with
  | .loadName | .storeName => i.display
  | _ => none

/-- The identifier of the constant that an instruction loads. -/
def constant? (i : Instruction) : Option Nat :=
  match i.opcode with
  | .loadConst => i.operand
  | _ => none

namespace Fits

variable {p : Program} {i : Instruction}

/-- An operand is there exactly if the operation reads one. -/
theorem isSome_operand (h : i.Fits p) : i.operand.isSome = i.opcode.hasOperand := by
  cases h <;> rfl

/-- The operand of a read or a store of a global is the place of the name that the note shows. -/
theorem exists_name (h : i.Fits p) (hop : i.opcode = .loadName ∨ i.opcode = .storeName) :
    ∃ id name, i.operand = some id ∧ i.display = some name ∧ p.names[id]? = some name := by
  cases h with
  | loadName h => exact ⟨_, _, rfl, rfl, h⟩
  | storeName h => exact ⟨_, _, rfl, rfl, h⟩
  | _ => simp at hop

/-- The operand of a load of a constant is the place of one that reads as the note does. -/
theorem exists_constant (h : i.Fits p) (hop : i.opcode = .loadConst) :
    ∃ id v, i.operand = some id ∧ id < p.constants.length ∧ p.constants[id]? = some v ∧
      i.display = some v.text := by
  cases h with
  | loadConst h => exact ⟨_, _, rfl, (List.getElem?_eq_some_iff.mp h).1, h, rfl⟩
  | _ => cases hop

/-- The operand of a binary operator decodes to the operator that the note shows. -/
theorem exists_operator (h : i.Fits p) (hop : i.opcode = .binary) :
    ∃ code op, i.operand = some code ∧ BinaryOp.ofCode code = .ok op ∧
      i.display = some op.symbol := by
  cases h with
  | binary op => exact ⟨op.code, op, rfl, op.ofCode_code, rfl⟩
  | _ => cases hop

/-- The operand of a call of a built-in function decodes to `print`. -/
theorem exists_builtin (h : i.Fits p) (hop : i.opcode = .callBuiltin) :
    ∃ id, i.operand = some id ∧ Builtin.ofId id = .ok .print := by
  cases h with
  | print => exact ⟨_, rfl, Builtin.ofId_id .print⟩
  | _ => cases hop

/-- What refers neither to a table nor to an enumeration shows no note. -/
theorem display_eq_none (h : i.Fits p)
    (hop : i.opcode = .makeFunction ∨ i.opcode = .call ∨ i.opcode = .not ∨ i.opcode = .negate ∨
      i.opcode.isJump = true) : i.display = none := by
  cases h <;> first | rfl | simp [Opcode.isJump] at hop

end Fits

end Instruction

/-! ## From code to tables -/

section Fits

variable {p : Program} {denote : Value → Value} {T : Tables} {a : Nat} {name : String}

/-- A name is found in the program under the identifier that it gets. -/
theorem Linked.name?_place (h : Linked p denote (T.withGlobal name)) :
    p.name? (T.names.place name) = some name := by
  obtain ⟨hmem, hid⟩ := h.idxOf_of_withGlobal
  unfold Program.name?
  rw [← hid]
  exact List.getElem?_idxOf hmem

/-- A read fits once its name is in the tables. -/
theorem Linked.fits_readCode (h : Linked p denote (T.withRead name)) :
    (T.readCode a name).Fits p := by
  unfold Tables.withRead at h
  unfold Tables.readCode
  split at h
  · exact .loadFast
  · exact .loadName h.name?_place

/-- A store fits once its name is in the tables. -/
theorem Linked.fits_storeCode (h : Linked p denote (T.withGlobal name)) :
    (T.storeCode a name).Fits p :=
  .storeName h.name?_place

/-- The load of a literal fits once the literal is in the tables, if the literal reads like what it
stands for. -/
theorem Linked.fits_literalCode {v : Value} (h : Linked p denote (T.withLiteral v))
    (htext : (denote v).text = v.text) : (T.literalCode a v).Fits p := by
  unfold Tables.literalCode
  rw [← htext]
  exact .loadConst h.constant_of_withLiteral

end Fits

namespace Tree

/-- A literal is of the class of the literal that it stands for. -/
theorem canonical_denotes (t : Tree) (v : Value) : (t.denotes v).canonical = v.canonical := by
  unfold denotes
  cases hfind : t.literals.find? fun u => u.same v with
  | none => rfl
  | some u =>
    have hsame := List.find?_some hfind
    rwa [Value.same_eq, beq_iff_eq] at hsame

/-- A literal reads like the literal that it stands for. -/
theorem text_denotes (t : Tree) (v : Value) : (t.denotes v).text = v.text := by
  rw [← (t.denotes v).text_canonical, t.canonical_denotes, v.text_canonical]

section Layout

variable {p : Program} {denote : Value → Value}

mutual

/-- Every instruction of a tree fits the program that the tables of the tree end up in. -/
theorem fits_layout (htext : ∀ v, (denote v).text = v.text) : ∀ (t : Tree) {base : Nat} {T : Tables},
    Linked p denote (t.fill T) → ∀ i ∈ t.layout base T, i.Fits p
  | block _ items, base, T, h => fits_layoutAll htext items h
  | store _ name value, base, T, h => by
    rw [layout, List.forall_mem_append, List.forall_mem_singleton]
    exact ⟨fits_layout htext value (h.of_extends (.withGlobal _ name)), h.fits_storeCode⟩
  | read _ name, base, T, h => List.forall_mem_singleton.mpr h.fits_readCode
  | function name params body, base, T, h => by
    -- Leaving the function changes the scope only, which `Linked` does not look at.
    have h' : Linked p denote ((body.fill (T.within name params)).withGlobal name) :=
      ⟨h.names, h.literals⟩
    rw [layout, List.forall_mem_cons, List.forall_mem_append, List.forall_mem_singleton]
    exact ⟨.makeFunction, fits_layout htext body (h'.of_extends (.withGlobal _ name)),
      h'.fits_storeCode⟩
  | print argument, base, T, h => by
    rw [layout, List.forall_mem_append, List.forall_mem_singleton]
    exact ⟨fits_layout htext argument h, .print⟩
  | loop test body, base, T, h => by
    rw [layout, List.forall_mem_append, List.forall_mem_cons, List.forall_mem_append,
      List.forall_mem_singleton]
    exact ⟨fits_layout htext test (h.of_extends (extends_fill body _)), .jumpIfFalse,
      fits_layout htext body h, .jump⟩
  | call callee arguments, base, T, h => by
    rw [layout, List.forall_mem_cons, List.forall_mem_append, List.forall_mem_singleton]
    exact ⟨(h.of_extends (extends_fillAll arguments _)).fits_readCode,
      fits_layoutAll htext arguments h, .call⟩
  | conditional test consequent alternate, base, T, h => by
    have h' := h.of_extends (extends_fill alternate _)
    rw [layout, List.forall_mem_append, List.forall_mem_cons, List.forall_mem_append,
      List.forall_mem_cons]
    exact ⟨fits_layout htext test (h'.of_extends (extends_fill consequent _)), .jumpIfFalse,
      fits_layout htext consequent h', .jump, fits_layout htext alternate h⟩
  | binary op left right, base, T, h => by
    rw [layout, List.forall_mem_append, List.forall_mem_append, List.forall_mem_singleton]
    exact ⟨fits_layout htext left (h.of_extends (extends_fill right _)), fits_layout htext right h,
      .binary op⟩
  | unary op operand, base, T, h => by
    rw [layout, List.forall_mem_append, List.forall_mem_singleton]
    refine ⟨fits_layout htext operand h, ?_⟩
    cases op with
    | not => exact .not
    | negate => exact .negate
  | literal v, base, T, h => List.forall_mem_singleton.mpr (h.fits_literalCode (htext v))

/-- Every instruction of a list of trees fits the program that their tables end up in. -/
theorem fits_layoutAll (htext : ∀ v, (denote v).text = v.text) :
    ∀ (ts : List Tree) {base : Nat} {T : Tables},
    Linked p denote (fillAll ts T) → ∀ i ∈ layoutAll ts base T, i.Fits p
  | [], base, T, h => fun _ hi => absurd hi List.not_mem_nil
  | t :: ts, base, T, h => by
    rw [layoutAll, List.forall_mem_append]
    exact ⟨fits_layout htext t (h.of_extends (extends_fillAll ts _)), fits_layoutAll htext ts h⟩

end

end Layout

/-- Every instruction of a program fits it. -/
theorem fits_of_generate {t : Tree} {p : Program} (h : t.generate = .ok p) :
    ∀ i ∈ p.code, i.Fits p := by
  obtain ⟨hcode, -, -⟩ := layout_of_generate h
  intro i hi
  rw [← Array.mem_toList_iff, hcode] at hi
  exact fits_layout t.text_denotes t (linked_of_generate h) i hi

end Tree

/-! ## From tables to code -/

/-- The tables `T'` are `T` and what `code` refers to, in the order of `code`. -/
structure Tables.Accounts (T : Tables) (code : List Instruction) (T' : Tables) : Prop where
  /-- The globals that are new are those that the code reads and stores. -/
  names : T'.names = T.names.insertAll (code.filterMap Instruction.global?)
  /-- The identifiers of the literals that are new are those that the code loads. -/
  literals : SymbolTable.insertAll ⟨List.range T.literals.classes.keys.length⟩
    (code.filterMap Instruction.constant?) = ⟨List.range T'.literals.classes.keys.length⟩

namespace Tables.Accounts

variable {T T₁ T₂ : Tables} {code code₁ code₂ : List Instruction} {a : Nat}

/-- No code refers to nothing. -/
theorem nil (T : Tables) : T.Accounts [] T :=
  ⟨rfl, rfl⟩

/-- Code after code. -/
theorem trans (h₁ : T.Accounts code₁ T₁) (h₂ : T₁.Accounts code₂ T₂) :
    T.Accounts (code₁ ++ code₂) T₂ where
  names := by rw [List.filterMap_append, SymbolTable.insertAll_append, ← h₁.names, h₂.names]
  literals := by
    rw [List.filterMap_append, SymbolTable.insertAll_append, h₁.literals, h₂.literals]

/-- An instruction that refers to nothing in the tables. -/
theorem plain {i : Instruction} (hglobal : i.global? = none) (hconstant : i.constant? = none) :
    T.Accounts [i] T := by
  constructor <;> simp [hglobal, hconstant, SymbolTable.insertAll]

/-- Code after an instruction that refers to nothing in the tables. -/
theorem cons {i : Instruction} (hglobal : i.global? = none) (hconstant : i.constant? = none)
    (h : T.Accounts code T₁) : T.Accounts (i :: code) T₁ :=
  (plain hglobal hconstant).trans h

/-- The store to a name. -/
theorem storeCode (T : Tables) (a : Nat) (name : String) :
    T.Accounts [T.storeCode a name] (T.withGlobal name) :=
  ⟨rfl, rfl⟩

/-- The read of a name: one of a parameter refers to nothing in the tables. -/
theorem readCode (T : Tables) (a : Nat) (name : String) :
    T.Accounts [T.readCode a name] (T.withRead name) := by
  unfold Tables.readCode Tables.withRead
  split
  · exact plain rfl rfl
  · exact ⟨rfl, rfl⟩

/-- The load of a literal. -/
theorem literalCode (T : Tables) (a : Nat) (v : Value) :
    T.Accounts [T.literalCode a v] (T.withLiteral v) :=
  ⟨rfl, T.literals.classes.insert_range_place v.canonical⟩

end Tables.Accounts

namespace Tree

open Tables

mutual

/-- The code of a tree refers to all that the tree adds to the tables, and in the same order. -/
theorem accounts_layout : ∀ (t : Tree) (base : Nat) (T : Tables),
    T.Accounts (t.layout base T) (t.fill T)
  | block _ items, base, T => accounts_layoutAll items base T
  | store _ name value, base, T => (accounts_layout value base T).trans (.storeCode _ _ name)
  | read _ name, base, T => .readCode T base name
  | function name params body, base, T => by
    have hbody := accounts_layout body (base + 1) (T.within name params)
    have h := hbody.trans (.storeCode _ (base + 1 + body.size) name)
    -- The scope is entered and left on the way, and the tables of names and literals are not.
    exact .cons rfl rfl ⟨h.names, h.literals⟩
  | print argument, base, T => (accounts_layout argument base T).trans (.plain rfl rfl)
  | loop test body, base, T =>
    (accounts_layout test base T).trans
      (.cons rfl rfl ((accounts_layout body _ _).trans (.plain rfl rfl)))
  | call callee arguments, base, T =>
    (Accounts.readCode T base callee).trans
      ((accounts_layoutAll arguments _ _).trans (.plain rfl rfl))
  | conditional test consequent alternate, base, T =>
    (accounts_layout test base T).trans
      (.cons rfl rfl ((accounts_layout consequent _ _).trans
        (.cons rfl rfl (accounts_layout alternate _ _))))
  | binary op left right, base, T =>
    (accounts_layout left base T).trans ((accounts_layout right _ _).trans (.plain rfl rfl))
  | unary op operand, base, T =>
    (accounts_layout operand base T).trans (by cases op <;> exact .plain rfl rfl)
  | literal v, base, T => .literalCode T base v

/-- The code of a list of trees refers to all that the list adds to the tables, and in the same
order. -/
theorem accounts_layoutAll : ∀ (ts : List Tree) (base : Nat) (T : Tables),
    T.Accounts (layoutAll ts base T) (fillAll ts T)
  | [], _, T => .nil T
  | t :: ts, base, T => (accounts_layout t base T).trans (accounts_layoutAll ts _ _)

end

/-- The names of a program are those that its code reads and stores, each where it comes first. -/
theorem names_of_generate {t : Tree} {p : Program} (h : t.generate = .ok p) :
    p.names = (p.code.toList.filterMap Instruction.global?).eraseDups ∧ p.names.Nodup := by
  obtain ⟨hcode, hnames, -⟩ := layout_of_generate h
  have haccounts := (accounts_layout t 0 {}).names
  rw [hcode, hnames, haccounts]
  exact ⟨SymbolTable.keys_insertAll _, SymbolTable.nodup_insertAll List.Pairwise.nil _⟩

/-- The code of a program loads its constants in the order of their identifiers, as far as first
loads go. -/
theorem constants_of_generate {t : Tree} {p : Program} (h : t.generate = .ok p) :
    (p.code.toList.filterMap Instruction.constant?).eraseDups = List.range p.constants.length := by
  obtain ⟨hcode, -, hconstants⟩ := layout_of_generate h
  have hempty : LiteralPool.InStep {} := rfl
  have hinStep : (t.fill {}).literals.InStep := t.literals_fill {} ▸ hempty.insertAll t.literals
  have hlength : p.constants.length = (t.fill {}).literals.classes.keys.length := by
    rw [hconstants, hinStep, List.length_map]
  have haccounts := congrArg SymbolTable.keys (accounts_layout t 0 {}).literals
  rw [hcode, hlength, ← SymbolTable.keys_insertAll]
  exact haccounts

/-- Code and tables determine each other. In the program of a tree, an instruction has an operand
exactly if its operation reads one. The operand of a read or a store of a global is the place of the
name that the note shows; that of a load is the place of a constant that reads as the note does; that
of a binary operator decodes to the operator whose symbol is the note, and that of a call of a
built-in function to `print`. The other operations, parameters apart, show no note. The names are
different from each other and are those that the code refers to, each where it comes first, and the
constants are numbered in the order in which the code first loads them. -/
theorem code_and_tables_agree (t : Tree) (p : Program) (hp : t.generate = .ok p) :
    (∀ i ∈ p.code,
      i.operand.isSome = i.opcode.hasOperand ∧
      (i.opcode = .loadName ∨ i.opcode = .storeName →
        ∃ id name, i.operand = some id ∧ i.display = some name ∧ p.names[id]? = some name) ∧
      (i.opcode = .loadConst →
        ∃ id v, i.operand = some id ∧ id < p.constants.length ∧ p.constants[id]? = some v ∧
          i.display = some v.text) ∧
      (i.opcode = .binary →
        ∃ code op, i.operand = some code ∧ BinaryOp.ofCode code = .ok op ∧
          i.display = some op.symbol) ∧
      (i.opcode = .callBuiltin → ∃ id, i.operand = some id ∧ Builtin.ofId id = .ok .print) ∧
      (i.opcode = .makeFunction ∨ i.opcode = .call ∨ i.opcode = .not ∨ i.opcode = .negate ∨
        i.opcode.isJump = true → i.display = none)) ∧
    p.names.Nodup ∧
    p.names = (p.code.toList.filterMap Instruction.global?).eraseDups ∧
    (p.code.toList.filterMap Instruction.constant?).eraseDups = List.range p.constants.length := by
  obtain ⟨hnames, hnodup⟩ := names_of_generate hp
  refine ⟨fun i hi => ?_, hnodup, hnames, constants_of_generate hp⟩
  have hfits := fits_of_generate hp i hi
  exact ⟨hfits.isSome_operand, hfits.exists_name, hfits.exists_constant, hfits.exists_operator,
    hfits.exists_builtin, hfits.display_eq_none⟩

/-- Two zeros of different sign, one of them in a function whose parameter is not among the names: both
are loaded from the one constant that there is, and both read as it does. -/
theorem code_and_tables_agree_zeros :
    ∃ p, (block .program [function "f" ["x"] (print (binary .add (read .variable "x")
        (literal (.number ⟨true, 0, 0⟩)))), store .declaration "y"
          (literal (.number ⟨false, 0, 0⟩))]).generate = .ok p ∧
      (p.code.toList.filterMap Instruction.global?).eraseDups = ["f", "y"] ∧
      p.constants = [.number ⟨true, 0, 0⟩] ∧
      ∀ i ∈ p.code, i.opcode = .loadConst → i.operand = some 0 ∧
        i.display = some (Value.number ⟨true, 0, 0⟩).text := by
  refine (exists_of_isOk (by decide +kernel)).imp fun p hp => ⟨hp, ?_⟩
  obtain ⟨hcode, -, hnames, -⟩ := code_and_tables_agree _ p hp
  obtain ⟨-, hnames', hconstants⟩ := layout_of_generate hp
  have hone : p.constants = [.number ⟨true, 0, 0⟩] := hconstants
  refine ⟨hnames ▸ hnames', hone, fun i hi hop => ?_⟩
  obtain ⟨-, -, hconstant, -⟩ := hcode i hi
  obtain ⟨id, v, hid, hlt, hv, htext⟩ := hconstant hop
  rw [hone] at hlt hv
  obtain rfl : id = 0 := Nat.lt_one_iff.mp hlt
  cases hv
  exact ⟨hid, htext⟩

end Tree

end Backpatch
