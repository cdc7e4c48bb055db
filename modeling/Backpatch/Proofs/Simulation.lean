import Backpatch.Proofs.Linking

/-!
# The machine does what the tree says

Running the code of a tree on the machine is evaluating the tree. `Represents` relates a machine to a
state, where identifiers stand for names, and each instruction keeps it (`Performs`). `Carries` says
of a stretch of addresses that running from its start is some part of an evaluation and then running
from its stop, or failing where that fails, with the same steps left. Stretches compose
(`Carries.bind`, `Carries.branch`), and `Tree.carries_layout` follows the tree.
-/

namespace Backpatch

open Halt

/-- The machine holds the state: globals are found by the identifiers of their names. -/
structure Represents (p : Program) (m : Machine) (s : State) : Prop where
  /-- The stacks are the same. -/
  stack : m.stack = s.stack
  /-- The globals have the same values. -/
  globals : ∀ name, m.globalNamed? p name = s.globals name
  /-- Each name has its place. -/
  length : m.globals.length = p.names.length
  /-- The same was printed. -/
  printed : m.printed = s.printed

/-- The error of the machine that shows why an evaluation ended. -/
def Halt.Shows (p : Program) : Halt → MachineError → Prop
  | unset name, e => e = .unsetGlobal (p.names.idxOf name)
  | raised e', e => e = e'
  | exhausted, e => ∃ pc, e = .stepLimit pc

/-- The machine does what is done to the state, with the next address and the trace as given. -/
def Performs (p : Program) (pc : Nat) (trace : Array Nat) :
    Except Halt State → Except MachineError Machine → Prop
  | .ok s, answer => ∃ m, answer = .ok m ∧ m.pc = pc ∧ m.trace = trace ∧ Represents p m s
  | .error halt, answer => ∃ e, answer = .error e ∧ halt.Shows p e

/-! ## Instructions -/

section Instructions

variable {p : Program} {m : Machine} {s : State} {pc a : Nat} {trace : Array Nat}
  {display : Option String}

/-- A machine and a state pop alike. -/
theorem Performs.pop {f : Value × State → Except Halt State}
    {f' : Value × Machine → Except MachineError Machine} (h : Represents p m s)
    (hf : ∀ v s' m', Represents p m' s' → m'.pc = m.pc → m'.trace = m.trace →
      Performs p pc trace (f (v, s')) (f' (v, m'))) :
    Performs p pc trace (s.pop >>= f) (m.pop >>= f') := by
  unfold State.pop Machine.pop
  rw [h.stack]
  cases s.stack with
  | nil => exact ⟨_, rfl, rfl⟩
  | cons v stack => exact hf v _ _ ⟨rfl, h.globals, h.length, h.printed⟩ rfl rfl

/-- A machine and a state push alike. -/
theorem Performs.push (h : Represents p m s) (v : Value) :
    Performs p m.pc m.trace (s.push v) (.ok (m.push v)) :=
  ⟨_, rfl, rfl, rfl, congrArg (v :: ·) h.stack, h.globals, h.length, h.printed⟩

/-- A machine and a state push a result alike. -/
theorem Performs.answer (h : Represents p m s) (result : Except MachineError Value) :
    Performs p m.pc m.trace (s.answer result) (result >>= fun v => .ok (m.push v)) := by
  cases result with
  | ok v => exact .push h v
  | error e => exact ⟨e, rfl, rfl⟩

/-- The load of a constant. -/
theorem performs_loadConst (h : Represents p m s) {id : Nat} {v : Value}
    (hid : p.constants[id]? = some v) :
    Performs p m.pc m.trace (s.push v) (m.execute p ⟨a, .loadConst, some id, display⟩) := by
  have hconstant : p.constant? id = some v := hid
  have hexecute : m.execute p ⟨a, .loadConst, some id, display⟩ = .ok (m.push v) := by
    simp only [Machine.execute, Machine.operand, bind, Except.bind, hconstant]
    rfl
  rw [hexecute]
  exact .push h v

/-- A name of the program is found at its place. -/
theorem Represents.global?_idxOf (h : Represents p m s) {name : String} (hmem : name ∈ p.names) :
    m.global? (p.names.idxOf name) = s.globals name := by
  rw [← h.globals, Machine.globalNamed?, idxOf?_of_mem hmem, Option.bind_some]

/-- The load of a global. -/
theorem performs_loadName (h : Represents p m s) {name : String} (hmem : name ∈ p.names) :
    Performs p m.pc m.trace (s.load name)
      (m.execute p ⟨a, .loadName, some (p.names.idxOf name), display⟩) := by
  simp only [Machine.execute, Machine.operand, bind, Except.bind, h.global?_idxOf hmem]
  unfold State.load
  cases s.globals name with
  | some v => exact .push h v
  | none => exact ⟨_, rfl, rfl⟩

/-- A machine and a state take the value of a global alike. -/
theorem Represents.set (h : Represents p m s) {name : String} (hmem : name ∈ p.names) (v : Value) :
    Represents p { m with globals := m.globals.set (p.names.idxOf name) (some v) }
      { s with globals := Function.update s.globals name (some v) } := by
  refine ⟨h.stack, fun x => ?_, List.length_set.trans h.length, h.printed⟩
  show _ = Function.update s.globals name (some v) x
  by_cases hx : x = name
  · subst hx
    have hlt : p.names.idxOf x < m.globals.length := by
      rw [h.length]
      exact List.idxOf_lt_length_of_mem hmem
    rw [Function.update_self, Machine.globalNamed?, idxOf?_of_mem hmem, Option.bind_some,
      Machine.global?, List.getElem?_set_self hlt]
    rfl
  · rw [Function.update_of_ne hx, ← h.globals, Machine.globalNamed?, Machine.globalNamed?]
    -- Another name has another place, and a name that the program lacks has none.
    by_cases hmem' : x ∈ p.names
    · have hne : p.names.idxOf name ≠ p.names.idxOf x :=
        fun he => hx ((List.idxOf_inj hmem).mp he).symm
      rw [idxOf?_of_mem hmem', Option.bind_some, Option.bind_some, Machine.global?,
        List.getElem?_set_ne hne, Machine.global?]
    · rw [List.idxOf?_eq_none_iff.mpr hmem']
      rfl

/-- The store to a global. -/
theorem performs_storeName (h : Represents p m s) {name : String} (hmem : name ∈ p.names) :
    Performs p m.pc m.trace (s.assign name)
      (m.execute p ⟨a, .storeName, some (p.names.idxOf name), display⟩) := by
  refine Performs.pop h fun v s' m' h' hpc htrace => ?_
  -- The machine checks the place, which a name of the program passes.
  have hlt : p.names.idxOf name < m'.globals.length := by
    rw [h'.length]
    exact List.idxOf_lt_length_of_mem hmem
  dsimp only
  rw [if_pos hlt]
  exact ⟨_, rfl, hpc, htrace, h'.set hmem v⟩

/-- A binary operator. -/
theorem performs_binary (h : Represents p m s) (op : BinaryOp) :
    Performs p m.pc m.trace (s.binary op)
      (m.execute p ⟨a, .binary, some op.code, display⟩) := by
  rw [Machine.execute_binary]
  refine Performs.pop h fun right s₁ m₁ h₁ hpc₁ htrace₁ => ?_
  refine Performs.pop h₁ fun left s₂ m₂ h₂ hpc₂ htrace₂ => ?_
  rw [← hpc₁, ← htrace₁, ← hpc₂, ← htrace₂]
  exact .answer h₂ _

/-- A unary operator. -/
theorem performs_unary (h : Represents p m s) (op : UnaryOp) :
    Performs p m.pc m.trace (s.unary op) (m.execute p ⟨a, op.opcode, none, display⟩) := by
  cases op with
  | not =>
    refine Performs.pop h fun v s' m' h' hpc htrace => ?_
    rw [← hpc, ← htrace]
    exact .answer h' _
  | negate =>
    refine Performs.pop h fun v s' m' h' hpc htrace => ?_
    rw [← hpc, ← htrace]
    exact .answer h' _

/-- Printing. -/
theorem performs_print (h : Represents p m s) :
    Performs p m.pc m.trace s.print
      (m.execute p ⟨a, .callBuiltin, some Builtin.print.id, display⟩) := by
  refine Performs.pop h fun v s' m' h' hpc htrace => ?_
  exact ⟨_, rfl, hpc, htrace, h'.stack, h'.globals, h'.length, congrArg (·.push v) h'.printed⟩

end Instructions

/-! ## Stretches of addresses -/

/-- The machine holds the state and has as many steps left. -/
structure Matches (p : Program) (m : Machine) (w : Progress) : Prop where
  /-- The machine holds the state. -/
  represents : Represents p m w.state
  /-- The steps taken and the steps left are all steps. -/
  steps : m.trace.size + w.left = Machine.stepLimit

/-- The machine answers as an evaluation has it: if that goes on, the machine goes on from `stop`. -/
def Agrees (p : Program) (stop : Nat) : Except Halt Progress → Except MachineError Machine → Prop
  | .ok w, answer => ∃ m, m.pc = stop ∧ Matches p m w ∧ answer = m.runFrom p w.left
  | .error halt, answer => ∃ e, answer = .error e ∧ halt.Shows p e

/-- Running from `start` is `f`, and then running from `stop`. -/
def Carries (p : Program) (start stop : Nat) (f : Progress → Except Halt Progress) : Prop :=
  ∀ m w, m.pc = start → Matches p m w → Agrees p stop (f w) (m.runFrom p w.left)

section Stretches

variable {p : Program} {a b c q : Nat} {i : Instruction} {m : Machine} {w : Progress}
  {f g : Progress → Except Halt Progress}

/-- An evaluation that goes on agrees if what it goes on with does. -/
theorem Agrees.bind {r : Except Halt Progress} {answer : Except MachineError Machine}
    (h : Agrees p b r answer)
    (hf : ∀ m w, r = .ok w → m.pc = b → Matches p m w → Agrees p c (f w) (m.runFrom p w.left)) :
    Agrees p c (r >>= f) answer := by
  cases r with
  | ok w =>
    obtain ⟨m, hpc, hm, rfl⟩ := h
    exact hf m w rfl hpc hm
  | error halt => exact h

/-- A stretch that does nothing. -/
theorem Carries.ok : Carries p a a .ok :=
  fun m _ hpc hm => ⟨m, hpc, hm, rfl⟩

/-- Stretches follow each other. -/
theorem Carries.bind (hf : Carries p a b f) (hg : Carries p b c g) :
    Carries p a c fun w => f w >>= g :=
  fun m w hpc hm => (hf m w hpc hm).bind fun m' w' _ => hg m' w'

/-- A run takes a step if one is left and there is an instruction to execute. -/
theorem Agrees.spend (hm : Matches p m w) (hi : p.code[m.pc]? = some i)
    (h : ∀ m' w', w'.left < w.left → m'.pc = m.pc + 1 → Matches p m' w' →
      Agrees p c (f w') (m'.execute p i >>= (·.runFrom p w'.left))) :
    Agrees p c (w.spend >>= f) (m.runFrom p w.left) := by
  unfold Progress.spend
  cases hleft : w.left with
  | zero =>
    -- Both stop here: the machine has an instruction to execute and no step for it.
    rw [Machine.runFrom, hi]
    exact ⟨_, rfl, m.pc, rfl⟩
  | succ left =>
    have hrun : m.runFrom p (left + 1) =
        (m.step p i >>= (·.runFrom p left) : Except MachineError Machine) := by
      rw [Machine.runFrom, hi]
      dsimp only
      cases m.step p i <;> rfl
    rw [hrun]
    refine h _ ⟨w.state, left⟩ (hleft ▸ Nat.lt_succ_self left) rfl ⟨?_, ?_⟩
    · exact ⟨hm.represents.stack, hm.represents.globals, hm.represents.length,
        hm.represents.printed⟩
    · have hsteps := hm.steps
      show (m.trace.push _).size + left = _
      rw [Array.size_push]
      omega

/-- An instruction with an effect on the state. -/
theorem Carries.perform {effect : State → Except Halt State} (hi : p.code[a]? = some i)
    (h : ∀ m s, Represents p m s → m.pc = a + 1 →
      Performs p b m.trace (effect s) (m.execute p i)) :
    Carries p a b (Progress.perform effect) := by
  intro m w hpc hm
  subst hpc
  -- The step is paid for first, and then the effect is that of the instruction.
  refine Agrees.spend hm hi fun m' w' _ hpc' hm' => ?_
  have hperforms := h m' w'.state hm'.represents hpc'
  cases heffect : effect w'.state with
  | ok s =>
    rw [heffect] at hperforms
    obtain ⟨m'', hexecute, hpc'', htrace, hrep⟩ := hperforms
    rw [hexecute]
    exact ⟨m'', hpc'', ⟨hrep, by rw [htrace]; exact hm'.steps⟩, rfl⟩
  | error halt =>
    rw [heffect] at hperforms
    obtain ⟨e, hexecute, hshows⟩ := hperforms
    rw [hexecute]
    exact ⟨e, rfl, hshows⟩

/-- A jump is a step and nothing else. -/
theorem Carries.jump {display : Option String}
    (hi : p.code[a]? = some ⟨b, .jump, some q, display⟩) : Carries p a q Progress.spend := by
  intro m w hpc hm
  subst hpc
  rw [← bind_pure w.spend]
  refine Agrees.spend hm hi fun m' w' _ _ hm' => ?_
  obtain ⟨⟨hstack, hglobals, hlength, hprinted⟩, hsteps⟩ := hm'
  exact ⟨{ m' with pc := q }, rfl, ⟨⟨hstack, hglobals, hlength, hprinted⟩, hsteps⟩, rfl⟩

/-- A conditional jump goes one of two ways. -/
theorem Agrees.branch {display : Option String} (hm : Matches p m w)
    (hi : p.code[m.pc]? = some ⟨b, .jumpIfFalse, some q, display⟩)
    (hf : ∀ m' w', w'.left < w.left → m'.pc = m.pc + 1 → Matches p m' w' →
      Agrees p c (f w') (m'.runFrom p w'.left))
    (hg : ∀ m' w', w'.left < w.left → m'.pc = q → Matches p m' w' →
      Agrees p c (g w') (m'.runFrom p w'.left)) :
    Agrees p c (w.branch f g) (m.runFrom p w.left) := by
  refine Agrees.spend hm hi fun m' w' hlt hpc hm' => ?_
  obtain ⟨⟨hstack, hglobals, hlength, hprinted⟩, hsteps⟩ := hm'
  have hexecute : m'.execute p ⟨b, .jumpIfFalse, some q, display⟩ =
      m'.pop >>= fun x => .ok (if x.1.truthy then x.2 else { x.2 with pc := q }) := rfl
  rw [hexecute]
  unfold State.pop Machine.pop
  rw [hstack]
  -- Both look at the value on top of the same stack.
  cases w'.state.stack with
  | nil => exact ⟨_, rfl, rfl⟩
  | cons v stack =>
    show Agrees p c (if v.truthy then f _ else g _)
      (Machine.runFrom p w'.left (if v.truthy then _ else _))
    cases v.truthy with
    | true => exact hf _ ⟨_, w'.left⟩ hlt hpc ⟨⟨rfl, hglobals, hlength, hprinted⟩, hsteps⟩
    | false => exact hg _ ⟨_, w'.left⟩ hlt rfl ⟨⟨rfl, hglobals, hlength, hprinted⟩, hsteps⟩

/-- Stretches part at a conditional jump. -/
theorem Carries.branch {display : Option String}
    (hi : p.code[a]? = some ⟨b, .jumpIfFalse, some q, display⟩) (hf : Carries p (a + 1) c f)
    (hg : Carries p q c g) : Carries p a c (Progress.branch f g) := by
  intro m w hpc hm
  subst hpc
  exact Agrees.branch hm hi (fun m' w' _ => hf m' w') fun m' w' _ => hg m' w'

end Stretches

/-- Outside the code a run is over. -/
theorem Machine.runFrom_of_none {p : Program} {m : Machine} (h : p.code[m.pc]? = none) :
    ∀ fuel, m.runFrom p fuel = .ok m
  | 0 => by rw [runFrom, h]
  | fuel + 1 => by rw [runFrom, h]

/-- Before a run nothing is stored, printed or on the stack. -/
theorem matches_start (p : Program) : Matches p (Machine.start p) ⟨{}, Machine.stepLimit⟩ := by
  refine ⟨⟨rfl, fun name => ?_, List.length_replicate, rfl⟩, Nat.zero_add _⟩
  unfold Machine.globalNamed? Machine.global? Machine.start
  cases p.names.idxOf? name with
  | none => rfl
  | some id =>
    dsimp only
    rw [Option.bind_some, List.getElem?_replicate]
    split <;> rfl

/-! ## Trees -/

/-- `code` stands in the program from address `base` on. -/
def Placed (p : Program) (base : Nat) (code : List Instruction) : Prop :=
  ∀ k i, code[k]? = some i → p.code[base + k]? = some i

namespace Placed

variable {p : Program} {base : Nat} {code code' : List Instruction} {i : Instruction}

/-- What code begins with stands where the code does. -/
theorem left (h : Placed p base (code ++ code')) : Placed p base code := by
  intro k i hk
  have hlt : k < code.length := (List.getElem?_eq_some_iff.mp hk).1
  exact h k i (by rw [List.getElem?_append_left hlt, hk])

/-- What code ends with stands after the rest. -/
theorem right (h : Placed p base (code ++ code')) : Placed p (base + code.length) code' := by
  intro k i hk
  rw [Nat.add_assoc]
  refine h (code.length + k) i ?_
  rw [List.getElem?_append_right (Nat.le_add_right _ _), Nat.add_sub_cancel_left, hk]

/-- The first instruction stands at the first address. -/
theorem head (h : Placed p base (i :: code)) : p.code[base]? = some i :=
  h 0 i rfl

/-- The other instructions stand after it. -/
theorem tail (h : Placed p base (i :: code)) : Placed p (base + 1) code :=
  right (show Placed p base ([i] ++ code) from h)

end Placed

section Trees

variable {p : Program} {denote : Value → Value} {T : Tables} {base : Nat} {name : String}

/-- The read of a name, outside all functions. -/
theorem carries_read (hscope : T.scope = {}) (hlink : Linked p denote (T.withRead name))
    (hi : p.code[base]? = some (T.readCode base name)) :
    Carries p base (base + 1) (Progress.perform (State.load name)) := by
  obtain ⟨hwith, hcode⟩ := Tables.read_of_outside hscope base name
  rw [hwith] at hlink
  obtain ⟨hmem, hid⟩ := hlink.idxOf_of_withGlobal
  rw [hcode, ← hid] at hi
  refine .perform hi fun m s h hpc => ?_
  rw [← hpc]
  exact performs_loadName h hmem

/-- The store to a name. -/
theorem carries_store (hlink : Linked p denote (T.withGlobal name))
    (hi : p.code[base]? = some (T.storeCode base name)) :
    Carries p base (base + 1) (Progress.perform (State.assign name)) := by
  obtain ⟨hmem, hid⟩ := hlink.idxOf_of_withGlobal
  rw [Tables.storeCode, ← hid] at hi
  refine .perform hi fun m s h hpc => ?_
  rw [← hpc]
  exact performs_storeName h hmem

/-- An operation that the machine lacks. -/
theorem carries_unsupported {opcode : Opcode} {stop : Nat}
    (hopcode : opcode = .makeFunction ∨ opcode = .call)
    (hi : p.code[base]? = some ⟨base, opcode, none, none⟩) :
    Carries p base stop (Progress.perform (State.unsupported opcode)) := by
  refine .perform hi fun m s _ _ => ?_
  rcases hopcode with rfl | rfl <;> exact ⟨_, rfl, rfl⟩

end Trees

namespace Tree

open Progress

variable {p : Program} {denote : Value → Value}

/-- A loop, from its parts: the exit leaves for `stop`, and after the body the loop starts anew. -/
theorem carries_loop {test body : Tree} {start exit stop address address' : Nat}
    {display display' : Option String} {back : Nat} (htest : Carries p start exit (test.evaluate denote))
    (hexit : p.code[exit]? = some ⟨address, .jumpIfFalse, some stop, display⟩)
    (hbody : Carries p (exit + 1) back (body.evaluate denote))
    (hback : p.code[back]? = some ⟨address', .jump, some start, display'⟩) :
    Carries p start stop ((loop test body).evaluate denote) := by
  intro m w hpc hm
  -- By induction on the steps left: each round takes some.
  induction hleft : w.left using Nat.strongRecOn generalizing m w with
  | ind n ih =>
    rw [← hleft, evaluate_loop]
    refine (htest m w hpc hm).bind fun m₁ w₁ h₁ hpc₁ hm₁ => ?_
    have hle : w₁.left ≤ w.left := spends_evaluate denote test w w₁ h₁
    subst hpc₁
    refine Agrees.branch hm₁ hexit (fun m₂ w₂ hlt hpc₂ hm₂ => ?_)
      fun m₂ w₂ _ hpc₂ hm₂ => ⟨m₂, hpc₂, hm₂, rfl⟩
    have hround := (hbody.bind (.jump hback)) m₂ w₂ hpc₂ hm₂
    refine hround.bind fun m₃ w₃ h₃ hpc₃ hm₃ => ?_
    have hle' : w₃.left ≤ w₂.left := ((spends_evaluate denote body).bind .spend) w₂ w₃ h₃
    exact ih w₃.left (by omega) m₃ w₃ hpc₃ hm₃ rfl

mutual

/-- Running the code of a tree outside all functions is evaluating the tree. -/
theorem carries_layout : ∀ (t : Tree) {base : Nat} {T : Tables}, T.scope = {} →
    Linked p denote (t.fill T) → Placed p base (t.layout base T) →
    Carries p base (base + t.size) (t.evaluate denote)
  | block _ items, base, T, hscope, hlink, hplaced => carries_layoutAll items hscope hlink hplaced
  | store _ name value, base, T, hscope, hlink, hplaced => by
    rw [layout] at hplaced
    have hvalue := carries_layout value hscope (hlink.of_extends (.withGlobal _ name)) hplaced.left
    have hstore := hplaced.right.head
    rw [length_layout] at hstore
    exact hvalue.bind (carries_store hlink hstore)
  | read _ name, base, T, hscope, hlink, hplaced => carries_read hscope hlink hplaced.head
  | function _ _ _, base, T, hscope, hlink, hplaced => by
    -- The machine stops at the first instruction, so the code of the body is never run.
    rw [layout] at hplaced
    exact carries_unsupported (.inl rfl) hplaced.head
  | print argument, base, T, hscope, hlink, hplaced => by
    rw [layout] at hplaced
    have hargument := carries_layout argument hscope hlink hplaced.left
    have hprint := hplaced.right.head
    rw [length_layout] at hprint
    exact hargument.bind (.perform hprint fun m s h hpc => hpc ▸ performs_print h)
  | loop test body, base, T, hscope, hlink, hplaced => by
    rw [layout] at hplaced
    have htest := carries_layout test hscope (hlink.of_extends (extends_fill body _)) hplaced.left
    have hrest := hplaced.right
    rw [length_layout] at hrest
    have hbody := carries_layout body ((extends_fill test T).scope hscope) hlink hrest.tail.left
    have hback := hrest.tail.right.head
    rw [length_layout] at hback
    exact carries_loop htest hrest.head hbody hback
  | call callee arguments, base, T, hscope, hlink, hplaced => by
    rw [layout] at hplaced
    have hload := carries_read hscope (hlink.of_extends (extends_fillAll arguments _)) hplaced.head
    have harguments := carries_layoutAll arguments ((Tables.Extends.withRead T callee).scope hscope)
      hlink hplaced.tail.left
    have hcall := hplaced.tail.right.head
    rw [length_layoutAll] at hcall
    exact (hload.bind harguments).bind (carries_unsupported (.inr rfl) hcall)
  | conditional test consequent alternate, base, T, hscope, hlink, hplaced => by
    rw [layout] at hplaced
    have hext := extends_fill test T
    have hext' := extends_fill consequent (test.fill T)
    have hlink' := hlink.of_extends (extends_fill alternate _)
    have htest := carries_layout test hscope (hlink'.of_extends hext') hplaced.left
    have hrest := hplaced.right
    rw [length_layout] at hrest
    have hconsequent := carries_layout consequent (hext.scope hscope) hlink' hrest.tail.left
    have hrest' := hrest.tail.right
    rw [length_layout] at hrest'
    have halternate := carries_layout alternate (hext'.scope (hext.scope hscope)) hlink hrest'.tail
    -- Both ways end at the same address: one by a jump, the other by running into it.
    have hend : base + test.size + 1 + consequent.size + 1 + alternate.size =
        base + (conditional test consequent alternate).size := by
      rw [size]
      omega
    rw [hend] at halternate
    exact htest.bind (.branch hrest.head (hconsequent.bind (.jump hrest'.head)) halternate)
  | binary op left right, base, T, hscope, hlink, hplaced => by
    rw [layout] at hplaced
    have hleft := carries_layout left hscope (hlink.of_extends (extends_fill right _)) hplaced.left
    have hrest := hplaced.right
    rw [length_layout] at hrest
    have hright := carries_layout right ((extends_fill left T).scope hscope) hlink hrest.left
    have hop := hrest.right.head
    rw [length_layout] at hop
    have hend : base + left.size + right.size + 1 = base + (binary op left right).size := by
      rw [size]
      omega
    rw [← hend]
    exact (hleft.bind hright).bind (.perform hop fun m s h hpc => hpc ▸ performs_binary h op)
  | unary op operand, base, T, hscope, hlink, hplaced => by
    rw [layout] at hplaced
    have hoperand := carries_layout operand hscope hlink hplaced.left
    have hop := hplaced.right.head
    rw [length_layout] at hop
    exact hoperand.bind (.perform hop fun m s h hpc => hpc ▸ performs_unary h op)
  | literal v, base, T, hscope, hlink, hplaced =>
    .perform hplaced.head fun m s h hpc => hpc ▸ performs_loadConst h hlink.constant_of_withLiteral

/-- Running the code of a list of trees outside all functions is evaluating the trees. -/
theorem carries_layoutAll : ∀ (ts : List Tree) {base : Nat} {T : Tables}, T.scope = {} →
    Linked p denote (fillAll ts T) → Placed p base (layoutAll ts base T) →
    Carries p base (base + sizeAll ts) (evaluateAll denote ts)
  | [], base, T, hscope, hlink, hplaced => .ok
  | t :: ts, base, T, hscope, hlink, hplaced => by
    rw [layoutAll] at hplaced
    have hhead := carries_layout t hscope (hlink.of_extends (extends_fillAll ts _)) hplaced.left
    have hrest := hplaced.right
    rw [length_layout] at hrest
    have htail := carries_layoutAll ts ((extends_fill t T).scope hscope) hlink hrest
    rw [sizeAll, ← Nat.add_assoc]
    exact hhead.bind htail

end

/-! ## Runs and evaluations -/

variable {t : Tree}

/-- The run of a program is the evaluation of its tree. -/
theorem agrees_run (hp : t.generate = .ok p) :
    Agrees p t.size (t.evaluate t.denotes ⟨{}, Machine.stepLimit⟩) (Machine.run p) := by
  have hplaced : Placed p 0 (t.layout 0 {}) := by
    intro k i hk
    rw [Nat.zero_add, ← Array.getElem?_toList, (layout_of_generate hp).1, hk]
  have hcarries := carries_layout t rfl (linked_of_generate hp) hplaced
  rw [Nat.zero_add] at hcarries
  exact hcarries _ _ rfl (matches_start p)

/-- A program runs to its end if its tree does. -/
theorem exists_run_of_evaluate (hp : t.generate = .ok p) {w : Progress}
    (h : t.evaluate t.denotes ⟨{}, Machine.stepLimit⟩ = .ok w) :
    ∃ m, Machine.run p = .ok m ∧ Matches p m w := by
  have hagrees := agrees_run hp
  rw [h] at hagrees
  obtain ⟨m, hpc, hmatches, hrun⟩ := hagrees
  -- The evaluation stops behind the last instruction, where the machine stops too.
  have hend : p.code[m.pc]? = none := by
    rw [hpc, ← Array.getElem?_toList, (layout_of_generate hp).1]
    exact List.getElem?_eq_none (Nat.le_of_eq (length_layout t 0 {}))
  rw [Machine.runFrom_of_none hend] at hrun
  exact ⟨m, hrun, hmatches⟩

/-- A tree evaluates to its end if its program runs to its own. -/
theorem exists_evaluate_of_run (hp : t.generate = .ok p) {m : Machine}
    (h : Machine.run p = .ok m) :
    ∃ w, t.evaluate t.denotes ⟨{}, Machine.stepLimit⟩ = .ok w ∧ Matches p m w := by
  cases heval : t.evaluate t.denotes ⟨{}, Machine.stepLimit⟩ with
  | ok w =>
    obtain ⟨m', hm', hmatches⟩ := exists_run_of_evaluate hp heval
    rw [h] at hm'
    cases hm'
    exact ⟨w, rfl, hmatches⟩
  | error halt =>
    have hagrees := agrees_run hp
    rw [heval, h] at hagrees
    obtain ⟨e, he, -⟩ := hagrees
    cases he

/-- Generation preserves meaning. Running the program of a tree is evaluating the tree, with as many
steps, where each literal stands for the first literal of the tree that is of its class. If the
evaluation ends well, so does the run, with the same stack, the same values printed, the same globals
by name, and the same number of steps taken. If the evaluation fails, the run fails with the error
that says so, and if the steps run out in the one, they do so in the other. -/
theorem run_agrees_with_evaluate (t : Tree) (p : Program) (h : t.generate = .ok p) :
    match t.evaluate t.denotes ⟨{}, Machine.stepLimit⟩ with
    | .ok w => ∃ m, Machine.run p = .ok m ∧ m.stack = w.state.stack ∧
        m.printed = w.state.printed ∧ (∀ name, m.globalNamed? p name = w.state.globals name) ∧
        m.trace.size + w.left = Machine.stepLimit
    | .error (.unset name) => Machine.run p = .error (.unsetGlobal (p.names.idxOf name))
    | .error (.raised e) => Machine.run p = .error e
    | .error .exhausted => ∃ pc, Machine.run p = .error (.stepLimit pc) := by
  cases heval : t.evaluate t.denotes ⟨{}, Machine.stepLimit⟩ with
  | ok w =>
    obtain ⟨m, hrun, hmatches⟩ := exists_run_of_evaluate h heval
    obtain ⟨hstack, hglobals, -, hprinted⟩ := hmatches.represents
    exact ⟨m, hrun, hstack, hprinted, hglobals, hmatches.steps⟩
  | error halt =>
    -- Each way to halt shows in one error of the machine.
    have hagrees := agrees_run h
    rw [heval] at hagrees
    obtain ⟨e, hrun, hshows⟩ := hagrees
    cases halt with
    | unset name => exact hrun.trans (congrArg _ hshows)
    | raised e' => exact hrun.trans (congrArg _ hshows)
    | exhausted =>
      obtain ⟨pc, rfl⟩ := hshows
      exact ⟨pc, hrun⟩

/-- A loop that prints its variable and then turns it off: the machine ends as the evaluation
does. -/
theorem run_agrees_with_evaluate_loop :
    ∃ t, t = block .program [store .declaration "x" (literal (.boolean true)),
        loop (read .variable "x") (block .sequence [print (read .variable "x"),
          store .assignment "x" (unary .not (read .variable "x"))])] ∧
      ∃ p m, t.generate = .ok p ∧ Machine.run p = .ok m ∧ m.stack = [] ∧
        m.printed = #[.boolean true] ∧ m.globalNamed? p "x" = some (.boolean false) := by
  refine ⟨_, rfl, ?_⟩
  generalize ht : block _ _ = t
  obtain ⟨p, hp⟩ := exists_of_isOk (t := t) (by subst ht; decide +kernel)
  have hagrees := run_agrees_with_evaluate t p hp
  subst ht
  obtain ⟨m, hrun, hstack, hprinted, hglobals, -⟩ := hagrees
  exact ⟨p, m, hp, hrun, hstack, hprinted, hglobals "x"⟩

end Tree

end Backpatch
