import Backpatch.Proofs.Blocks
import Backpatch.Proofs.Runs

/-!
# Runs stay in well-formed code

The machine stops at the first instruction of a function, and the code of a function is a block, so no
jump from elsewhere goes into the middle of it. The machine therefore never gets behind that first
instruction (`Machine.Steady`), which is where the reads of parameters are (`Tree.enclosed_layout`).
All other instructions find what they refer to.
-/

namespace Backpatch

/-- Whether an error of the machine shows that the code is malformed: an operand is missing or refers
to nothing, or the parameter of a function is read outside all functions. -/
def MachineError.blamesCode : MachineError → Bool
  | missingOperand _ | noConstant _ | noGlobal _ | noOperator _ | unsupportedBuiltin _ => true
  | unsupportedOpcode opcode => opcode == .loadFast
  | _ => false

/-! ## The code of functions -/

/-- The address `k` of `code`, which stands from `base` on, is in the code of a function, and is not
the first one there. -/
def Enclosed (base : Nat) (code : List Instruction) (k : Nat) : Prop :=
  ∃ a make body, IsBlock base code a (make :: body) ∧ make.opcode = .makeFunction ∧ a < k ∧
    k < a + (make :: body).length

/-- What is in the code of a function in a block is so in the code around the block. -/
theorem Enclosed.of_isBlock {base a k : Nat} {code inner : List Instruction}
    (h : Enclosed a inner k) (hblock : IsBlock base code a inner) : Enclosed base code k := by
  obtain ⟨a', make, body, hinner, hmake, hlo, hhi⟩ := h
  exact ⟨a', make, body, hblock.trans hinner, hmake, hlo, hhi⟩

namespace Tree

mutual

/-- Outside all functions a tree reads parameters only in the code of functions that it declares. -/
theorem enclosed_layout : ∀ (t : Tree) {base : Nat} {T : Tables}, T.scope = {} →
    ∀ i ∈ t.layout base T, i.opcode = .loadFast → Enclosed base (t.layout base T) i.address
  | block _ items, base, T, hscope => enclosed_layoutAll items hscope
  | store _ name value, base, T, hscope => by
    intro i hi hfast
    rw [layout, List.mem_append, List.mem_singleton] at hi
    rcases hi with hi | rfl
    · exact (enclosed_layout value hscope i hi hfast).of_isBlock (.of_concat rfl)
    · cases hfast
  | read _ name, base, T, hscope => by
    intro i hi hfast
    rw [layout, (Tables.read_of_outside hscope base name).2, List.mem_singleton] at hi
    subst hi
    cases hfast
  | function name params body, base, T, hscope => by
    intro i hi hfast
    -- The function is the block, and the instruction is not its first one.
    obtain ⟨k, hk⟩ := List.mem_iff_getElem?.mp hi
    have haddress := (region_layout (function name params body) base T).address k i hk
    have hlt := (List.getElem?_eq_some_iff.mp hk).1
    have hpos : k ≠ 0 := by
      rintro rfl
      cases hk
      cases hfast
    exact ⟨base, _, _, .refl, rfl, by omega, by rw [haddress]; exact Nat.add_lt_add_left hlt base⟩
  | print argument, base, T, hscope => by
    intro i hi hfast
    rw [layout, List.mem_append, List.mem_singleton] at hi
    rcases hi with hi | rfl
    · exact (enclosed_layout argument hscope i hi hfast).of_isBlock (.of_concat rfl)
    · cases hfast
  | loop test body, base, T, hscope => by
    intro i hi hfast
    rw [layout, List.mem_append, List.mem_cons, List.mem_append, List.mem_singleton] at hi
    rcases hi with hi | rfl | hi | rfl
    · exact (enclosed_layout test hscope i hi hfast).of_isBlock (isBlock_loop test body base T).1
    · cases hfast
    · have hscope' := (extends_fill test T).scope hscope
      exact (enclosed_layout body hscope' i hi hfast).of_isBlock (isBlock_loop test body base T).2
    · cases hfast
  | call callee arguments, base, T, hscope => by
    intro i hi hfast
    obtain ⟨hwith, hread⟩ := Tables.read_of_outside hscope base callee
    rw [layout, List.mem_cons, List.mem_append, List.mem_singleton] at hi
    rcases hi with rfl | hi | rfl
    · rw [hread] at hfast
      cases hfast
    · have hscope' := (Tables.Extends.withRead T callee).scope hscope
      exact (enclosed_layoutAll arguments hscope' i hi hfast).of_isBlock
        (isBlock_arguments callee arguments base T)
    · cases hfast
  | conditional test consequent alternate, base, T, hscope => by
    intro i hi hfast
    have hscope' := (extends_fill test T).scope hscope
    have hscope'' := (extends_fill consequent (test.fill T)).scope hscope'
    rw [layout, List.mem_append, List.mem_cons, List.mem_append, List.mem_cons] at hi
    rcases hi with hi | rfl | hi | rfl | hi
    · exact (enclosed_layout test hscope i hi hfast).of_isBlock
        (isBlock_conditional test consequent alternate base T).1
    · cases hfast
    · exact (enclosed_layout consequent hscope' i hi hfast).of_isBlock
        (isBlock_conditional test consequent alternate base T).2
    · cases hfast
    · exact (enclosed_layout alternate hscope'' i hi hfast).of_isBlock
        (isBlock_alternate test consequent alternate base T)
  | binary op left right, base, T, hscope => by
    intro i hi hfast
    rw [layout, List.mem_append, List.mem_append, List.mem_singleton] at hi
    rcases hi with hi | hi | rfl
    · exact (enclosed_layout left hscope i hi hfast).of_isBlock (isBlock_left op left right base T)
    · have hscope' := (extends_fill left T).scope hscope
      exact (enclosed_layout right hscope' i hi hfast).of_isBlock
        (isBlock_right op left right base T)
    · cases hfast
  | unary op operand, base, T, hscope => by
    intro i hi hfast
    rw [layout, List.mem_append, List.mem_singleton] at hi
    rcases hi with hi | rfl
    · exact (enclosed_layout operand hscope i hi hfast).of_isBlock (.of_concat op.isJump_opcode)
    · cases op <;> cases hfast
  | literal v, base, T, _ => by
    intro i hi hfast
    rw [List.mem_singleton.mp hi] at hfast
    cases hfast

/-- Outside all functions a list of trees reads parameters only in the code of functions that it
declares. -/
theorem enclosed_layoutAll : ∀ (ts : List Tree) {base : Nat} {T : Tables}, T.scope = {} →
    ∀ i ∈ layoutAll ts base T, i.opcode = .loadFast → Enclosed base (layoutAll ts base T) i.address
  | [], _, _, _ => fun _ hi => absurd hi List.not_mem_nil
  | t :: ts, base, T, hscope => by
    intro i hi hfast
    rcases List.mem_append.mp hi with hi | hi
    · exact (enclosed_layout t hscope i hi hfast).of_isBlock (isBlock_member [] t ts base T)
    · have hscope' := (extends_fill t T).scope hscope
      refine (enclosed_layoutAll ts hscope' i hi hfast).of_isBlock (.of_append_end ?_ ?_)
      · rw [length_layout]
      · exact (region_layout t base T).around (.inl (Nat.le_refl _))

end

/-- The jumps of a program stay in it or go right behind it. -/
theorem region_of_generate {t : Tree} {p : Program} (h : t.generate = .ok p) :
    Region 0 p.code.size 0 p.code.toList := by
  obtain ⟨hcode, -, -⟩ := layout_of_generate h
  have hsize : p.code.size = 0 + t.size := by
    rw [← Array.length_toList, hcode, length_layout, Nat.zero_add]
  rw [hsize, hcode]
  exact region_layout t 0 {}

/-- Instructions stand at their addresses. -/
theorem address_of_region {p : Program} (hregion : Region 0 p.code.size 0 p.code.toList) {k : Nat}
    {i : Instruction} (hi : p.code[k]? = some i) : i.address = k := by
  rw [← Array.getElem?_toList] at hi
  rw [hregion.address k i hi, Nat.zero_add]

/-- A program reads parameters only in the code of functions. -/
theorem enclosed_of_generate {t : Tree} {p : Program} (h : t.generate = .ok p) {k : Nat}
    {i : Instruction} (hi : p.code[k]? = some i) (hfast : i.opcode = .loadFast) :
    Enclosed 0 p.code.toList k := by
  obtain ⟨hcode, -, -⟩ := layout_of_generate h
  have haddress := address_of_region (region_of_generate h) hi
  rw [← Array.getElem?_toList, hcode] at hi
  rw [hcode, ← haddress]
  exact enclosed_layout t rfl i (List.mem_of_getElem? hi) hfast

end Tree

/-! ## The machine outside functions -/

/-- The machine goes on at the next address or where a jump goes, and not from the start of a
function. -/
theorem Instruction.of_mem_next {i : Instruction} {k q : Nat} (h : q ∈ i.next k) :
    i.opcode ≠ .makeFunction ∧ (q = k + 1 ∨ (i.opcode.isJump = true ∧ i.operand = some q)) := by
  unfold next at h
  split at h <;> simp_all [Opcode.isJump]

namespace Machine

/-- The machine is in the code or right behind it, but not inside a function, and it has a place for
each global of the program. -/
structure Steady (p : Program) (m : Machine) : Prop where
  /-- The next address is one of the program or the one after it. -/
  pc_le : m.pc ≤ p.code.size
  /-- The next address is not inside a function. -/
  not_enclosed : ¬ Enclosed 0 p.code.toList m.pc
  /-- Each name has its place. -/
  globals : m.globals.length = p.names.length

variable {p : Program} {i : Instruction} {m m' : Machine}

/-- The machine starts so. -/
theorem steady_start (p : Program) : (start p).Steady p where
  pc_le := Nat.zero_le _
  not_enclosed := by
    rintro ⟨a, make, body, -, -, hlo, -⟩
    exact Nat.not_lt_zero a hlo
  globals := List.length_replicate

/-- The machine stays so while the jumps of the program stay in it. -/
theorem Steady.of_moves (hregion : Region 0 p.code.size 0 p.code.toList) (h : m.Steady p)
    (hi : p.code[m.pc]? = some i) (hmoves : Moves i m m') : m'.Steady p := by
  obtain ⟨hmake, hnext⟩ := Instruction.of_mem_next hmoves.pc
  have hlt : m.pc < p.code.size := (Array.getElem?_eq_some_iff.mp hi).1
  rw [← Array.getElem?_toList] at hi
  refine ⟨?_, ?_, hmoves.globals.trans h.globals⟩
  · rcases hnext with hnext | ⟨hjump, htarget⟩
    · omega
    · obtain ⟨q, hq, -, hle, -⟩ := hregion.jumps i (List.mem_of_getElem? hi) hjump
      rw [htarget] at hq
      cases hq
      exact hle
  · rintro ⟨a, make, body, hblock, hmake', hlo, hhi⟩
    -- The machine has not been at the start of the function, where it would have stopped.
    have hstart : m.pc ≠ a := by
      rintro rfl
      rw [hblock.head] at hi
      cases hi
      exact hmake hmake'
    have houtside : 0 + m.pc < a ∨ a + (make :: body).length ≤ 0 + m.pc := by
      by_contra hin
      exact h.not_enclosed ⟨a, make, body, hblock, hmake', by omega, by omega⟩
    rcases hnext with hnext | ⟨hjump, htarget⟩
    · omega
    · obtain ⟨q, hq, hside⟩ := hblock.around hi houtside hjump
      rw [htarget] at hq
      cases hq
      omega

end Machine

namespace Executes

variable {p : Program} {ks : List Nat} {m : Machine}

/-- Executions stay outside functions. -/
theorem steady (hregion : Region 0 p.code.size 0 p.code.toList) (h : Executes p ks m) :
    m.Steady p := by
  induction h with
  | start => exact Machine.steady_start p
  | step _ hi hstep ih => exact ih.of_moves hregion hi (Machine.moves_of_step hstep)

/-- The trace holds the indices of the instructions executed. -/
theorem trace_eq (hregion : Region 0 p.code.size 0 p.code.toList) (h : Executes p ks m) :
    m.trace.toList = ks := by
  induction h with
  | start => rfl
  | step _ hi hstep ih =>
    rw [(Machine.moves_of_step hstep).trace, Array.toList_push, ih,
      Tree.address_of_region hregion hi]

end Executes

namespace Tree

/-- The program of a tree runs well if its direct layout does. -/
theorem exists_run_of_isOk {t : Tree} {p : Program} (hp : t.generate = .ok p)
    (h : (Machine.run ⟨⟨t.layout 0 {}⟩, (t.fill {}).names.keys,
      (t.fill {}).literals.constants⟩).isOk = true) : ∃ m, Machine.run p = .ok m := by
  obtain ⟨hcode, hnames, hconstants⟩ := layout_of_generate hp
  obtain ⟨⟨code⟩, names, constants⟩ := p
  subst hcode hnames hconstants
  cases hrun : Machine.run _ with
  | ok m => exact ⟨m, rfl⟩
  | error e =>
    rw [hrun] at h
    cases h

/-- Runs stay in well-formed code. A run of the program of a tree does not fail because of its code:
no operand is missing, every operand is found where it is looked up, and no parameter is read. However
long the machine goes on, it executes no read of a parameter, each instruction that it executes stands
at the index of its address, and the trace is the list of these indices. A run that ends well ends
right behind the code. -/
theorem run_never_blames_code (t : Tree) (p : Program) (hp : t.generate = .ok p) :
    (∀ e, Machine.run p = .error e → e.blamesCode = false) ∧
    (∀ ks m i, Executes p ks m → p.code[m.pc]? = some i →
      i.opcode ≠ .loadFast ∧ i.address = m.pc) ∧
    (∀ ks m, Executes p ks m → m.trace.toList = ks) ∧
    ∀ m, Machine.run p = .ok m → (∃ ks, Executes p ks m) ∧ m.pc = p.code.size := by
  have hregion := region_of_generate hp
  -- A parameter is read in the body of a function only, and no run gets there.
  have hfast (ks m i) (hexec : Executes p ks m) (hi : p.code[m.pc]? = some i) :
      i.opcode ≠ .loadFast := fun hop =>
    (hexec.steady hregion).not_enclosed (enclosed_of_generate hp hi hop)
  refine ⟨?_, ?_, ?_, ?_⟩
  · intro e hrun
    obtain ⟨ks, m, i, hexec, hi, hstep | rfl⟩ := Executes.of_runFrom_error .start hrun
    · have hfits := fits_of_generate hp i (Array.mem_of_getElem? hi)
      cases Machine.fails_of_step hfits (hexec.steady hregion).globals hstep with
      | unsupported _ => exact beq_false_of_ne (hfast ks m i hexec hi)
      | _ => rfl
    · rfl
  · intro ks m i hexec hi
    exact ⟨hfast ks m i hexec hi, address_of_region hregion hi⟩
  · intro ks m hexec
    exact hexec.trace_eq hregion
  · intro m hrun
    obtain ⟨⟨ks, hexec⟩, hnone⟩ := Executes.of_runFrom_ok .start hrun
    -- The counter never goes past the end of the code, and there is no instruction at it.
    have hle := (hexec.steady hregion).pc_le
    have hge := Array.getElem?_eq_none_iff.mp hnone
    exact ⟨⟨ks, hexec⟩, Nat.le_antisymm hle hge⟩

/-- A function in the branch not taken: its code holds a read of a parameter, which no execution
reaches, and the run ends right behind it. -/
theorem run_never_blames_code_untaken :
    ∃ p, (conditional (literal (.boolean true)) (print (literal (.boolean true)))
        (function "f" ["x"] (print (read .variable "x")))).generate = .ok p ∧
      p.code[6]? = some ⟨6, .loadFast, some 0, some "x"⟩ ∧
      (∀ ks m, Executes p ks m → m.pc ≠ 6) ∧ ∃ m, Machine.run p = .ok m ∧ m.pc = 9 := by
  refine (exists_of_isOk (by decide +kernel)).imp fun p hp => ⟨hp, ?_⟩
  obtain ⟨hcode, -, -⟩ := layout_of_generate hp
  have hsize : p.code.size = 9 := congrArg List.length hcode
  have hfast : p.code[6]? = some ⟨6, .loadFast, some 0, some "x"⟩ := by
    rw [← Array.getElem?_toList, hcode]
    rfl
  obtain ⟨m, hrun⟩ := exists_run_of_isOk hp (by decide +kernel)
  obtain ⟨-, hexecuted, -, hend⟩ := run_never_blames_code _ p hp
  refine ⟨hfast, fun ks m hexec hpc => ?_, m, hrun, hsize ▸ (hend m hrun).2⟩
  exact (hexecuted ks m _ hexec (hpc ▸ hfast)).1 rfl

end Tree

end Backpatch
