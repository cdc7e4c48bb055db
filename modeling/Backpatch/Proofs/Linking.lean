import Backpatch.Proofs.Backpatching
import Backpatch.Proofs.Evaluation

/-!
# Identifiers in the finished tables

Identifiers are given out while the tables still grow, and code looks them up in the tables as they
are at the end. Tables keep what they have (`Tree.extends_fill`), so an identifier that is right for
the tables at any point is right for the program. For literals that leaves the question of which
constant the identifier finds: it is the first literal of the class in the whole tree
(`Tree.linked_of_generate`).
-/

namespace Backpatch

/-- `T'` has all that `T` has, with the same identifiers, and is outside all functions if `T` is. -/
structure Tables.Extends (T T' : Tables) : Prop where
  /-- The names keep their places. -/
  names : T.names.keys <+: T'.names.keys
  /-- The literals keep their places. -/
  literals : T.literals.classes.keys <+: T'.literals.classes.keys
  /-- No function is entered that is not left. -/
  scope : T.scope = {} → T'.scope = {}

namespace Tables.Extends

variable {T T₁ T₂ : Tables}

/-- Tables extend themselves. -/
theorem refl (T : Tables) : T.Extends T :=
  ⟨List.prefix_refl _, List.prefix_refl _, fun h => h⟩

/-- Tables that extend tables extend what these extend. -/
theorem trans (h₁ : T.Extends T₁) (h₂ : T₁.Extends T₂) : T.Extends T₂ :=
  ⟨h₁.names.trans h₂.names, h₁.literals.trans h₂.literals, fun h => h₂.scope (h₁.scope h)⟩

/-- A global extends the tables. -/
theorem withGlobal (T : Tables) (name : String) : T.Extends (T.withGlobal name) :=
  ⟨T.names.keys_prefix_insert name, List.prefix_refl _, fun h => h⟩

/-- A literal extends the tables. -/
theorem withLiteral (T : Tables) (v : Value) : T.Extends (T.withLiteral v) :=
  ⟨List.prefix_refl _, T.literals.classes.keys_prefix_insert v.canonical, fun h => h⟩

/-- A read extends the tables. -/
theorem withRead (T : Tables) (name : String) : T.Extends (T.withRead name) := by
  unfold Tables.withRead
  split
  · exact refl T
  · exact withGlobal T name

end Tables.Extends

namespace Tree

open Tables

mutual

/-- A tree extends the tables. -/
theorem extends_fill : ∀ (t : Tree) (T : Tables), T.Extends (t.fill T)
  | block _ items, T => extends_fillAll items T
  | store _ name value, T => (extends_fill value T).trans (.withGlobal _ name)
  | read _ name, T => .withRead T name
  | function name params body, T => by
    -- The scope changes on the way, but it is left in the end.
    have h := (extends_fill body (T.within name params)).trans (.withGlobal _ name)
    exact ⟨h.names, h.literals, fun _ => rfl⟩
  | print argument, T => extends_fill argument T
  | loop test body, T => (extends_fill test T).trans (extends_fill body _)
  | call callee arguments, T => (Extends.withRead T callee).trans (extends_fillAll arguments _)
  | conditional test consequent alternate, T =>
    ((extends_fill test T).trans (extends_fill consequent _)).trans (extends_fill alternate _)
  | binary _ left right, T => (extends_fill left T).trans (extends_fill right _)
  | unary _ operand, T => extends_fill operand T
  | literal v, T => .withLiteral T v

/-- A list of trees extends the tables. -/
theorem extends_fillAll : ∀ (ts : List Tree) (T : Tables), T.Extends (fillAll ts T)
  | [], T => .refl T
  | t :: ts, T => (extends_fill t T).trans (extends_fillAll ts _)

end

end Tree

/-! ## Literals -/

/-- Literals are added list by list. -/
theorem LiteralPool.insertAll_append (p : LiteralPool) (us vs : List Value) :
    p.insertAll (us ++ vs) = (p.insertAll us).insertAll vs :=
  List.foldl_append

/-- A read adds no literal. -/
theorem Tables.literals_withRead (T : Tables) (name : String) :
    (T.withRead name).literals = T.literals := by
  unfold withRead
  split <;> rfl

namespace Tree

mutual

/-- A tree adds its literals from left to right. -/
theorem literals_fill : ∀ (t : Tree) (T : Tables),
    (t.fill T).literals = T.literals.insertAll t.literals
  | block _ items, T => literals_fillAll items T
  | store _ _ value, T => literals_fill value T
  | read _ name, T => T.literals_withRead name
  | function name params body, T => literals_fill body (T.within name params)
  | print argument, T => literals_fill argument T
  | loop test body, T => by
    rw [fill, literals_fill body, literals_fill test, ← LiteralPool.insertAll_append,
      literals, literals, ← List.filterMap_append]
    rfl
  | call callee arguments, T => by
    rw [fill, literals_fillAll arguments, T.literals_withRead]
    rfl
  | conditional test consequent alternate, T => by
    rw [fill, literals_fill alternate, literals_fill consequent, literals_fill test,
      ← LiteralPool.insertAll_append, ← LiteralPool.insertAll_append, literals, literals, literals,
      ← List.filterMap_append, ← List.filterMap_append, ← List.append_assoc]
    rfl
  | binary _ left right, T => by
    rw [fill, literals_fill right, literals_fill left, ← LiteralPool.insertAll_append,
      literals, literals, ← List.filterMap_append]
    rfl
  | unary _ operand, T => literals_fill operand T
  | literal _, T => rfl

/-- A list of trees adds its literals from left to right. -/
theorem literals_fillAll : ∀ (ts : List Tree) (T : Tables),
    (fillAll ts T).literals = T.literals.insertAll ((preorderAll ts).filterMap literal?)
  | [], T => rfl
  | t :: ts, T => by
    rw [fillAll, literals_fillAll ts, literals_fill t, ← LiteralPool.insertAll_append, literals,
      ← List.filterMap_append, preorderAll]

end

end Tree

/-! ## Linking -/

/-- The identifiers of `T` are right for `p`: a name is found under its own, and under that of a
literal the constant that `denote` says. -/
structure Linked (p : Program) (denote : Value → Value) (T : Tables) : Prop where
  /-- The names of the tables are the first names of the program. -/
  names : T.names.keys <+: p.names
  /-- The literals of the tables are among the constants of the program. -/
  literals : ∀ v, v.canonical ∈ T.literals.classes.keys →
    p.constants[T.literals.place v]? = some (denote v)

namespace Linked

variable {p : Program} {denote : Value → Value} {T T' : Tables}

/-- What is right for later tables is right for earlier ones. -/
theorem of_extends (h : Linked p denote T') (hext : T.Extends T') : Linked p denote T where
  names := hext.names.trans h.names
  literals v hv := by
    have hplace : T.literals.place v = T'.literals.place v :=
      hext.literals.idxOf_eq_of_mem hv
    rw [hplace]
    exact h.literals v (hext.literals.subset hv)

/-- The identifier that a new global gets is the place of its name in the program. -/
theorem idxOf_of_withGlobal {name : String} (h : Linked p denote (T.withGlobal name)) :
    name ∈ p.names ∧ p.names.idxOf name = T.names.place name := by
  have hmem := T.names.mem_keys_insert name
  refine ⟨h.names.subset hmem, ?_⟩
  rw [← h.names.idxOf_eq_of_mem hmem]
  exact T.names.place_insert_self name

/-- The identifier that a literal gets finds what the literal stands for. -/
theorem constant_of_withLiteral {v : Value} (h : Linked p denote (T.withLiteral v)) :
    p.constants[T.literals.place v]? = some (denote v) := by
  have hplace : (T.withLiteral v).literals.place v = T.literals.place v :=
    T.literals.classes.place_insert_self v.canonical
  rw [← hplace]
  exact h.literals v (T.literals.classes.mem_keys_insert v.canonical)

end Linked

/-- The tables that a tree fills are right for its program, where a literal stands for the first one of
its class in the tree. -/
theorem Tree.linked_of_generate {t : Tree} {p : Program} (h : t.generate = .ok p) :
    Linked p t.denotes (t.fill {}) := by
  obtain ⟨-, hnames, hconstants⟩ := layout_of_generate h
  have hpool : (t.fill {}).literals = LiteralPool.insertAll {} t.literals := t.literals_fill {}
  have hinStep : LiteralPool.InStep {} := rfl
  refine ⟨hnames ▸ List.prefix_refl _, fun v hv => ?_⟩
  rw [hpool] at hv
  rw [hconstants, hpool, LiteralPool.constant_place_insertAll]
  -- The class of `v` is there, so some constant is of it, and then some literal of the tree is.
  obtain ⟨u, hu, huv⟩ := List.mem_map.mp ((hinStep.insertAll t.literals) ▸ hv)
  have hsome : (t.literals.find? (LiteralPool.ofClass v.canonical)).isSome := by
    rw [← List.nil_append t.literals, ← hinStep.find?_insertAll t.literals]
    exact List.find?_isSome.mpr ⟨u, hu, by simp [LiteralPool.ofClass, huv]⟩
  obtain ⟨first, hfirst⟩ := Option.isSome_iff_exists.mp hsome
  have hsame : (fun u => Value.same u v) = LiteralPool.ofClass v.canonical :=
    funext fun u => u.same_eq v
  rw [denotes, hsame, hfirst, Option.getD_some]

end Backpatch
