import Backpatch.Proofs.References
import Backpatch.Proofs.Sessions

/-!
# Tables under any sequence of requests

A table answers each request with an identifier, or refuses it once it is full, and what it refuses
changes nothing. So after any requests it is the table that would have no bound, cut off at the number
of identifiers (`SymbolTable.afterEach_intern`, `LiteralPool.afterEach_add`), and its answer is the place
that the key has in the table without a bound, if that is an identifier. The pool decides whether a
literal joins the constants by comparing an identifier with the length of a second list. It decides
right because the lists are in step, with or without a bound.
-/

namespace Backpatch

/-! ## Runs of steps -/

namespace Step

variable {σ α β : Type}

/-- The result of a step or its error. -/
def outcome (x : Step σ α) (s : σ) : Except GenerationError α :=
  match x s with
  | .ok a _ => .ok a
  | .error e _ => .error e

/-- The outcome of a step that succeeds is its result. -/
theorem outcome_of_ok {x : Step σ α} {s s' : σ} {a : α} (h : x s = .ok a s') :
    x.outcome s = .ok a := by
  rw [outcome, h]

/-- The outcome of a step that fails is its error. -/
theorem outcome_of_error {x : Step σ α} {s s' : σ} {e : GenerationError} (h : x s = .error e s') :
    x.outcome s = .error e := by
  rw [outcome, h]

/-- The state after a step for each member of a list, whether they fail or not. -/
def afterEach (step : α → Step σ β) (s : σ) (as : List α) : σ :=
  as.foldl (fun s a => (step a).after s) s

/-- The outcomes of a step for each member of a list, each from the state that those before it leave. -/
def outcomes (step : α → Step σ β) : σ → List α → List (Except GenerationError β)
  | _, [] => []
  | s, a :: as => (step a).outcome s :: outcomes step ((step a).after s) as

/-- An outcome is that of the step from the state after the members before. -/
theorem getElem?_outcomes (step : α → Step σ β) (s : σ) (as : List α) (i : Nat) :
    (outcomes step s as)[i]? =
      as[i]?.map fun a => (step a).outcome (afterEach step s (as.take i)) := by
  induction as generalizing s i with
  | nil => rfl
  | cons a as ih =>
    cases i with
    | zero => rfl
    | succ i => exact ih ((step a).after s) i

end Step

/-! ## Symbol tables -/

namespace SymbolTable

variable {κ : Type}

/-- The answer to a key that has the given place in a table without a bound. -/
def grant (place : Nat) : Except GenerationError Nat :=
  if place < addressLimit then .ok place else .error (.tableFull addressLimit)

/-- A place is granted exactly if it is an identifier. -/
theorem grant_eq_ok_iff {place id : Nat} :
    grant place = .ok id ↔ id = place ∧ place < addressLimit := by
  unfold grant
  split <;> simp [*, eq_comm]

/-- A place is refused exactly if it lies behind the identifiers, and the table is full then. -/
theorem grant_eq_error_iff {place : Nat} {e : GenerationError} :
    grant place = .error e ↔ e = .tableFull addressLimit ∧ addressLimit ≤ place := by
  unfold grant
  split <;> simp_all [eq_comm]

/-- The table cut off at the number of identifiers. -/
def bounded (t : SymbolTable κ) : SymbolTable κ :=
  ⟨t.keys.take addressLimit⟩

/-- The bound cuts keys off at the end. -/
theorem exists_keys_eq_bounded_append (t : SymbolTable κ) :
    ∃ rest, t.keys = t.bounded.keys ++ rest :=
  ⟨t.keys.drop addressLimit, (List.take_append_drop addressLimit t.keys).symm⟩

variable [DecidableEq κ]

/-- A key of a bounded table has the place that it has without the bound, which is an identifier. -/
theorem place_of_mem_bounded {t : SymbolTable κ} {key : κ} (h : key ∈ t.bounded.keys) :
    t.bounded.place key = t.place key ∧ t.place key < addressLimit := by
  obtain ⟨rest, hrest⟩ := t.exists_keys_eq_bounded_append
  have hplace : t.place key = t.bounded.place key := by
    unfold place
    rw [hrest, List.idxOf_append_of_mem h]
  have hlt : t.bounded.place key < t.bounded.keys.length := List.idxOf_lt_length_of_mem h
  have hle : t.bounded.keys.length ≤ addressLimit := List.length_take_le _ _
  exact ⟨hplace.symm, by omega⟩

/-- A key that a full table does not have has no identifier for a place. -/
theorem le_place_of_full {t : SymbolTable κ} {key : κ} (h : key ∉ t.bounded.keys)
    (hfull : addressLimit ≤ t.keys.length) : addressLimit ≤ t.place key := by
  obtain ⟨rest, hrest⟩ := t.exists_keys_eq_bounded_append
  have hlength : t.bounded.keys.length = addressLimit := List.length_take_of_le hfull
  unfold place
  rw [hrest, List.idxOf_append_of_notMem h, hlength]
  exact Nat.le_add_right _ _

/-- Interning in a bounded table answers by the place without the bound, and leaves the table with the
key, bounded. -/
theorem intern_bounded (t : SymbolTable κ) (key : κ) :
    (intern key).outcome t.bounded = grant (t.place key) ∧
      (intern key).after t.bounded = (t.insert key).bounded := by
  by_cases hmem : key ∈ t.bounded.keys
  · obtain ⟨hplace, hlt⟩ := place_of_mem_bounded hmem
    have hintern := intern_of_mem hmem
    have hinsert : t.insert key = t := if_pos (List.mem_of_mem_take hmem)
    constructor
    · rw [Step.outcome_of_ok hintern, hplace, grant, if_pos hlt]
    · rw [Step.after_of_ok hintern, hinsert]
  · have hnone : t.bounded.id? key = none := List.idxOf?_eq_none_iff.mpr hmem
    by_cases hlt : t.keys.length < addressLimit
    · -- The bound cuts nothing off yet, so the key is new without it too.
      have hkeys : t.bounded.keys = t.keys := List.take_of_length_le (Nat.le_of_lt hlt)
      have hnew : key ∉ t.keys := hkeys ▸ hmem
      have hintern := intern_of_id?_eq_none hnone (hkeys ▸ hlt)
      have hplace : t.place key = t.keys.length := List.idxOf_of_notMem hnew
      have hinsert : (t.insert key).bounded = ⟨t.keys ++ [key]⟩ := by
        have hle : (t.keys ++ [key]).length ≤ addressLimit := by
          rw [List.length_append, List.length_singleton]
          omega
        unfold insert bounded
        rw [if_neg hnew, List.take_of_length_le hle]
      constructor
      · rw [Step.outcome_of_ok hintern, hkeys, hplace, grant, if_pos hlt]
      · rw [Step.after_of_ok hintern, hinsert, hkeys]
    · -- The table is full, and if the key was seen before, it was refused then too.
      have hfull : addressLimit ≤ t.keys.length := Nat.not_lt.mp hlt
      have hlength : t.bounded.keys.length = addressLimit := List.length_take_of_le hfull
      have hintern := intern_of_full hnone (Nat.le_of_eq hlength.symm)
      have hplace := Nat.not_lt.mpr (le_place_of_full hmem hfull)
      have hinsert : (t.insert key).bounded = t.bounded := by
        unfold insert bounded
        split
        · rfl
        · rw [List.take_append_of_le_length hfull]
      constructor
      · rw [Step.outcome_of_error hintern, hlength, grant, if_neg hplace]
      · rw [Step.after_of_error hintern, hinsert]

/-- After any keys, a bounded table is the one without a bound, bounded. -/
theorem afterEach_intern (t : SymbolTable κ) (ks : List κ) :
    Step.afterEach intern t.bounded ks = (t.insertAll ks).bounded := by
  induction ks generalizing t with
  | nil => rfl
  | cons k ks ih =>
    have hstep := (intern_bounded t k).2
    rw [Step.afterEach, List.foldl_cons, hstep]
    exact ih (t.insert k)

/-- The keys of a table stay where they are when others join. -/
theorem keys_prefix_insertAll (t : SymbolTable κ) (ks : List κ) :
    t.keys <+: (t.insertAll ks).keys := by
  induction ks generalizing t with
  | nil => exact List.prefix_refl _
  | cons k ks ih => exact (t.keys_prefix_insert k).trans (ih (t.insert k))

/-- A key keeps its place when others join, from the time when it joins itself. -/
theorem place_insertAll (t : SymbolTable κ) (before after : List κ) (key : κ) :
    (t.insertAll (before ++ key :: after)).place key = (t.insertAll before).place key := by
  have hsplit : t.insertAll (before ++ key :: after) =
      ((t.insertAll before).insert key).insertAll after := by
    rw [insertAll_append]
    rfl
  obtain ⟨rest, hrest⟩ := keys_prefix_insertAll ((t.insertAll before).insert key) after
  calc (t.insertAll (before ++ key :: after)).place key
    _ = (((t.insertAll before).insert key).keys ++ rest).idxOf key := by rw [hsplit, place, hrest]
    _ = ((t.insertAll before).insert key).place key :=
      List.idxOf_append_of_mem (mem_keys_insert _ key)
    _ = (t.insertAll before).place key := place_insert_self _ key

/-- A key of a list has the place that it has among those up to it. -/
theorem place_of_getElem? (t : SymbolTable κ) {ks : List κ} {i : Nat} {key : κ}
    (h : ks[i]? = some key) : (t.insertAll ks).place key = (t.insertAll (ks.take i)).place key := by
  have hsplit : ks = ks.take i ++ key :: ks.drop (i + 1) := by
    obtain ⟨hlt, rfl⟩ := List.getElem?_eq_some_iff.mp h
    rw [← List.drop_eq_getElem_cons hlt, List.take_append_drop]
  have hplace := place_insertAll t (ks.take i) (ks.drop (i + 1)) key
  rwa [← hsplit] at hplace

end SymbolTable

/-! ## Literal pools -/

namespace LiteralPool

/-- The pool cut off at the number of identifiers. -/
def bounded (p : LiteralPool) : LiteralPool where
  classes := p.classes.bounded
  constants := p.constants.take addressLimit

/-- A literal whose class gets an identifier gets it too, and joins the constants if they are as many. -/
theorem add_of_intern_eq_ok {p : LiteralPool} {v : Value} {id : Nat} {classes : SymbolTable Value}
    (h : SymbolTable.intern v.canonical p.classes = .ok id classes) :
    add v p = .ok id
      ⟨classes, if id = p.constants.length then p.constants ++ [v] else p.constants⟩ := by
  simp only [add, internClass, Step.within, Step.bind_apply, h, Step.modify_apply, Step.pure_apply]
  split <;> rfl

/-- A literal whose class is refused is refused too, and the constants stay. -/
theorem add_of_intern_eq_error {p : LiteralPool} {v : Value} {e : GenerationError}
    {classes : SymbolTable Value} (h : SymbolTable.intern v.canonical p.classes = .error e classes) :
    add v p = .error e ⟨classes, p.constants⟩ := by
  simp only [add, internClass, Step.within, Step.bind_apply, h]

/-- With the bound as without it, a literal joins the constants if its identifier is their number. -/
theorem constants_bounded_insert (p : LiteralPool) (v : Value) :
    (p.insert v).bounded.constants =
      if p.place v < addressLimit ∧ p.place v = p.bounded.constants.length then
        p.bounded.constants ++ [v]
      else p.bounded.constants := by
  unfold bounded insert
  dsimp only
  by_cases hlt : p.constants.length < addressLimit
  · -- The bound cuts nothing off, also after one more constant.
    have htake : p.constants.take addressLimit = p.constants :=
      List.take_of_length_le (Nat.le_of_lt hlt)
    have htake' : (p.constants ++ [v]).take addressLimit = p.constants ++ [v] := by
      refine List.take_of_length_le ?_
      rw [List.length_append, List.length_singleton]
      omega
    rw [htake]
    by_cases hplace : p.place v = p.constants.length
    · rw [if_pos hplace, htake', if_pos ⟨by omega, hplace⟩]
    · rw [if_neg hplace, htake, if_neg fun hboth => hplace hboth.2]
  · have hfull : addressLimit ≤ p.constants.length := Nat.not_lt.mp hlt
    have hlength := List.length_take_of_le hfull
    have hno : ¬(p.place v < addressLimit ∧
        p.place v = (p.constants.take addressLimit).length) := by omega
    rw [if_neg hno]
    split
    · exact List.take_append_of_le_length hfull
    · rfl

/-- Adding to a bounded pool answers by the place without the bound, and leaves the pool with the
literal, bounded. -/
theorem add_bounded (p : LiteralPool) (v : Value) :
    (add v).outcome p.bounded = SymbolTable.grant (p.place v) ∧
      (add v).after p.bounded = (p.insert v).bounded := by
  obtain ⟨houtcome, hafter⟩ := SymbolTable.intern_bounded p.classes v.canonical
  have hconstants := constants_bounded_insert p v
  have hinsert : (p.insert v).bounded =
      ⟨(p.classes.insert v.canonical).bounded, (p.insert v).bounded.constants⟩ := rfl
  -- A literal is added exactly if its class gets an identifier.
  cases hintern : SymbolTable.intern v.canonical p.classes.bounded with
  | ok id classes =>
    have hadd := add_of_intern_eq_ok (p := p.bounded) hintern
    rw [Step.outcome_of_ok hintern] at houtcome
    rw [Step.after_of_ok hintern] at hafter
    obtain ⟨rfl, hlt⟩ := SymbolTable.grant_eq_ok_iff.mp houtcome.symm
    refine ⟨(Step.outcome_of_ok hadd).trans houtcome, ?_⟩
    rw [Step.after_of_ok hadd, hinsert, hconstants, hafter]
    simp only [place, hlt, true_and]
  | error e classes =>
    have hadd := add_of_intern_eq_error (p := p.bounded) hintern
    rw [Step.outcome_of_error hintern] at houtcome
    rw [Step.after_of_error hintern] at hafter
    obtain ⟨rfl, hle⟩ := SymbolTable.grant_eq_error_iff.mp houtcome.symm
    refine ⟨(Step.outcome_of_error hadd).trans houtcome, ?_⟩
    rw [Step.after_of_error hadd, hinsert, hconstants, hafter,
      if_neg fun hboth => Nat.not_lt.mpr hle hboth.1]

/-- After any literals, a bounded pool is the one without a bound, bounded. -/
theorem afterEach_add (p : LiteralPool) (vs : List Value) :
    Step.afterEach add p.bounded vs = (p.insertAll vs).bounded := by
  induction vs generalizing p with
  | nil => rfl
  | cons v vs ih =>
    have hstep := (add_bounded p v).2
    rw [Step.afterEach, List.foldl_cons, hstep]
    exact ih (p.insert v)

/-! ### A pool from the start -/

/-- The pool after literals are added one after the other; one that is refused is left in. -/
def ofAdds (vs : List Value) : LiteralPool :=
  Step.afterEach add {} vs

/-- What adding literals one after the other answers to each of them. -/
def answers (vs : List Value) : List (Except GenerationError Nat) :=
  Step.outcomes add {} vs

/-- The pool is the one without a bound, cut off where the identifiers end. -/
theorem ofAdds_eq_bounded (vs : List Value) : ofAdds vs = (insertAll {} vs).bounded :=
  afterEach_add {} vs

/-- The place of the class of a literal tells it from the other classes that were added. -/
theorem place_eq_iff {vs : List Value} {v : Value} (hv : v ∈ vs) (w : Value) :
    (insertAll {} vs).place v = (insertAll {} vs).place w ↔ v.same w = true := by
  have hkeys : (insertAll {} vs).classes.keys = (vs.map Value.canonical).eraseDups := by
    rw [classes_insertAll]
    exact SymbolTable.keys_insertAll _
  have hmem : v.canonical ∈ (insertAll {} vs).classes.keys := by
    rw [hkeys, List.mem_eraseDups]
    exact List.mem_map_of_mem hv
  rw [Value.same_eq, beq_iff_eq]
  exact List.idxOf_inj hmem

/-- A literal of a list has the place that it has among those up to it. -/
theorem place_of_getElem? {vs : List Value} {i : Nat} {v : Value} (h : vs[i]? = some v) :
    (insertAll {} vs).place v = (insertAll {} (vs.take i)).place v := by
  have hclass : (vs.map Value.canonical)[i]? = some v.canonical := by rw [List.getElem?_map, h]; rfl
  unfold place
  rw [classes_insertAll, classes_insertAll, List.map_take]
  exact SymbolTable.place_of_getElem? _ hclass

/-- The answer to each literal is its place in the pool without a bound, if that is an identifier. -/
theorem getElem?_answers {vs : List Value} {i : Nat} {v : Value} (h : vs[i]? = some v) :
    (answers vs)[i]? = some (SymbolTable.grant ((insertAll {} vs).place v)) := by
  have hstep := (add_bounded (insertAll {} (vs.take i)) v).1
  rw [← ofAdds_eq_bounded, ← place_of_getElem? h] at hstep
  rw [answers, Step.getElem?_outcomes, h]
  exact congrArg some hstep

/-- Two literals that get identifiers get the same one exactly if they are the same to a table. -/
theorem answer_eq_iff {vs : List Value} {i j : Nat} {v w : Value} {a b : Nat} (hv : vs[i]? = some v)
    (hw : vs[j]? = some w) (ha : (answers vs)[i]? = some (.ok a))
    (hb : (answers vs)[j]? = some (.ok b)) : a = b ↔ v.same w = true := by
  rw [getElem?_answers hv, Option.some.injEq, SymbolTable.grant_eq_ok_iff] at ha
  rw [getElem?_answers hw, Option.some.injEq, SymbolTable.grant_eq_ok_iff] at hb
  rw [ha.1, hb.1]
  exact place_eq_iff (List.mem_of_getElem? hv) w

/-- The lists of a pool without a bound are in step, and its classes differ from each other. -/
theorem inStep_insertAll (vs : List Value) :
    (insertAll {} vs).InStep ∧ (insertAll {} vs).classes.keys.Nodup := by
  have hempty : InStep {} := rfl
  refine ⟨hempty.insertAll vs, ?_⟩
  rw [classes_insertAll]
  exact SymbolTable.nodup_insertAll List.nodup_nil _

/-- The lists of a pool are in step, and its classes differ from each other. -/
theorem inStep_ofAdds (vs : List Value) :
    (ofAdds vs).InStep ∧ (ofAdds vs).classes.keys.Nodup := by
  obtain ⟨hinStep, hnodup⟩ := inStep_insertAll vs
  rw [ofAdds_eq_bounded]
  constructor
  · unfold InStep at hinStep ⊢
    unfold bounded SymbolTable.bounded
    rw [hinStep, List.map_take]
  · exact hnodup.sublist (List.take_sublist _ _)

/-- The place of a literal of a new class is the number of classes before it. -/
theorem place_of_new {vs : List Value} {v : Value} (h : ∀ u ∈ vs, u.same v = false) :
    (insertAll {} vs).place v = (vs.eraseDupsBy Value.same).length := by
  rw [← constants_insertAll, (inStep_insertAll vs).1.place_eq_length_iff, classes_insertAll,
    SymbolTable.keys_insertAll, List.mem_eraseDups, List.mem_map]
  rintro ⟨u, hu, huv⟩
  have hsame := h u hu
  rw [Value.same_eq, huv, beq_self_eq_true] at hsame
  cases hsame

/-- From the time when a literal is given an identifier, the constant there is the first literal of its
class. -/
theorem constant_of_answer {vs : List Value} {i : Nat} {v : Value} {id : Nat}
    (hv : vs[i]? = some v) (hid : (answers vs)[i]? = some (.ok id)) {k : Nat} (hk : i < k) :
    ∃ c, vs.find? (fun u => u.same v) = some c ∧
      (ofAdds (vs.take k)).constants[id]? = some c := by
  rw [getElem?_answers hv, Option.some.injEq, SymbolTable.grant_eq_ok_iff] at hid
  obtain ⟨rfl, hlt⟩ := hid
  have hv' : (vs.take k)[i]? = some v := by rw [List.getElem?_take_of_lt hk, hv]
  have hplace : (insertAll {} vs).place v = (insertAll {} (vs.take k)).place v := by
    rw [place_of_getElem? hv, place_of_getElem? hv', List.take_take, Nat.min_eq_left (Nat.le_of_lt hk)]
  have hsame : (fun u => Value.same u v) = ofClass v.canonical := funext fun u => u.same_eq v
  -- The class of the literal has a member by now, so later literals do not change which is the first.
  have hfound : ((vs.take k).find? (ofClass v.canonical)).isSome :=
    List.find?_isSome.mpr ⟨v, List.mem_of_getElem? hv', by simp [ofClass]⟩
  obtain ⟨c, hc⟩ := Option.isSome_iff_exists.mp hfound
  have hfind : vs.find? (ofClass v.canonical) = some c := by
    rw [← List.take_append_drop k vs, List.find?_append, hc, Option.some_or]
  refine ⟨c, hsame ▸ hfind, ?_⟩
  rw [ofAdds_eq_bounded, bounded, List.getElem?_take_of_lt hlt, hplace, constant_place_insertAll, hc]

/-- The two lists of a pool stay in step. After any literals, where one that is refused is left in:

- there are as many constants as classes, each class is that of the constant at its place, and the
  classes differ from each other;
- two literals that get identifiers get the same one exactly if they are the same to a table: both
  Booleans and equal, or both numbers and equal or both NaN;
- a literal of a class that none before it has gets the number of classes before it, while that is an
  identifier, and a literal of a class that was there before gets the answer that was given then;
- the constant of a literal that gets an identifier is the first literal of its class as it was added,
  right after that and for ever. -/
theorem adds_keep_pool_in_step (vs : List Value) :
    ((ofAdds vs).constants.length = (ofAdds vs).classes.keys.length ∧
      (∀ i : Nat, (ofAdds vs).classes.keys[i]? = (ofAdds vs).constants[i]?.map Value.canonical) ∧
      (ofAdds vs).classes.keys.Nodup) ∧
    (∀ (i j : Nat) (v w : Value) (a b : Nat), vs[i]? = some v → vs[j]? = some w →
      (answers vs)[i]? = some (.ok a) → (answers vs)[j]? = some (.ok b) →
      (a = b ↔ v.same w = true)) ∧
    (∀ (i : Nat) (v : Value), vs[i]? = some v → (∀ u ∈ vs.take i, u.same v = false) →
      (answers vs)[i]? = some (SymbolTable.grant ((vs.take i).eraseDupsBy Value.same).length)) ∧
    (∀ (i j : Nat) (v w : Value), vs[i]? = some v → vs[j]? = some w → v.same w = true →
      (answers vs)[i]? = (answers vs)[j]?) ∧
    (∀ (i k : Nat) (v : Value) (a : Nat), vs[i]? = some v → (answers vs)[i]? = some (.ok a) →
      i < k → ∃ c, vs.find? (fun u => u.same v) = some c ∧
        (ofAdds (vs.take k)).constants[a]? = some c) := by
  -- The classes are those of the constants, in the same order.
  obtain ⟨hinStep, hnodup⟩ := inStep_ofAdds vs
  refine ⟨⟨?_, fun i => ?_, hnodup⟩, ?_, ?_, ?_, ?_⟩
  · rw [hinStep, List.length_map]
  · rw [hinStep, List.getElem?_map]
  · intro i j v w a b hv hw ha hb
    exact answer_eq_iff hv hw ha hb
  · intro i v hv hnew
    rw [getElem?_answers hv, place_of_getElem? hv, place_of_new hnew]
  · intro i j v w hv hw hsame
    rw [getElem?_answers hv, getElem?_answers hw, (place_eq_iff (List.mem_of_getElem? hv) w).mpr hsame]
  · intro i k v a hv ha hk
    exact constant_of_answer hv ha hk

/-- A negative zero before a positive one and two different NaNs: each pair has one identifier, `false` has
its own, and the constants are the zero and the NaN that came first, with their bits. -/
theorem adds_keep_pool_in_step_zeros :
    ∃ vs, vs = [.number ⟨true, 0, 0⟩, .boolean false, .number ⟨true, 2047, 1⟩,
        .number ⟨false, 0, 0⟩, .number ⟨false, 2047, 2⟩] ∧
      answers vs = [.ok 0, .ok 1, .ok 2, .ok 0, .ok 2] ∧
      (Value.number ⟨true, 2047, 1⟩).same (.number ⟨false, 2047, 2⟩) = true ∧
      (ofAdds vs).constants.length = (ofAdds vs).classes.keys.length ∧
      (ofAdds vs).constants[0]? = some (.number ⟨true, 0, 0⟩) ∧
      (ofAdds vs).constants[2]? = some (.number ⟨true, 2047, 1⟩) := by
  refine ⟨_, rfl, rfl, ?_⟩
  generalize hvs : (List.cons _ _ : List Value) = vs
  obtain ⟨⟨hlength, -, -⟩, hids, -, -, hconstants⟩ := adds_keep_pool_in_step vs
  subst hvs
  obtain ⟨zero, hzero, hzero'⟩ := hconstants 3 5 _ _ rfl rfl (by decide)
  obtain ⟨nan, hnan, hnan'⟩ := hconstants 4 5 _ _ rfl rfl (by decide)
  refine ⟨(hids 2 4 _ _ _ _ rfl rfl rfl rfl).mp rfl, hlength, ?_, ?_⟩
  · exact hzero'.trans (hzero.symm.trans (by decide))
  · exact hnan'.trans (hnan.symm.trans (by decide))

end LiteralPool

end Backpatch
