import Backpatch.LiteralPool
import Mathlib.Data.List.Basic
import Mathlib.Data.List.Induction

/-!
# What tables give and keep

Interning a key and adding a literal fail only when the identifiers run out. `place` and `insert` say
what they give and what they leave otherwise, as plain functions of the table. A table grows at its
end, so that an identifier stays right once it is given (`SymbolTable.keys_prefix_insert`), and the
keys of one that starts empty are those interned, each where it comes first
(`SymbolTable.keys_insertAll`). In a pool that starts empty the two lists keep in step, and the
constant of a literal is the first literal added that is of its class
(`LiteralPool.constant_place_insertAll`).
-/

namespace Backpatch

/-- A key that is there has an index. -/
theorem idxOf?_of_mem {κ : Type} [BEq κ] [LawfulBEq κ] {keys : List κ} {key : κ} (h : key ∈ keys) :
    keys.idxOf? key = some (keys.idxOf key) := by
  rw [List.idxOf_eq_getD_idxOf?]
  cases hid : keys.idxOf? key with
  | some id => rfl
  | none => exact absurd h (List.idxOf?_eq_none_iff.mp hid)

namespace SymbolTable

variable {κ : Type} [DecidableEq κ]

/-- The identifier of a key: its own if the table has it, and the next one otherwise. -/
def place (t : SymbolTable κ) (key : κ) : Nat :=
  t.keys.idxOf key

/-- The table with a key, which comes last if it is new. -/
def insert (t : SymbolTable κ) (key : κ) : SymbolTable κ :=
  if key ∈ t.keys then t else ⟨t.keys ++ [key]⟩

/-- Interning that succeeds gives the place of the key and leaves the table with it. -/
theorem eq_of_intern_eq_ok {t t' : SymbolTable κ} {key : κ} {id : Nat}
    (h : intern key t = .ok id t') : id = t.place key ∧ t' = t.insert key := by
  unfold intern id? at h
  unfold place insert
  -- `idxOf` is past the end for a new key, which is the identifier that the key then gets.
  rw [List.idxOf_eq_getD_idxOf?]
  cases hid : t.keys.idxOf? key with
  | some i =>
    rw [hid] at h
    cases h
    have hmem : key ∈ t.keys := by
      by_contra hne
      rw [List.idxOf?_eq_none_iff.mpr hne] at hid
      cases hid
    exact ⟨rfl, by rw [if_pos hmem]⟩
  | none =>
    have hmem : key ∉ t.keys := List.idxOf?_eq_none_iff.mp hid
    rw [hid] at h
    dsimp only at h
    split at h
    · cases h
      exact ⟨rfl, by rw [if_neg hmem]⟩
    · cases h

/-- While there are identifiers, interning succeeds. -/
theorem intern_of_lt {t : SymbolTable κ} (h : t.keys.length < addressLimit) (key : κ) :
    intern key t = .ok (t.place key) (t.insert key) := by
  have hok : ∃ id t', intern key t = .ok id t' := by
    cases hid : t.id? key with
    | some i => exact ⟨i, t, intern_of_id? hid⟩
    | none => exact ⟨_, _, intern_of_id?_eq_none hid h⟩
  obtain ⟨id, t', ht⟩ := hok
  obtain ⟨rfl, rfl⟩ := eq_of_intern_eq_ok ht
  exact ht

/-- Interning a known key gives its place and keeps the table, also if that is full. -/
theorem intern_of_mem {t : SymbolTable κ} {key : κ} (h : key ∈ t.keys) :
    intern key t = .ok (t.place key) t :=
  intern_of_id? (idxOf?_of_mem h)

/-- A table with one more key keeps the keys before it, in place. -/
theorem keys_prefix_insert (t : SymbolTable κ) (key : κ) : t.keys <+: (t.insert key).keys := by
  unfold insert
  split
  · exact List.prefix_refl _
  · exact List.prefix_append _ _

/-- The table with a key has it. -/
theorem mem_keys_insert (t : SymbolTable κ) (key : κ) : key ∈ (t.insert key).keys := by
  unfold insert
  split
  · assumption
  · exact List.mem_append_right _ (List.mem_singleton.mpr rfl)

/-- The place of a key does not change when it joins the table. -/
theorem place_insert_self (t : SymbolTable κ) (key : κ) :
    (t.insert key).place key = t.place key := by
  unfold insert place
  split
  · rfl
  · next h =>
    rw [List.idxOf_append_of_notMem h, List.idxOf_cons_self, List.idxOf_of_notMem h, Nat.add_zero]

/-! ### Tables made from lists -/

/-- The table with the keys of a list, in their order. -/
def insertAll (t : SymbolTable κ) (ks : List κ) : SymbolTable κ :=
  ks.foldl insert t

/-- Keys are added list by list. -/
theorem insertAll_append (t : SymbolTable κ) (ks ls : List κ) :
    t.insertAll (ks ++ ls) = (t.insertAll ks).insertAll ls :=
  List.foldl_append

/-- The keys of a table made from a list are those of the list, each where it comes first. -/
theorem keys_insertAll (ks : List κ) : (insertAll {} ks).keys = ks.eraseDups := by
  induction ks using List.reverseRecOn with
  | nil => rfl
  | append_singleton ks k ih =>
    have hmem : k ∈ (insertAll {} ks).keys ↔ k ∈ ks := by rw [ih, List.mem_eraseDups]
    rw [insertAll_append, List.eraseDups_append, ← ih]
    show (insert _ k).keys = _
    unfold insert
    by_cases h : k ∈ ks
    · simp [hmem, h, List.removeAll]
    · simp [hmem, h, List.removeAll, List.eraseDups_cons]

/-- Keys stay apart when one joins them. -/
theorem nodup_insert {t : SymbolTable κ} (h : t.keys.Nodup) (key : κ) :
    (t.insert key).keys.Nodup := by
  unfold insert
  split
  · exact h
  · next hmem =>
    apply List.nodup_append.mpr
    refine ⟨h, List.pairwise_singleton _ _, fun a ha b hb => ?_⟩
    rw [List.mem_singleton.mp hb]
    rintro rfl
    exact hmem ha

/-- Keys stay apart when those of a list join them. -/
theorem nodup_insertAll {t : SymbolTable κ} (h : t.keys.Nodup) (ks : List κ) :
    (t.insertAll ks).keys.Nodup := by
  induction ks generalizing t with
  | nil => exact h
  | cons k ks ih => exact ih (nodup_insert h k)

/-- In a list with each member where it comes first none comes twice. -/
theorem nodup_eraseDups (ks : List κ) : ks.eraseDups.Nodup :=
  keys_insertAll ks ▸ nodup_insertAll List.Pairwise.nil ks

/-- The place of a key is one of the identifiers given so far or the next one, so the places of keys
that join a table one by one number its keys. -/
theorem insert_range_place (t : SymbolTable κ) (key : κ) :
    insert ⟨List.range t.keys.length⟩ (t.place key) = ⟨List.range (t.insert key).keys.length⟩ := by
  unfold insert place
  simp only [List.mem_range, List.idxOf_lt_length_iff]
  split
  · rfl
  · next hmem => simp [List.idxOf_of_notMem hmem, List.range_succ]

end SymbolTable

namespace LiteralPool

/-- The identifier of a literal: the place of its class. -/
def place (p : LiteralPool) (v : Value) : Nat :=
  p.classes.place v.canonical

/-- The pool with a literal, which joins the constants if its place is the next one there. -/
def insert (p : LiteralPool) (v : Value) : LiteralPool where
  classes := p.classes.insert v.canonical
  constants := if p.place v = p.constants.length then p.constants ++ [v] else p.constants

/-- The pool with the literals of a list, in their order. -/
def insertAll (p : LiteralPool) (vs : List Value) : LiteralPool :=
  vs.foldl insert p

/-- Adding that succeeds gives the place of the literal and leaves the pool with it. -/
theorem eq_of_add_eq_ok {p p' : LiteralPool} {v : Value} {id : Nat} (h : add v p = .ok id p') :
    id = p.place v ∧ p' = p.insert v := by
  simp only [add, internClass, Step.within, Step.bind_apply] at h
  cases hi : SymbolTable.intern v.canonical p.classes with
  | error e c =>
    rw [hi] at h
    cases h
  | ok i c =>
    obtain ⟨rfl, rfl⟩ := SymbolTable.eq_of_intern_eq_ok hi
    rw [hi] at h
    simp only [Step.modify_apply, Step.pure_apply] at h
    cases h
    unfold insert place
    refine ⟨rfl, ?_⟩
    split <;> rfl

/-- While there are identifiers, adding succeeds. -/
theorem add_of_lt {p : LiteralPool} (h : p.classes.keys.length < addressLimit) (v : Value) :
    add v p = .ok (p.place v) (p.insert v) := by
  simp only [add, internClass, Step.within, Step.bind_apply, SymbolTable.intern_of_lt h,
    Step.modify_apply, Step.pure_apply]
  unfold insert place
  split <;> rfl

/-! ## The two lists in step -/

/-- The classes are those of the constants, one by one. -/
def InStep (p : LiteralPool) : Prop :=
  p.classes.keys = p.constants.map Value.canonical

/-- Whether a literal is of the class of a canonical value. -/
def ofClass (c u : Value) : Bool :=
  u.canonical == c

/-- The place of a literal is past the constants exactly if its class is new. -/
theorem InStep.place_eq_length_iff {p : LiteralPool} (h : p.InStep) (v : Value) :
    p.place v = p.constants.length ↔ v.canonical ∉ p.classes.keys := by
  have hlen : p.constants.length = p.classes.keys.length := by rw [h, List.length_map]
  rw [place, SymbolTable.place, hlen, List.idxOf_eq_length_iff]

/-- The lists keep in step when a literal is added. -/
theorem InStep.insert {p : LiteralPool} (h : p.InStep) (v : Value) : (p.insert v).InStep := by
  unfold InStep LiteralPool.insert SymbolTable.insert
  by_cases hv : v.canonical ∈ p.classes.keys
  · rw [if_pos hv, if_neg fun he => (h.place_eq_length_iff v).mp he hv]
    exact h
  · rw [if_neg hv, if_pos ((h.place_eq_length_iff v).mpr hv), List.map_append, h]
    rfl

/-- The constant at the place of a literal is the first one of its class. -/
theorem InStep.constant_place {p : LiteralPool} (h : p.InStep) (v : Value) :
    p.constants[p.place v]? = p.constants.find? (ofClass v.canonical) := by
  rw [place, SymbolTable.place, h]
  -- From here on only the list of constants matters, and both sides look for the first of a class.
  generalize p.constants = constants
  induction constants with
  | nil => rfl
  | cons u us ih =>
    by_cases hu : u.canonical = v.canonical
    · rw [List.map_cons, List.idxOf_cons_eq _ hu, List.find?_cons_of_pos (by simp [ofClass, hu])]
      rfl
    · rw [List.map_cons, List.idxOf_cons_ne _ hu, List.find?_cons_of_neg (by simp [ofClass, hu])]
      exact ih

/-- As far as first members of classes go, adding a literal appends it. -/
theorem InStep.find?_insert {p : LiteralPool} (h : p.InStep) (v c : Value) :
    (p.insert v).constants.find? (ofClass c) = (p.constants ++ [v]).find? (ofClass c) := by
  unfold LiteralPool.insert
  dsimp only
  split
  · rfl
  · next hne =>
    -- The class of `v` has a member already, so a second one at the end is never the first.
    have hv : v.canonical ∈ p.classes.keys := by
      by_contra hv
      exact hne ((h.place_eq_length_iff v).mpr hv)
    rw [List.find?_append]
    by_cases hc : v.canonical = c
    · obtain ⟨u, hu, huv⟩ := List.mem_map.mp (h ▸ hv)
      have hsome : (p.constants.find? (ofClass c)).isSome :=
        List.find?_isSome.mpr ⟨u, hu, by simp [ofClass, huv, hc]⟩
      obtain ⟨w, hw⟩ := Option.isSome_iff_exists.mp hsome
      rw [hw, Option.some_or]
    · rw [List.find?_cons_of_neg (by simp [ofClass, hc]), List.find?_nil, Option.or_none]

/-- The lists keep in step when literals are added. -/
theorem InStep.insertAll {p : LiteralPool} (h : p.InStep) (vs : List Value) :
    (p.insertAll vs).InStep := by
  induction vs generalizing p with
  | nil => exact h
  | cons v vs ih => exact ih (h.insert v)

/-- As far as first members of classes go, adding literals appends them. -/
theorem InStep.find?_insertAll {p : LiteralPool} (h : p.InStep) (vs : List Value) (c : Value) :
    (p.insertAll vs).constants.find? (ofClass c) = (p.constants ++ vs).find? (ofClass c) := by
  induction vs generalizing p with
  | nil => rw [List.append_nil]; rfl
  | cons v vs ih =>
    have hstep := ih (h.insert v)
    rw [List.find?_append, h.find?_insert v c, ← List.find?_append, List.append_assoc] at hstep
    exact hstep

/-- In a pool made from a list of literals, the constant of a literal is the first one of its class
in the list. -/
theorem constant_place_insertAll (vs : List Value) (v : Value) :
    (insertAll {} vs).constants[(insertAll {} vs).place v]? = vs.find? (ofClass v.canonical) := by
  have h : InStep {} := rfl
  rw [(h.insertAll vs).constant_place v, h.find?_insertAll vs, List.nil_append]

end LiteralPool

end Backpatch
