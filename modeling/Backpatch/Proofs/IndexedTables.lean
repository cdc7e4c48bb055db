import Backpatch.Proofs.Interning
import Mathlib.Data.Finmap

/-!
# The two directions of a table

A symbol table is asked for the identifier of a key and, once a program is complete, for the key of each
identifier. It holds the list of keys alone and searches it. `IndexedTable` has a map from keys to
identifiers beside the list, so that no list is searched, and a new key is written into both. Nothing in
its type says that the two agree. They do because interning keeps each the inverse of the other
(`IndexedTable.Inverse.intern`), and then the map finds what the search finds
(`IndexedTable.Inverse.lookup_eq`), so the table with the map and the one without it give the same answers
and hold the same keys after any requests (`IndexedTable.Inverse.outcomes_eq`).
-/

namespace Backpatch

/-! ## Tables from the start -/

namespace SymbolTable

variable {κ : Type} [DecidableEq κ]

/-- Where no key comes twice, the identifier of a key is the place that it stands at. -/
theorem id?_eq_some_iff {t : SymbolTable κ} (h : t.keys.Nodup) (key : κ) (id : Nat) :
    t.id? key = some id ↔ t.keys[id]? = some key := by
  unfold id?
  by_cases hmem : key ∈ t.keys
  · rw [idxOf?_of_mem hmem, Option.some.injEq]
    constructor
    · rintro rfl
      exact List.getElem?_idxOf hmem
    · intro hkey
      obtain ⟨hlt, rfl⟩ := List.getElem?_eq_some_iff.mp hkey
      exact h.idxOf_getElem id hlt
  · rw [List.idxOf?_eq_none_iff.mpr hmem]
    exact iff_of_false nofun fun hkey => hmem (List.mem_of_getElem? hkey)

/-- The table after keys are interned one after the other; one that is refused is left in. -/
def ofInterns (ks : List κ) : SymbolTable κ :=
  Step.afterEach intern {} ks

/-- What interning keys one after the other answers to each of them. -/
def answers (ks : List κ) : List (Except GenerationError Nat) :=
  Step.outcomes intern {} ks

/-- The table is the one without a bound, cut off where the identifiers end. -/
theorem ofInterns_eq_bounded (ks : List κ) : ofInterns ks = (insertAll {} ks).bounded :=
  afterEach_intern {} ks

/-- The keys are those interned, each where it comes first, as far as there are identifiers. -/
theorem keys_ofInterns (ks : List κ) : (ofInterns ks).keys = ks.eraseDups.take addressLimit := by
  rw [ofInterns_eq_bounded, ← keys_insertAll]
  rfl

/-- No key has two identifiers. -/
theorem nodup_ofInterns (ks : List κ) : (ofInterns ks).keys.Nodup := by
  rw [keys_ofInterns]
  exact (nodup_eraseDups ks).sublist (List.take_sublist _ _)

/-- The answer to each key is its place among the different keys, if that is an identifier. -/
theorem answers_eq_map (ks : List κ) :
    answers ks = ks.map fun key => grant (ks.eraseDups.idxOf key) := by
  refine List.ext_getElem? fun i => ?_
  rw [answers, Step.getElem?_outcomes, List.getElem?_map]
  cases hkey : ks[i]? with
  | none => rfl
  | some key =>
    -- The keys after this one do not change its place, so the place may be taken in the whole list.
    have hstep := (intern_bounded (insertAll {} (ks.take i)) key).1
    rw [← ofInterns_eq_bounded, ← place_of_getElem? _ hkey, place, keys_insertAll] at hstep
    exact congrArg some hstep

/-- While the different keys are at most as many as the identifiers, the place of each is one. -/
theorem grant_idxOf {ks : List κ} (hlimit : ks.eraseDups.length ≤ addressLimit) {key : κ}
    (hkey : key ∈ ks) : grant (ks.eraseDups.idxOf key) = .ok (ks.eraseDups.idxOf key) := by
  have hlt : ks.eraseDups.idxOf key < ks.eraseDups.length :=
    List.idxOf_lt_length_of_mem (List.mem_eraseDups.mpr hkey)
  exact grant_eq_ok_iff.mpr ⟨rfl, by omega⟩

/-- Each key is answered with an identifier exactly if the different keys are at most as many as there
are identifiers. -/
theorem forall_answers_ok_iff (ks : List κ) :
    (∀ answer ∈ answers ks, ∃ id, answer = .ok id) ↔ ks.eraseDups.length ≤ addressLimit := by
  rw [answers_eq_map, List.forall_mem_map]
  constructor
  · intro hok
    by_contra hmany
    have hlt : addressLimit < ks.eraseDups.length := Nat.not_le.mp hmany
    -- The first of the different keys that is past the limit is refused.
    have hmem : ks.eraseDups[addressLimit] ∈ ks := List.mem_eraseDups.mp (List.getElem_mem hlt)
    obtain ⟨id, hid⟩ := hok _ hmem
    rw [(nodup_eraseDups ks).idxOf_getElem, grant_eq_ok_iff] at hid
    exact Nat.lt_irrefl _ hid.2
  · intro hlimit key hkey
    exact ⟨_, grant_idxOf hlimit hkey⟩

/-- A key that is given an identifier is given it each time, and no other key is. -/
theorem answer_eq_ok_iff {ks : List κ} {i j : Nat} {key other : κ} {id : Nat}
    (hkey : ks[i]? = some key) (hid : (answers ks)[i]? = some (.ok id))
    (hother : ks[j]? = some other) : (answers ks)[j]? = some (.ok id) ↔ other = key := by
  rw [answers_eq_map, List.getElem?_map, hkey, Option.map_some, Option.some.injEq,
    grant_eq_ok_iff] at hid
  obtain ⟨rfl, hlt⟩ := hid
  rw [answers_eq_map, List.getElem?_map, hother, Option.map_some, Option.some.injEq, grant_eq_ok_iff]
  constructor
  · rintro ⟨hplace, -⟩
    have hmem : key ∈ ks.eraseDups := List.mem_eraseDups.mpr (List.mem_of_getElem? hkey)
    exact ((List.idxOf_inj hmem).mp hplace).symm
  · rintro rfl
    exact ⟨rfl, hlt⟩

end SymbolTable

/-! ## Tables with a map -/

/-- A symbol table with a map from keys to identifiers. -/
structure IndexedTable (κ : Type) where
  /-- The identifier of each key. -/
  ids : Finmap fun _ : κ => Nat := ∅
  /-- The keys, in the order of their identifiers. -/
  keys : List κ := []

namespace IndexedTable

variable {κ : Type}

/-- The table without the map. -/
def table (t : IndexedTable κ) : SymbolTable κ :=
  ⟨t.keys⟩

variable [DecidableEq κ]

/-- The table with a new key, which is written into the map and into the list. -/
def concat (t : IndexedTable κ) (key : κ) : IndexedTable κ :=
  ⟨t.ids.insert key t.keys.length, t.keys ++ [key]⟩

/-- Gives the identifier of a key as `SymbolTable.intern` does, but finds it in the map. -/
def intern (key : κ) : Step (IndexedTable κ) Nat := fun t =>
  match t.ids.lookup key with
  | some id => .ok id t
  | none =>
    if t.keys.length < addressLimit then
      .ok t.keys.length (t.concat key)
    else
      .error (.tableFull t.keys.length) t

/-- The map has a key at an identifier exactly if the list does. -/
def Inverse (t : IndexedTable κ) : Prop :=
  ∀ (key : κ) (id : Nat), t.ids.lookup key = some id ↔ t.keys[id]? = some key

/-- An empty map goes with an empty list. -/
theorem inverse_empty : Inverse ({} : IndexedTable κ) :=
  fun key id => iff_of_false (by simp) (by simp)

variable {t : IndexedTable κ}

namespace Inverse

/-- The map finds what a search of the list finds. -/
theorem lookup_eq (h : t.Inverse) (key : κ) : t.ids.lookup key = t.table.id? key := by
  unfold SymbolTable.id? table
  by_cases hmem : key ∈ t.keys
  · rw [idxOf?_of_mem hmem, h key]
    exact List.getElem?_idxOf hmem
  · rw [List.idxOf?_eq_none_iff.mpr hmem, Option.eq_none_iff_forall_ne_some]
    exact fun id hid => hmem (List.mem_of_getElem? ((h key id).mp hid))

/-- A key that the map does not have can join both. -/
theorem concat (h : t.Inverse) {key : κ} (hnew : t.ids.lookup key = none) : (t.concat key).Inverse := by
  intro other id
  unfold IndexedTable.concat
  by_cases hother : other = key
  · subst hother
    -- A key that is new to the map is new to the list, so it stands at the end only.
    have hfree : t.keys[id]? ≠ some other := fun hid => by
      rw [(h other id).mpr hid] at hnew
      cases hnew
    rw [Finmap.lookup_insert, Option.some.injEq, List.getElem?_append]
    grind
  · -- Any other key is where it was: neither the new entry of the map nor the new end of the list is for it.
    rw [Finmap.lookup_insert_of_ne _ hother, h other id, List.getElem?_append]
    grind

/-- Interning answers as it does without the map, leaves the same keys, and keeps the map and the list
inverse. -/
theorem intern (h : t.Inverse) (key : κ) :
    (IndexedTable.intern key).outcome t = (SymbolTable.intern key).outcome t.table ∧
      ((IndexedTable.intern key).after t).table = (SymbolTable.intern key).after t.table ∧
      ((IndexedTable.intern key).after t).Inverse := by
  -- The map and the search find the same, so both tables are in the same one of the three cases.
  have hlookup := h.lookup_eq key
  cases hid : t.ids.lookup key with
  | some id =>
    have hmap : IndexedTable.intern key t = .ok id t := by simp [IndexedTable.intern, hid]
    have hlist := SymbolTable.intern_of_id? (hlookup.symm.trans hid)
    rw [Step.outcome_of_ok hmap, Step.outcome_of_ok hlist, Step.after_of_ok hmap, Step.after_of_ok hlist]
    exact ⟨rfl, rfl, h⟩
  | none =>
    have hnew : t.table.id? key = none := hlookup.symm.trans hid
    by_cases hlt : t.keys.length < addressLimit
    · have hmap : IndexedTable.intern key t = .ok t.keys.length (t.concat key) := by
        simp [IndexedTable.intern, hid, hlt]
      have hlist := SymbolTable.intern_of_id?_eq_none hnew hlt
      rw [Step.outcome_of_ok hmap, Step.outcome_of_ok hlist, Step.after_of_ok hmap,
        Step.after_of_ok hlist]
      exact ⟨rfl, rfl, h.concat hid⟩
    · have hmap : IndexedTable.intern key t = .error (.tableFull t.keys.length) t := by
        simp [IndexedTable.intern, hid, hlt]
      have hlist := SymbolTable.intern_of_full hnew (Nat.not_lt.mp hlt)
      rw [Step.outcome_of_error hmap, Step.outcome_of_error hlist, Step.after_of_error hmap,
        Step.after_of_error hlist]
      exact ⟨rfl, rfl, h⟩

/-- After any keys the map and the list are inverse, and the keys are those of the table without the
map. -/
theorem afterEach (h : t.Inverse) (ks : List κ) :
    (Step.afterEach IndexedTable.intern t ks).Inverse ∧
      (Step.afterEach IndexedTable.intern t ks).table =
        Step.afterEach SymbolTable.intern t.table ks := by
  induction ks generalizing t with
  | nil => exact ⟨h, rfl⟩
  | cons k ks ih =>
    obtain ⟨-, htable, hinverse⟩ := h.intern k
    have hrest := ih hinverse
    rw [htable] at hrest
    exact hrest

/-- The answers to any keys are those of the table without the map. -/
theorem outcomes_eq (h : t.Inverse) (ks : List κ) :
    Step.outcomes IndexedTable.intern t ks = Step.outcomes SymbolTable.intern t.table ks := by
  induction ks generalizing t with
  | nil => rfl
  | cons k ks ih =>
    obtain ⟨houtcome, htable, hinverse⟩ := h.intern k
    rw [Step.outcomes, Step.outcomes, houtcome, ih hinverse, htable]

end Inverse

/-- The table after keys are interned one after the other; one that is refused is left in. -/
def ofInterns (ks : List κ) : IndexedTable κ :=
  Step.afterEach intern {} ks

/-- What interning keys one after the other answers to each of them. -/
def answers (ks : List κ) : List (Except GenerationError Nat) :=
  Step.outcomes intern {} ks

end IndexedTable

namespace SymbolTable

variable {κ : Type} [DecidableEq κ]

/-- The laws of a table. After any keys, where one that is refused is left in:

- the map from keys to identifiers and the list of keys are inverse to each other, whether the map is
  kept beside the list or the list is searched, and either way the table holds the same keys, finds the
  same identifiers and gives the same answers;
- each key is answered with an identifier exactly if the different keys are at most as many as there are
  identifiers; then the keys are those interned, each where it comes first, and each answer is the place
  that its key has among them;
- a key that is given an identifier is given it each time, and no other key is. -/
theorem interns_keep_map_and_list_inverse (ks : List κ) :
    ((∀ (key : κ) (id : Nat), (IndexedTable.ofInterns ks).ids.lookup key = some id ↔
        (IndexedTable.ofInterns ks).keys[id]? = some key) ∧
      (∀ (key : κ) (id : Nat), (ofInterns ks).id? key = some id ↔
        (ofInterns ks).keys[id]? = some key) ∧
      (IndexedTable.ofInterns ks).keys = (ofInterns ks).keys ∧
      (∀ key, (IndexedTable.ofInterns ks).ids.lookup key = (ofInterns ks).id? key) ∧
      IndexedTable.answers ks = answers ks) ∧
    ((∀ answer ∈ answers ks, ∃ id, answer = .ok id) ↔ ks.eraseDups.length ≤ addressLimit) ∧
    (ks.eraseDups.length ≤ addressLimit →
      (ofInterns ks).keys = ks.eraseDups ∧
      answers ks = ks.map fun key => .ok (ks.eraseDups.idxOf key)) ∧
    (∀ (i j : Nat) (key other : κ) (id : Nat), ks[i]? = some key →
      (answers ks)[i]? = some (.ok id) → ks[j]? = some other →
      ((answers ks)[j]? = some (.ok id) ↔ other = key)) := by
  have hempty : IndexedTable.Inverse ({} : IndexedTable κ) := IndexedTable.inverse_empty
  obtain ⟨hinverse, htable⟩ := hempty.afterEach ks
  refine ⟨⟨hinverse, id?_eq_some_iff (nodup_ofInterns ks), congrArg keys htable, fun key => ?_,
    hempty.outcomes_eq ks⟩, forall_answers_ok_iff ks, fun hlimit => ⟨?_, ?_⟩, ?_⟩
  · exact (hinverse.lookup_eq key).trans (congrArg (fun t => t.id? key) htable)
  · rw [keys_ofInterns, List.take_of_length_le hlimit]
  · rw [answers_eq_map]
    exact List.map_congr_left fun key hkey => grant_idxOf hlimit hkey
  · intro i j key other id hkey hid hother
    exact answer_eq_ok_iff hkey hid hother

/-- Two of three keys come again and are answered as the first time. The map has the third key where the
list has it and lacks a key that was not interned, and no key is answered with the identifier of
another. -/
theorem interns_keep_map_and_list_inverse_repeats :
    ∃ ks : List String, ks = ["b", "a", "b", "c", "a"] ∧ ks.eraseDups.length ≤ addressLimit ∧
      (ofInterns ks).keys = ["b", "a", "c"] ∧
      answers ks = [.ok 0, .ok 1, .ok 0, .ok 2, .ok 1] ∧
      (IndexedTable.ofInterns ks).ids.lookup "c" = some 2 ∧
      (IndexedTable.ofInterns ks).ids.lookup "d" = none ∧
      (answers ks)[4]? ≠ some (.ok 0) := by
  refine ⟨_, rfl, ?_⟩
  generalize hks : (List.cons _ _ : List String) = ks
  obtain ⟨⟨hmap, -, hkeys, hsearch, -⟩, -, hlimit, hsame⟩ := interns_keep_map_and_list_inverse ks
  subst hks
  obtain ⟨hfirst, hanswers⟩ := hlimit (by decide)
  refine ⟨by decide, hfirst, hanswers, ?_, ?_, ?_⟩
  · rw [hmap, hkeys, hfirst]
    decide
  · rw [hsearch]
    decide
  · rw [ne_eq, hsame 0 4 "b" "a" 0 rfl (by rw [hanswers]; rfl) rfl]
    decide

end SymbolTable

end Backpatch
