import Backpatch.Proofs.Interning
import Backpatch.Proofs.Operands
import Backpatch.Proofs.Spacing
import Mathlib.Data.List.TakeWhile

/-!
# The text of a constant tells which one it is

Two constants read alike exactly if they are the same to a table (`Value.text_eq_iff`). What is to be shown
is that constants of different classes never read alike. The text of a finite number, whether it is
written as an integer or not, is a sign and a decimal that reads back as the number
(`Number.exists_text_eq`). The digits of a decimal and the number of those behind its point can be read off
its text (`Decimal.reading_text`), and nothing else decides what the decimal reads back as, which is one
magnitude only. The other constants are few, and no digit begins their names.
-/

namespace Backpatch

/-! ## Reading a decimal -/

namespace Decimal

/-- The digits of a text without its point, as a number, and how many of them are behind the point. -/
def reading (cs : List Char) : Nat × Nat :=
  let whole := cs.takeWhile (· != '.')
  let places := (cs.dropWhile (· != '.')).tail
  (Nat.ofDigitChars 10 (whole ++ places) 0, places.length)

/-- A digit is no point. -/
theorem ne_point_of_isDigit {c : Char} (h : c.isDigit = true) : (c != '.') = true := by
  rw [bne_iff_ne]
  rintro rfl
  cases h

/-- Digits without a point write a whole number. -/
theorem reading_of_isDigit {cs : List Char} (h : ∀ c ∈ cs, c.isDigit = true) :
    reading cs = (Nat.ofDigitChars 10 cs 0, 0) := by
  have hno : ∀ c ∈ cs, (c != '.') = true := fun c hc => ne_point_of_isDigit (h c hc)
  unfold reading
  dsimp only
  rw [List.takeWhile_eq_self_iff.mpr hno, List.dropWhile_eq_nil_iff.mpr hno, List.tail_nil,
    List.append_nil, List.length_nil]

/-- Digits around a point write as many places as there are behind it. -/
theorem reading_of_point {whole places : List Char} (h : ∀ c ∈ whole, c.isDigit = true) :
    reading (whole ++ '.' :: places) = (Nat.ofDigitChars 10 (whole ++ places) 0, places.length) := by
  have hno : ∀ c ∈ whole, (c != '.') = true := fun c hc => ne_point_of_isDigit (h c hc)
  unfold reading
  dsimp only
  rw [List.takeWhile_append_of_pos hno, List.dropWhile_append_of_pos hno,
    List.takeWhile_cons_of_neg (by decide), List.dropWhile_cons_of_neg (by decide), List.append_nil,
    List.tail_cons]

/-- Zeros are digits. -/
theorem isDigit_of_mem_zeros {n : Nat} {c : Char} (h : c ∈ List.replicate n '0') :
    c.isDigit = true := by
  rw [List.eq_of_mem_replicate h]
  rfl

/-- Zeros in front of digits are digits, and change nothing. -/
theorem leftpad_natDigits (width n : Nat) :
    (∀ c ∈ (natDigits n).leftpad width '0', c.isDigit = true) ∧
      Nat.ofDigitChars 10 ((natDigits n).leftpad width '0') 0 = n := by
  constructor
  · intro c hc
    exact (List.mem_append.mp hc).elim isDigit_of_mem_zeros isDigit_of_mem_natDigits
  · rw [List.leftpad, Nat.ofDigitChars_append, Nat.ofDigitChars_replicate_zero, Nat.mul_zero]
    exact Nat.ofDigitChars_ten_toDigits

/-- Zeros behind digits are digits, and count as places. -/
theorem natDigits_append_zeros (n places : Nat) :
    (∀ c ∈ natDigits n ++ List.replicate places '0', c.isDigit = true) ∧
      Nat.ofDigitChars 10 (natDigits n ++ List.replicate places '0') 0 = n * 10 ^ places := by
  constructor
  · intro c hc
    exact (List.mem_append.mp hc).elim isDigit_of_mem_natDigits isDigit_of_mem_zeros
  · have hvalue : Nat.ofDigitChars 10 (natDigits n) 0 = n := Nat.ofDigitChars_ten_toDigits
    rw [Nat.ofDigitChars_append, Nat.ofDigitChars_replicate_zero, hvalue]
    exact Nat.mul_comm _ _

/-- The text of a decimal is digits, or digits around a point with at least one before it. -/
theorem toList_text_cases (d : Decimal) :
    ((-d.exponent).toNat = 0 ∧
      d.text.toList = natDigits d.digits ++ List.replicate d.exponent.toNat '0') ∨
    ∃ whole places, whole ≠ [] ∧ places.length = (-d.exponent).toNat ∧ d.exponent.toNat = 0 ∧
      whole ++ places = (natDigits d.digits).leftpad ((-d.exponent).toNat + 1) '0' ∧
      d.text.toList = whole ++ '.' :: places := by
  unfold text
  dsimp only
  split
  · next hplaces => exact .inl ⟨hplaces, String.toList_ofList⟩
  · next hplaces =>
    generalize hds : (natDigits d.digits).leftpad ((-d.exponent).toNat + 1) '0' = ds
    have hlength : (-d.exponent).toNat + 1 ≤ ds.length := by
      rw [← hds, List.length_leftpad]
      exact Nat.le_max_left _ _
    refine .inr ⟨_, _, ?_, ?_, by omega, List.take_append_drop _ ds, String.toList_ofList⟩
    · rw [← List.length_pos_iff, List.length_take]
      omega
    · rw [List.length_drop]
      omega

/-- The text of a decimal tells its digits, with a zero for each place between them and the units, and how
many of them are below the units. -/
theorem reading_text (d : Decimal) :
    reading d.text.toList = (d.digits * 10 ^ d.exponent.toNat, (-d.exponent).toNat) := by
  rcases toList_text_cases d with ⟨hplaces, htext⟩ | ⟨whole, places, -, hlength, hunits, hds, htext⟩
  · obtain ⟨hdigits, hvalue⟩ := natDigits_append_zeros d.digits d.exponent.toNat
    rw [htext, reading_of_isDigit hdigits, hvalue, hplaces]
  · obtain ⟨hdigits, hvalue⟩ := leftpad_natDigits ((-d.exponent).toNat + 1) d.digits
    rw [← hds] at hdigits hvalue
    rw [htext, reading_of_point fun c hc => hdigits c (List.mem_append_left _ hc), hvalue, hlength,
      hunits]
    exact congrArg (·, _) (Nat.mul_one _).symm

/-- The text of a decimal begins with a digit. -/
theorem exists_toList_text (d : Decimal) : ∃ c cs, d.text.toList = c :: cs ∧ c.isDigit = true := by
  rcases toList_text_cases d with ⟨-, htext⟩ | ⟨whole, places, hne, -, -, hds, htext⟩
  · obtain ⟨c, cs, hcons, hc⟩ := exists_natDigits_eq_cons d.digits
    refine ⟨c, cs ++ List.replicate d.exponent.toNat '0', ?_, hc⟩
    rw [htext, hcons, List.cons_append]
  · obtain ⟨c, cs, rfl⟩ := List.exists_cons_of_ne_nil hne
    obtain ⟨hdigits, -⟩ := leftpad_natDigits ((-d.exponent).toNat + 1) d.digits
    rw [← hds] at hdigits
    exact ⟨c, cs ++ '.' :: places, htext, hdigits c List.mem_cons_self⟩

/-- A whole number as a decimal is its digits. -/
theorem text_of_exponent_zero (n : Nat) : text ⟨n, 0⟩ = String.ofList (natDigits n) := by
  show String.ofList (natDigits n ++ []) = _
  rw [List.append_nil]

/-- What a decimal reads back as shows in its text. -/
theorem readsBack_of_text_eq {d d' : Decimal} (h : d.text = d'.text) (x : Number) :
    x.readsBack d = x.readsBack d' := by
  have hreading := reading_text d
  rw [h, reading_text d', Prod.mk.injEq] at hreading
  simp only [Number.readsBack, Nat.pow_eq, hreading]

end Decimal

/-! ## Numbers -/

namespace Number

variable {x y : Number}

/-- Whether a number is neither a NaN nor an infinity. -/
def isFinite (x : Number) : Bool :=
  x.exponent.val != 2047

/-- The sign that is shown, which a zero has not. -/
def shownSign (x : Number) : List Char :=
  if x.negative && !x.isZero then ['-'] else []

/-- A finite number is neither a NaN nor infinite. -/
theorem not_isNaN_of_isFinite (h : x.isFinite = true) : x.isNaN = false ∧ x.isInfinite = false := by
  have hexponent : (x.exponent.val == 2047) = false := by
    unfold isFinite at h
    simpa using h
  rw [isNaN, isInfinite, hexponent]
  exact ⟨rfl, rfl⟩

/-- What is neither finite nor a NaN is an infinity. -/
theorem eq_infinity (hfinite : x.isFinite = false) (hnan : x.isNaN = false) :
    ∃ negative, x = infinity negative := by
  obtain ⟨negative, exponent, fraction⟩ := x
  have hexponent : exponent.val = 2047 := by simpa [isFinite] using hfinite
  have hfraction : fraction.val = 0 := by simpa [isNaN, hexponent] using hnan
  obtain rfl : exponent = 2047 := Fin.ext hexponent
  obtain rfl : fraction = 0 := Fin.ext hfraction
  exact ⟨negative, rfl⟩

/-- A number that is written as an integer is exactly that integer. -/
theorem readsBack_of_isShortInteger (hpos : 0 < x.units) (h : x.isShortInteger = true) :
    x.readsBack ⟨x.units / unitsPerOne, 0⟩ = true := by
  unfold isShortInteger at h
  rw [Bool.and_eq_true, beq_iff_eq] at h
  refine readsBack_of_eq hpos ?_
  show x.units / unitsPerOne * 1 * unitsPerOne = x.units * 1
  rw [Nat.mul_one, Nat.mul_one]
  exact Nat.div_mul_cancel (Nat.dvd_of_mod_eq_zero h.1)

/-- The decimal zero reads back as a zero. -/
theorem readsBack_of_isZero (h : x.isZero = true) : x.readsBack ⟨0, 0⟩ = true := by
  have hunits := units_eq_zero_iff.mpr h
  unfold isZero at h
  rw [Bool.and_eq_true, beq_iff_eq, beq_iff_eq] at h
  unfold readsBack
  rw [hunits, h.2]
  simp

/-- The text of a finite number is a sign, if one is shown, and a decimal that reads back as the number. -/
theorem exists_text_eq (h : x.isFinite = true) :
    ∃ d : Decimal, x.text.toList = x.shownSign ++ d.text.toList ∧ x.readsBack d = true := by
  obtain ⟨hnan, hinfinite⟩ := not_isNaN_of_isFinite h
  cases hzero : x.isZero with
  | true =>
    refine ⟨⟨0, 0⟩, ?_, readsBack_of_isZero hzero⟩
    rw [text_of_isZero hzero, shownSign, hzero, Bool.not_true, Bool.and_false]
    rfl
  | false =>
    have hpos : 0 < x.units := by
      refine Nat.pos_of_ne_zero fun hunits => ?_
      rw [units_eq_zero_iff.mp hunits] at hzero
      cases hzero
    have hsign : x.signText.toList = x.shownSign := by
      unfold signText shownSign
      rw [hzero]
      cases x.negative <;> rfl
    unfold text
    rw [hnan, hinfinite, hzero]
    cases hshort : x.isShortInteger with
    | true =>
      refine ⟨⟨x.units / unitsPerOne, 0⟩, ?_, readsBack_of_isShortInteger hpos hshort⟩
      simp only [Bool.false_eq_true, if_false, if_true]
      rw [String.toList_append, hsign, Decimal.text_of_exponent_zero]
    | false =>
      refine ⟨x.shortest, ?_, readsBack_shortest hpos⟩
      simp only [Bool.false_eq_true, if_false]
      rw [String.toList_append, hsign]

/-- The sign that is shown is a minus, if there is one. -/
theorem shownSign_cases (x : Number) : x.shownSign = [] ∨ x.shownSign = ['-'] := by
  unfold shownSign
  split
  · exact .inr rfl
  · exact .inl rfl

/-- A sign is told from the decimal behind it. -/
theorem sign_eq_of_append_eq {d d' : Decimal}
    (h : x.shownSign ++ d.text.toList = y.shownSign ++ d'.text.toList) : x.shownSign = y.shownSign := by
  obtain ⟨c, cs, hc, hdigit⟩ := d.exists_toList_text
  obtain ⟨c', cs', hc', hdigit'⟩ := d'.exists_toList_text
  rw [hc, hc'] at h
  -- A sign on one side only would stand where the other side has its first digit.
  rcases x.shownSign_cases with hx | hx <;> rcases y.shownSign_cases with hy | hy <;> rw [hx, hy] at h ⊢
  · obtain rfl : c = '-' := (List.cons.inj h).1
    cases hdigit
  · obtain rfl : '-' = c' := (List.cons.inj h).1
    cases hdigit'

/-- Finite numbers that read alike show the same sign and have the same magnitude. -/
theorem sign_and_units_of_text_eq (hx : x.isFinite = true) (hy : y.isFinite = true)
    (h : x.text = y.text) : x.shownSign = y.shownSign ∧ x.units = y.units := by
  obtain ⟨d, hd, hxd⟩ := exists_text_eq hx
  obtain ⟨d', hd', hyd'⟩ := exists_text_eq hy
  have happend : x.shownSign ++ d.text.toList = y.shownSign ++ d'.text.toList := by
    rw [← hd, ← hd', h]
  have hsign := sign_eq_of_append_eq happend
  rw [hsign] at happend
  have htext : d.text = d'.text := String.toList_inj.mp (List.append_cancel_left happend)
  rw [Decimal.readsBack_of_text_eq htext] at hxd
  exact ⟨hsign, units_eq_of_readsBack hxd hyd'⟩

/-- Finite numbers that read alike are equal. -/
theorem numEq_of_text_eq (hx : x.isFinite = true) (hy : y.isFinite = true) (h : x.text = y.text) :
    x.numEq y = true := by
  obtain ⟨hsign, hunits⟩ := sign_and_units_of_text_eq hx hy h
  have hzero : x.isZero = y.isZero := by
    rw [Bool.eq_iff_iff, ← units_eq_zero_iff, ← units_eq_zero_iff, hunits]
  have hvalue : x.value = y.value := by
    cases hx' : x.isZero with
    | true => exact value_eq_iff.mpr (.inr ⟨hx', hzero ▸ hx'⟩)
    | false =>
      have hnegative : x.negative = y.negative := by
        unfold shownSign at hsign
        rw [← hzero, hx'] at hsign
        cases hneg : x.negative <;> cases hneg' : y.negative <;> simp [hneg, hneg'] at hsign ⊢
      unfold value
      rw [hnegative, hunits]
  unfold numEq
  rw [(not_isNaN_of_isFinite hx).1, (not_isNaN_of_isFinite hy).1, hvalue, beq_self_eq_true]
  rfl

end Number

/-! ## Constants -/

namespace Value

/-- Whether a value is a finite number. -/
def isFinite : Value → Bool
  | number x => x.isFinite
  | boolean _ => false

/-- The values that have a name for a text, one of each class. -/
def named : List Value :=
  [number .nan, number (.infinity false), number (.infinity true), boolean true, boolean false]

/-- Whether a text begins with a digit, a sign apart. -/
def beginsWithDigit (cs : List Char) : Bool :=
  (cs.dropWhile (· == '-')).head?.any Char.isDigit

/-- What is no finite number has a name. -/
theorem canonical_mem_named {v : Value} (h : v.isFinite = false) : v.canonical ∈ named := by
  cases v with
  | boolean b => cases b <;> decide
  | number x =>
    cases hnan : x.isNaN with
    | true =>
      have hcanonical : (number x).canonical = number .nan := by
        rw [canonical, Number.canonical, if_pos hnan]
      rw [hcanonical]
      decide
    | false =>
      obtain ⟨negative, hx⟩ : ∃ negative, x = .infinity negative := Number.eq_infinity h hnan
      rw [hx]
      cases negative <;> decide

/-- Finite numbers are the values whose text begins with a digit. -/
theorem beginsWithDigit_text (v : Value) : beginsWithDigit v.text.toList = v.isFinite := by
  cases hv : v.isFinite with
  | true =>
    cases v with
    | boolean b => cases hv
    | number x =>
      obtain ⟨d, hd, -⟩ := Number.exists_text_eq hv
      obtain ⟨c, cs, hc, hdigit⟩ := d.exists_toList_text
      have hsign : (c == '-') = false := by
        rw [beq_eq_false_iff_ne]
        rintro rfl
        cases hdigit
      unfold text beginsWithDigit
      rw [hd, hc]
      rcases x.shownSign_cases with hx | hx <;> rw [hx] <;> simp [hsign, hdigit]
  | false =>
    have hnames : ∀ u ∈ named, beginsWithDigit u.text.toList = false := by decide
    rw [← text_canonical]
    exact hnames _ (canonical_mem_named hv)

/-- Values read alike exactly if they are the same to a table. -/
theorem text_eq_iff (v w : Value) : v.text = w.text ↔ v.same w = true := by
  rw [same_eq, beq_iff_eq]
  constructor
  · intro h
    have hfinite : v.isFinite = w.isFinite := by
      rw [← beginsWithDigit_text v, h, beginsWithDigit_text w]
    cases hv : v.isFinite with
    | true =>
      cases v with
      | boolean a => cases hv
      | number x =>
        cases w with
        | boolean b => cases hfinite.symm.trans hv
        | number y =>
          have hy : y.isFinite = true := hfinite.symm.trans hv
          rw [canonical, canonical, number.injEq]
          exact Number.canonical_eq_iff.mpr (.inl (Number.numEq_of_text_eq hv hy h))
    | false =>
      have hnames : ∀ u ∈ named, ∀ u' ∈ named, u.text = u'.text → u = u' := by decide
      refine hnames _ (canonical_mem_named hv) _ (canonical_mem_named (hfinite ▸ hv)) ?_
      rw [text_canonical, text_canonical, h]
  · intro h
    rw [← text_canonical v, h, text_canonical w]

end Value

namespace Tree

/-- No two constants of a program are the same to a table. -/
theorem eq_of_same_constants {t : Tree} {p : Program} (h : t.generate = .ok p) {i j : Nat} {v w : Value}
    (hi : p.constants[i]? = some v) (hj : p.constants[j]? = some w) (hsame : v.same w = true) : i = j := by
  obtain ⟨-, -, hconstants⟩ := layout_of_generate h
  have hpool : (t.fill {}).literals = LiteralPool.insertAll {} t.literals := t.literals_fill {}
  obtain ⟨hinStep, hnodup⟩ := LiteralPool.inStep_insertAll t.literals
  rw [hinStep, ← hpool, ← hconstants] at hnodup
  rw [Value.same_eq, beq_iff_eq] at hsame
  have hi' : (p.constants.map Value.canonical)[i]? = some v.canonical := by
    rw [List.getElem?_map, hi, Option.map_some]
  have hj' : (p.constants.map Value.canonical)[j]? = some w.canonical := by
    rw [List.getElem?_map, hj, Option.map_some]
  refine (List.getElem?_inj (List.getElem?_eq_some_iff.mp hi').1 hnodup).mp ?_
  rw [hi', hj', hsame]

/-- The text of a constant tells which entry of the table it is. Two values read alike exactly if they are
the same to a table: both the same Boolean, or both numbers and equal or both NaN. So any two literals that
are added to a pool and get identifiers read alike exactly if the identifiers are the same, and any two loads
of constants in the program of a tree show the same note exactly if they have the same operand. -/
theorem text_identifies_constant :
    (∀ v w : Value, v.text = w.text ↔ v.same w = true) ∧
    (∀ (vs : List Value) (i j : Nat) (v w : Value) (a b : Nat), vs[i]? = some v → vs[j]? = some w →
      (LiteralPool.answers vs)[i]? = some (.ok a) → (LiteralPool.answers vs)[j]? = some (.ok b) →
      (v.text = w.text ↔ a = b)) ∧
    (∀ (t : Tree) (p : Program), t.generate = .ok p → ∀ i ∈ p.code, ∀ j ∈ p.code,
      i.opcode = .loadConst → j.opcode = .loadConst → (i.display = j.display ↔ i.operand = j.operand)) := by
  refine ⟨Value.text_eq_iff, ?_, ?_⟩
  · intro vs i j v w a b hv hw ha hb
    rw [Value.text_eq_iff]
    exact (LiteralPool.answer_eq_iff hv hw ha hb).symm
  · intro t p hp i hi j hj hopi hopj
    obtain ⟨id, v, hid, -, hv, hdisplay⟩ := (fits_of_generate hp i hi).exists_constant hopi
    obtain ⟨id', w, hid', -, hw, hdisplay'⟩ := (fits_of_generate hp j hj).exists_constant hopj
    rw [hdisplay, hdisplay', hid, hid', Option.some.injEq, Option.some.injEq]
    constructor
    · intro htext
      exact eq_of_same_constants hp hv hw ((Value.text_eq_iff v w).mp htext)
    · rintro rfl
      cases hv.symm.trans hw
      rfl

/-- The last number that is written as an integer and the first one that is not, which is whole as well,
read differently. Two zeros of different sign read alike, so they have one identifier in a pool, and in a
program they are loaded with one operand. -/
theorem text_identifies_constant_boundary :
    (Value.number (.ofInt 999999999999999)).text ≠ (Value.number (.ofInt 1000000000000000)).text ∧
    (LiteralPool.answers [.number ⟨true, 0, 0⟩, .boolean true, .number ⟨false, 0, 0⟩])[2]? =
      some (.ok 0) ∧
    (Value.number ⟨true, 0, 0⟩).text = (Value.number ⟨false, 0, 0⟩).text ∧
    ∃ p, (block .program [print (literal (.number ⟨true, 0, 0⟩)), print (literal (.boolean true)),
        print (literal (.number ⟨false, 0, 0⟩))]).generate = .ok p ∧
      ∀ i ∈ p.code, ∀ j ∈ p.code, i.opcode = .loadConst → j.opcode = .loadConst →
        (i.display = j.display ↔ i.operand = j.operand) := by
  obtain ⟨hvalues, hpool, hprogram⟩ := text_identifies_constant
  refine ⟨fun htext => ?_, rfl, ?_, ?_⟩
  · have hsame := (hvalues _ _).mp htext
    revert hsame
    decide +kernel
  · exact (hpool [.number ⟨true, 0, 0⟩, .boolean true, .number ⟨false, 0, 0⟩] 0 2 _ _ 0 0 rfl rfl rfl
      rfl).mpr rfl
  · exact (exists_of_isOk (by decide +kernel)).imp fun p hp => ⟨hp, hprogram _ p hp⟩

end Tree

end Backpatch
