import Backpatch.Value
import Mathlib.Algebra.Group.Nat.Defs

/-!
# When two literals are the same

A table of literals goes by canonical values. Here that is put in terms of what numbers are: two
numbers share a canonical value exactly if they are equal as IEEE 754 has it or are both NaN
(`Number.canonical_eq_iff`). The numbers of an exponent are a step apart, from `Number.origin` on, and end
where those of the next exponent begin. So the magnitude of a number determines its exponent and its
fraction (`Number.eq_of_units_eq`), and only the zeros are equal without being the same. Literals that are the
same to a table also read the same (`Value.text_canonical`).
-/

namespace Backpatch

namespace Number

variable {x y : Number}

/-- The magnitude at which the numbers of an exponent begin. -/
def origin (x : Number) : Nat :=
  if x.exponent.val = 0 then 0 else 2 ^ 52 * x.step

/-- From the origin on the numbers of an exponent are a step apart. -/
theorem units_eq (x : Number) : x.units = x.origin + x.fraction.val * x.step := by
  unfold units origin
  split
  · next h =>
    have hstep : x.step = 1 := by
      unfold step
      rw [h]
    rw [hstep, Nat.mul_one, Nat.zero_add]
  · exact Nat.add_mul _ _ _

/-- No number of an exponent is below its origin. -/
theorem origin_le_units (x : Number) : x.origin ≤ x.units := by
  rw [units_eq]
  exact Nat.le_add_right _ _

/-- A step on, the fraction is one greater. -/
theorem units_add_step_eq (x : Number) :
    x.units + x.step = x.origin + (x.fraction.val + 1) * x.step := by
  rw [units_eq, Nat.add_mul, Nat.one_mul, Nat.add_assoc]

/-- Where there is an exponent, the origin is a power of two. -/
theorem origin_of_pos (h : 0 < x.exponent.val) : x.origin = 2 ^ (52 + (x.exponent.val - 1)) := by
  unfold origin step
  rw [if_neg (Nat.ne_of_gt h)]
  exact (Nat.pow_add 2 52 _).symm

/-- The numbers of an exponent end a step below the power of two that the next exponent begins with. -/
theorem origin_add_steps (x : Number) : x.origin + 2 ^ 52 * x.step = 2 ^ (52 + x.exponent.val) := by
  unfold origin step
  split
  · next h =>
    rw [h]
    rfl
  · next h =>
    have hplaces : 52 + x.exponent.val = 53 + (x.exponent.val - 1) := by omega
    rw [hplaces, Nat.pow_add, ← Nat.add_mul]
    rfl

/-- A step above a number of an exponent there is a power of two at most. -/
theorem units_add_step_le_pow (x : Number) : x.units + x.step ≤ 2 ^ (52 + x.exponent.val) := by
  have hfraction : x.fraction.val + 1 ≤ 2 ^ 52 := x.fraction.isLt
  calc x.units + x.step
    _ = x.origin + (x.fraction.val + 1) * x.step := x.units_add_step_eq
    _ ≤ x.origin + 2 ^ 52 * x.step := Nat.add_le_add_left (Nat.mul_le_mul_right _ hfraction) _
    _ = 2 ^ (52 + x.exponent.val) := x.origin_add_steps

/-- A magnitude is below the power of two that its exponent sets. -/
theorem units_lt (x : Number) : x.units < 2 ^ (52 + x.exponent.val) := by
  have hstep := x.step_pos
  have hle := x.units_add_step_le_pow
  omega

/-- Greater exponents begin where the numbers of smaller ones have ended. -/
theorem pow_le_origin (h : x.exponent.val < y.exponent.val) :
    2 ^ (52 + x.exponent.val) ≤ y.origin := by
  rw [origin_of_pos (by omega)]
  exact Nat.pow_le_pow_right (by decide) (by omega)

/-- A greater exponent has the greater magnitude. -/
theorem units_lt_units (h : x.exponent.val < y.exponent.val) : x.units < y.units :=
  calc x.units
    _ < 2 ^ (52 + x.exponent.val) := x.units_lt
    _ ≤ y.origin := pow_le_origin h
    _ ≤ y.units := y.origin_le_units

/-- Numbers with the same exponent differ by steps. -/
theorem of_exponent_eq (h : x.exponent.val = y.exponent.val) :
    x.step = y.step ∧ x.origin = y.origin := by
  unfold origin step
  rw [h]
  exact ⟨rfl, rfl⟩

/-- The magnitude determines the exponent and the fraction. -/
theorem eq_of_units_eq (h : x.units = y.units) :
    x.exponent = y.exponent ∧ x.fraction = y.fraction := by
  have hexponent : x.exponent.val = y.exponent.val := by
    rcases Nat.lt_trichotomy x.exponent.val y.exponent.val with hlt | heq | hgt
    · exact absurd h (Nat.ne_of_lt (units_lt_units hlt))
    · exact heq
    · exact absurd h.symm (Nat.ne_of_lt (units_lt_units hgt))
  refine ⟨Fin.ext hexponent, Fin.ext ?_⟩
  -- With the same exponent both count the same steps from the same origin.
  obtain ⟨hstep, horigin⟩ := of_exponent_eq hexponent
  rw [units_eq, units_eq, hstep, horigin] at h
  exact Nat.eq_of_mul_eq_mul_right y.step_pos (Nat.add_left_cancel h)

/-- Only the zeros have no magnitude. -/
theorem units_eq_zero_iff : x.units = 0 ↔ x.isZero = true := by
  unfold isZero
  rw [Bool.and_eq_true, beq_iff_eq, beq_iff_eq]
  constructor
  · intro h
    obtain ⟨hexponent, hfraction⟩ := eq_of_units_eq (show x.units = zero.units from h)
    exact ⟨congrArg Fin.val hexponent, congrArg Fin.val hfraction⟩
  · rintro ⟨hexponent, hfraction⟩
    rw [units, if_pos hexponent, hfraction]

/-- Two numbers have the same value exactly if they are the same or are both zero. -/
theorem value_eq_iff : x.value = y.value ↔ x = y ∨ (x.isZero = true ∧ y.isZero = true) := by
  constructor
  · intro h
    have hunits : x.units = y.units := by
      unfold value at h
      split at h <;> split at h <;> omega
    -- The sign of a zero cannot be told from its value, and that of any other number can.
    by_cases hzero : x.units = 0
    · exact .inr ⟨units_eq_zero_iff.mp hzero, units_eq_zero_iff.mp (hunits ▸ hzero)⟩
    · have hsign : x.negative = y.negative := by
        unfold value at h
        cases hx : x.negative <;> cases hy : y.negative <;> simp [hx, hy] at h ⊢ <;> omega
      obtain ⟨hexponent, hfraction⟩ := eq_of_units_eq hunits
      cases x
      cases y
      cases hsign
      cases hexponent
      cases hfraction
      exact .inl rfl
  · rintro (rfl | ⟨hx, hy⟩)
    · rfl
    · unfold value
      rw [units_eq_zero_iff.mpr hx, units_eq_zero_iff.mpr hy]
      split <;> split <;> rfl

/-- A NaN is no zero. -/
theorem isZero_of_isNaN (h : x.isNaN = true) : x.isZero = false := by
  unfold isNaN at h
  unfold isZero
  rw [Bool.and_eq_true, beq_iff_eq] at h
  rw [h.1]
  rfl

/-- The canonical number of a NaN is one, and so is no other. -/
theorem isNaN_canonical (x : Number) : x.canonical.isNaN = x.isNaN := by
  unfold canonical
  cases hnan : x.isNaN with
  | true => rfl
  | false =>
    cases x.isZero with
    | true => rfl
    | false => exact hnan

/-- The canonical number of a zero is one, and so is no other. -/
theorem isZero_canonical (x : Number) : x.canonical.isZero = x.isZero := by
  unfold canonical
  cases hnan : x.isNaN with
  | true =>
    rw [isZero_of_isNaN hnan]
    rfl
  | false =>
    cases hzero : x.isZero with
    | true => rfl
    | false => exact hzero

/-- A number that is neither a NaN nor a zero is canonical. -/
theorem canonical_eq_self (hnan : x.isNaN = false) (hzero : x.isZero = false) :
    x.canonical = x := by
  rw [canonical, hnan, hzero]
  rfl

/-- Two numbers share a canonical number exactly if they are equal or are both NaN. -/
theorem canonical_eq_iff :
    x.canonical = y.canonical ↔ x.numEq y = true ∨ (x.isNaN = true ∧ y.isNaN = true) := by
  constructor
  · intro h
    have hnan : x.isNaN = y.isNaN := by rw [← isNaN_canonical x, h, isNaN_canonical y]
    have hzero : x.isZero = y.isZero := by rw [← isZero_canonical x, h, isZero_canonical y]
    cases hx : x.isNaN with
    | true => exact .inr ⟨rfl, hnan ▸ hx⟩
    | false =>
      -- Canonical numbers agree in what they are, so the numbers agree up to the sign of a zero.
      have hvalue : x.value = y.value := by
        refine value_eq_iff.mpr ?_
        cases hx' : x.isZero with
        | true => exact .inr ⟨rfl, hzero ▸ hx'⟩
        | false =>
          rw [canonical_eq_self hx hx', canonical_eq_self (hnan ▸ hx) (hzero ▸ hx')] at h
          exact .inl h
      left
      rw [numEq, ← hnan, hx, hvalue]
      simp
  · rintro (h | ⟨hx, hy⟩)
    · unfold numEq at h
      simp only [Bool.and_eq_true, Bool.not_eq_true', beq_iff_eq] at h
      obtain ⟨⟨hx, hy⟩, hvalue⟩ := h
      rcases value_eq_iff.mp hvalue with rfl | ⟨hx', hy'⟩
      · rfl
      · rw [canonical, canonical, hx, hy, hx', hy']
        rfl
    · rw [canonical, canonical, if_pos hx, if_pos hy]

/-- All NaNs read alike. -/
theorem text_of_isNaN (h : x.isNaN = true) : x.text = "NaN" := by
  rw [text, if_pos h]

/-- Both zeros read alike. -/
theorem text_of_isZero (h : x.isZero = true) : x.text = "0" := by
  have hnan : x.isNaN = false := by
    apply Bool.eq_false_iff.mpr
    intro hnan
    rw [isZero_of_isNaN hnan] at h
    cases h
  have hinfinite : x.isInfinite = false := by
    unfold isZero at h
    unfold isInfinite
    rw [Bool.and_eq_true, beq_iff_eq] at h
    rw [h.1]
    rfl
  rw [text, hnan, hinfinite, h]
  rfl

/-- A canonical number reads like the number. -/
theorem text_canonical (x : Number) : x.canonical.text = x.text := by
  cases hnan : x.isNaN with
  | true => rw [text_of_isNaN hnan, text_of_isNaN ((isNaN_canonical x).trans hnan)]
  | false =>
    cases hzero : x.isZero with
    | true => rw [text_of_isZero hzero, text_of_isZero ((isZero_canonical x).trans hzero)]
    | false => rw [canonical_eq_self hnan hzero]

end Number

namespace Value

/-- Whether two literals are the same to a table: equal as values, or both NaN. -/
def same : Value → Value → Bool
  | number x, number y => x.numEq y || (x.isNaN && y.isNaN)
  | boolean a, boolean b => a == b
  | _, _ => false

/-- Literals are the same to a table exactly if they share a canonical value. -/
theorem same_eq (u v : Value) : u.same v = (u.canonical == v.canonical) := by
  rw [Bool.eq_iff_iff, beq_iff_eq]
  cases u with
  | number x =>
    cases v with
    | number y =>
      rw [same, canonical, canonical, number.injEq, Number.canonical_eq_iff, Bool.or_eq_true,
        Bool.and_eq_true]
    | boolean b => simp [same, canonical]
  | boolean a =>
    cases v with
    | number y => simp [same, canonical]
    | boolean b => rw [same, canonical, canonical, beq_iff_eq, boolean.injEq]

/-- A canonical value reads like the value. -/
theorem text_canonical (v : Value) : v.canonical.text = v.text := by
  cases v with
  | number x => exact x.text_canonical
  | boolean b => rfl

end Value

end Backpatch
