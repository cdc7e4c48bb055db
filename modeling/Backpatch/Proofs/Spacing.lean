import Backpatch.Proofs.Equality

/-!
# How close numbers come

A decimal that reads back as a number reads back as no other of another magnitude
(`Number.units_eq_of_readsBack`). The decimals that read back lie between the midpoints to the
neighbours. Of two magnitudes the greater is at least a step of the smaller one away, and at least the
step below the greater one, so that the two intervals meet in one point at most. If they do, the
numbers are neighbours, and then one of the two significands is odd and its interval leaves the point
out.
-/

namespace Backpatch

namespace Number

variable {x y : Number}

/-- The smaller of two magnitudes does not have the greater exponent. -/
theorem exponent_le_of_units_lt (h : x.units < y.units) : x.exponent.val ≤ y.exponent.val := by
  refine Nat.le_of_not_lt fun hlt => ?_
  exact Nat.lt_asymm h (units_lt_units hlt)

/-- A greater magnitude is at least a step away. -/
theorem units_add_step_le (h : x.units < y.units) : x.units + x.step ≤ y.units := by
  rcases Nat.lt_or_eq_of_le (exponent_le_of_units_lt h) with hlt | heq
  · calc x.units + x.step
      _ ≤ 2 ^ (52 + x.exponent.val) := x.units_add_step_le_pow
      _ ≤ y.origin := pow_le_origin hlt
      _ ≤ y.units := y.origin_le_units
  · -- With the same exponent the fraction is greater by at least one.
    obtain ⟨hstep, horigin⟩ := of_exponent_eq heq
    rw [units_eq, units_eq, hstep, horigin] at h
    have hfraction : x.fraction.val < y.fraction.val :=
      Nat.lt_of_mul_lt_mul_right (Nat.lt_of_add_lt_add_left h)
    calc x.units + x.step
      _ = y.origin + (x.fraction.val + 1) * y.step := by
        rw [units_add_step_eq, hstep, horigin]
      _ ≤ y.origin + y.fraction.val * y.step :=
        Nat.add_le_add_left (Nat.mul_le_mul_right _ hfraction) _
      _ = y.units := (units_eq y).symm

/-- Under a power of two that has finer numbers below it, the step below is that of the exponent
before. -/
theorem stepBelow_of_pow {k : Nat} (hfraction : y.fraction.val = 0) (hexponent : y.exponent.val = k + 2) :
    y.stepBelow = 2 ^ k := by
  have hstep : y.step = 2 ^ k * 2 := by
    unfold step
    rw [hexponent]
    exact Nat.pow_succ 2 k
  unfold stepBelow
  rw [if_pos ⟨hfraction, by omega⟩, hstep, Nat.mul_div_cancel _ (by decide)]

/-- A number of a smaller exponent is at least the step below away from a power of two. -/
theorem units_add_stepBelow_le_of_pow (hlt : x.exponent.val < y.exponent.val)
    (hpow : y.fraction.val = 0 ∧ 1 < y.exponent.val) : x.units + y.stepBelow ≤ y.units := by
  obtain ⟨k, hk⟩ : ∃ k, y.exponent.val = k + 2 := ⟨y.exponent.val - 2, by omega⟩
  have habove := units_add_step_le (units_lt_units hlt)
  rw [stepBelow_of_pow hpow.1 hk]
  by_cases hbefore : x.exponent.val = k + 1
  · -- The exponent before: the step below `y` is the step of `x`.
    have hstep : x.step = 2 ^ k := by
      unfold step
      rw [hbefore]
      rfl
    omega
  · -- A smaller one still: both `x` and the step are at most half of `y`.
    have hx : x.units < 2 ^ (52 + k) :=
      Nat.lt_of_lt_of_le x.units_lt (Nat.pow_le_pow_right (by decide) (by omega))
    have hstep : 2 ^ k ≤ 2 ^ (52 + k) := Nat.pow_le_pow_right (by decide) (by omega)
    have hy : 2 ^ (52 + k) * 2 ≤ y.units := by
      have horigin := origin_of_pos (x := y) (by omega)
      have hplaces : 52 + (y.exponent.val - 1) = 52 + k + 1 := by omega
      rw [hplaces, Nat.pow_succ] at horigin
      exact horigin ▸ y.origin_le_units
    omega

/-- A number of a smaller exponent is at least a step away from one that is no power of two. -/
theorem units_add_step_le_of_not_pow (hlt : x.exponent.val < y.exponent.val)
    (hpow : ¬(y.fraction.val = 0 ∧ 1 < y.exponent.val)) : x.units + y.step ≤ y.units := by
  by_cases hfraction : y.fraction.val = 0
  · -- The least number with an exponent has the step of those without one below it.
    have hstep : y.step = 1 := by
      have hone : y.exponent.val = 1 := by omega
      unfold step
      rw [hone]
    have := units_lt_units hlt
    omega
  · have hx : x.units < y.origin := Nat.lt_of_lt_of_le x.units_lt (pow_le_origin hlt)
    have hstep : y.step ≤ y.fraction.val * y.step := Nat.le_mul_of_pos_left _ (by omega)
    have hy := y.units_eq
    omega

/-- A smaller magnitude is at least the step below away. -/
theorem units_add_stepBelow_le (h : x.units < y.units) : x.units + y.stepBelow ≤ y.units := by
  rcases Nat.lt_or_eq_of_le (exponent_le_of_units_lt h) with hlt | heq
  · by_cases hpow : y.fraction.val = 0 ∧ 1 < y.exponent.val
    · exact units_add_stepBelow_le_of_pow hlt hpow
    · have hbelow : y.stepBelow = y.step := if_neg hpow
      rw [hbelow]
      exact units_add_step_le_of_not_pow hlt hpow
  · have hbelow : y.stepBelow ≤ y.step := by
      unfold stepBelow
      split
      · exact Nat.div_le_self _ _
      · exact Nat.le_refl _
    have hstep := (of_exponent_eq heq).1
    have habove := units_add_step_le h
    omega

/-- Of two neighbours one has an even and one an odd significand. -/
theorem fraction_mod_two_of_next (h : x.units + x.step = y.units) :
    x.fraction.val % 2 ≠ y.fraction.val % 2 := by
  have hpos := x.step_pos
  have hx := x.units_add_step_eq
  have hy := y.units_eq
  have hle := exponent_le_of_units_lt (x := x) (y := y) (by omega)
  rcases Nat.lt_or_eq_of_le hle with hlt | heq
  · -- The last number of an exponent has all bits of its fraction set, and the first one has none.
    have hend := x.origin_add_steps
    have hbegin := pow_le_origin hlt
    have hmost := x.units_add_step_le_pow
    have hlast : (x.fraction.val + 1) * x.step = 2 ^ 52 * x.step := by omega
    have hfirst : y.fraction.val * y.step = 0 := by omega
    have hset := Nat.eq_of_mul_eq_mul_right hpos hlast
    have hclear : y.fraction.val = 0 :=
      (Nat.mul_eq_zero.mp hfirst).resolve_right (Nat.ne_of_gt y.step_pos)
    omega
  · obtain ⟨hstep, horigin⟩ := of_exponent_eq heq
    have hnext : (x.fraction.val + 1) * x.step = y.fraction.val * x.step := by
      rw [← hstep, ← horigin] at hy
      omega
    have hfraction := Nat.eq_of_mul_eq_mul_right hpos hnext
    omega

/-! ## What a decimal reads back as -/

/-- A decimal that reads back lies between the midpoints, and on neither if the significand is odd. -/
theorem bounds_of_readsBack {d : Decimal} (h : x.readsBack d = true) :
    (2 * x.units - x.stepBelow) * 10 ^ (-d.exponent).toNat ≤
        d.digits * 10 ^ d.exponent.toNat * (2 * unitsPerOne) ∧
      d.digits * 10 ^ d.exponent.toNat * (2 * unitsPerOne) ≤
        (2 * x.units + x.step) * 10 ^ (-d.exponent).toNat ∧
      (x.fraction.val % 2 = 1 →
        (2 * x.units - x.stepBelow) * 10 ^ (-d.exponent).toNat <
          d.digits * 10 ^ d.exponent.toNat * (2 * unitsPerOne) ∧
        d.digits * 10 ^ d.exponent.toNat * (2 * unitsPerOne) <
          (2 * x.units + x.step) * 10 ^ (-d.exponent).toNat) := by
  unfold readsBack at h
  split at h
  · next heven =>
    rw [Bool.and_eq_true, decide_eq_true_eq, decide_eq_true_eq] at h
    exact ⟨h.1, h.2, fun hodd => by omega⟩
  · rw [Bool.and_eq_true, decide_eq_true_eq, decide_eq_true_eq] at h
    exact ⟨Nat.le_of_lt h.1, Nat.le_of_lt h.2, fun _ => h⟩

/-- No decimal reads back as two magnitudes. -/
theorem not_readsBack_of_units_lt {d : Decimal} (hlt : x.units < y.units)
    (hx : x.readsBack d = true) : ¬ y.readsBack d = true := by
  intro hy
  obtain ⟨-, hhigh, hodd⟩ := bounds_of_readsBack hx
  obtain ⟨hlow, -, hodd'⟩ := bounds_of_readsBack hy
  have hscale : 0 < 10 ^ (-d.exponent).toNat := Nat.pow_pos (by decide)
  have habove := units_add_step_le hlt
  have hbelow := units_add_stepBelow_le hlt
  -- The upper midpoint of `x` is not above the lower one of `y`, and the decimal is between them.
  have hmeet : 2 * y.units - y.stepBelow ≤ 2 * x.units + x.step :=
    Nat.le_of_mul_le_mul_right (Nat.le_trans hlow hhigh) hscale
  have hparity := fraction_mod_two_of_next (x := x) (y := y) (by omega)
  have heq : 2 * y.units - y.stepBelow = 2 * x.units + x.step := by omega
  rw [heq] at hlow hodd'
  rcases Nat.mod_two_eq_zero_or_one x.fraction.val with hzero | hone
  · have := (hodd' (by omega)).1
    omega
  · have := (hodd hone).2
    omega

/-- A decimal reads back as one magnitude at most. -/
theorem units_eq_of_readsBack {d : Decimal} (hx : x.readsBack d = true) (hy : y.readsBack d = true) :
    x.units = y.units := by
  rcases Nat.lt_trichotomy x.units y.units with hlt | heq | hgt
  · exact absurd hy (not_readsBack_of_units_lt hlt hx)
  · exact heq
  · exact absurd hx (not_readsBack_of_units_lt hgt hy)

end Number

end Backpatch
