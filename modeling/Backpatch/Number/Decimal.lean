import Backpatch.Number.Basic

/-!
# The decimal text of a number

`Number.shortest` is a decimal of fewest digits among those that read back as a given number, and
of those on its grid the nearest to it. A decimal reads back as a number if it lies between the
midpoints to the number's neighbours; the midpoints themselves belong to the numbers with an even
significand. The search goes from coarse to fine powers of ten and tests the two grid points around
the number in exact arithmetic, so that a finer grid is reached only when no coarser one has a
point that reads back. `Number.text` writes the decimal without an exponent, and
`readsBack_shortest` says that what it writes reads back.
-/

namespace Backpatch

/-- The decimal `digits * 10 ^ exponent`. -/
structure Decimal where
  /-- The digits, as a whole number. -/
  digits : Nat
  /-- The place of the last digit. -/
  exponent : Int
deriving DecidableEq, Repr

namespace Decimal

/-- The digits of a natural number, the highest first. -/
def natDigits (n : Nat) : List Char :=
  Nat.toDigits 10 n

/-- The digits of a number are digits. -/
theorem isDigit_of_mem_natDigits {n : Nat} {c : Char} (h : c ∈ natDigits n) : c.isDigit = true :=
  Nat.isDigit_of_mem_toDigits (by decide) (by decide) h

/-- There is at least one digit. -/
theorem exists_natDigits_eq_cons (n : Nat) : ∃ c cs, natDigits n = c :: cs ∧ c.isDigit = true := by
  have hne : natDigits n ≠ [] := List.ne_nil_of_length_pos Nat.length_toDigits_pos
  obtain ⟨c, cs, hcons⟩ := List.exists_cons_of_ne_nil hne
  exact ⟨c, cs, hcons, isDigit_of_mem_natDigits (hcons ▸ List.mem_cons_self)⟩

/-- A decimal without an exponent: a place above the units is filled with zeros, and a place below
them is set off by a point that has at least one digit before it. -/
def text (d : Decimal) : String :=
  let places := (-d.exponent).toNat
  if places = 0 then
    String.ofList (natDigits d.digits ++ List.replicate d.exponent.toNat '0')
  else
    let ds := (natDigits d.digits).leftpad (places + 1) '0'
    let whole := ds.length - places
    String.ofList (ds.take whole ++ '.' :: ds.drop whole)

end Decimal

namespace Number

/-- The distance to the next smaller magnitude, in units: half a step under a power of two that
has finer numbers below it. -/
def stepBelow (x : Number) : Nat :=
  if x.fraction.val = 0 ∧ 1 < x.exponent.val then x.step / 2 else x.step

/-- Whether a decimal reads back as the magnitude of `x`: it lies between the midpoints to the
neighbours of `x`, or on one of them if the significand of `x` is even. Both sides are scaled to
half units times a power of ten. -/
def readsBack (x : Number) (d : Decimal) : Bool :=
  let point := d.digits * Nat.pow 10 d.exponent.toNat * (2 * unitsPerOne)
  let scale := Nat.pow 10 (-d.exponent).toNat
  let low := (2 * x.units - x.stepBelow) * scale
  let high := (2 * x.units + x.step) * scale
  if x.fraction.val % 2 = 0 then
    decide (low ≤ point) && decide (point ≤ high)
  else
    decide (low < point) && decide (point < high)

/-- The point of the grid `10 ^ e` nearest to `x` among the two around it that read back as `x`,
the upper one at a tie. -/
def gridPoint? (x : Number) (e : Int) : Option Decimal :=
  let scaled := x.units * Nat.pow 10 (-e).toNat
  let cell := Nat.pow 10 e.toNat * unitsPerOne
  let below : Decimal := ⟨scaled / cell, e⟩
  let above : Decimal := ⟨scaled / cell + 1, e⟩
  match x.readsBack below, x.readsBack above with
  | true, true => some (if cell ≤ 2 * (scaled % cell) then above else below)
  | true, false => some below
  | false, true => some above
  | false, false => none

/-- A place `k` with the magnitude of `x` below `10 ^ k`, the least one or the next, for a finite `x`
other than zero. It follows the binary place of `x` by `30103 / 100000`, which is `log 2 / log 10`
as far as binary64 exponents can tell. -/
def decimalPlace (x : Number) : Int :=
  ((x.units.log2 : Int) + 1 - unitPlaces) * 30103 / 100000 + 1

/-- The magnitude of `x` as a decimal, to the last digit. -/
def exactDecimal (x : Number) : Decimal :=
  ⟨x.units * Nat.pow 5 unitPlaces, -unitPlaces⟩

/-- The decimal of fewest digits that reads back as the magnitude of `x`, for a finite `x` other
than zero. Seventeen digits always suffice; the exact decimal closes the search. -/
def shortest (x : Number) : Decimal :=
  ((List.range 19).findSome? fun (n : Nat) => x.gridPoint? (x.decimalPlace - n)).getD x.exactDecimal

/-- Whether `x` is a whole number less than `10 ^ 15` in magnitude. -/
def isShortInteger (x : Number) : Bool :=
  x.units % unitsPerOne == 0 && decide (x.units < Nat.pow 10 15 * unitsPerOne)

/-- The sign in front of a text. -/
def signText (x : Number) : String :=
  if x.negative then "-" else ""

/-- The text of a number: whole numbers below `10 ^ 15` as integers, so that both zeros are `0`,
other finite numbers by their shortest decimal, and the rest by name. -/
def text (x : Number) : String :=
  if x.isNaN then "NaN"
  else if x.isInfinite then x.signText ++ "inf"
  else if x.isZero then "0"
  else if x.isShortInteger then
    x.signText ++ String.ofList (Decimal.natDigits (x.units / unitsPerOne))
  else
    x.signText ++ x.shortest.text

/-! ## The shortest decimal reads back -/

/-- The distance to the next smaller magnitude is positive. -/
theorem stepBelow_pos (x : Number) : 0 < x.stepBelow := by
  unfold stepBelow step
  split
  · next h =>
    obtain ⟨k, hk⟩ : ∃ k, x.exponent.val - 1 = k + 1 := ⟨x.exponent.val - 2, by omega⟩
    rw [hk, Nat.pow_eq, Nat.pow_succ, Nat.mul_div_cancel _ (by decide)]
    exact Nat.two_pow_pos k
  · exact Nat.two_pow_pos _

/-- The distance to the next greater magnitude is positive. -/
theorem step_pos (x : Number) : 0 < x.step :=
  Nat.two_pow_pos _

/-- A decimal that is exactly a magnitude reads back as it, since it lies strictly between the
midpoints. -/
theorem readsBack_of_eq {x : Number} {d : Decimal} (hpos : 0 < x.units)
    (h : d.digits * Nat.pow 10 d.exponent.toNat * unitsPerOne =
      x.units * Nat.pow 10 (-d.exponent).toNat) : x.readsBack d = true := by
  have hscale : 0 < Nat.pow 10 (-d.exponent).toNat := Nat.pow_pos (by decide)
  have hpoint : d.digits * Nat.pow 10 d.exponent.toNat * (2 * unitsPerOne) =
      2 * x.units * Nat.pow 10 (-d.exponent).toNat := by
    rw [Nat.mul_left_comm, h, Nat.mul_assoc]
  have hlow : (2 * x.units - x.stepBelow) * Nat.pow 10 (-d.exponent).toNat <
      2 * x.units * Nat.pow 10 (-d.exponent).toNat := by
    have hbelow := x.stepBelow_pos
    exact Nat.mul_lt_mul_of_pos_right (by omega) hscale
  have hhigh : 2 * x.units * Nat.pow 10 (-d.exponent).toNat <
      (2 * x.units + x.step) * Nat.pow 10 (-d.exponent).toNat := by
    have habove := x.step_pos
    exact Nat.mul_lt_mul_of_pos_right (by omega) hscale
  unfold readsBack
  rw [hpoint]
  split
  · exact Bool.and_eq_true_iff.mpr ⟨decide_eq_true (Nat.le_of_lt hlow),
      decide_eq_true (Nat.le_of_lt hhigh)⟩
  · exact Bool.and_eq_true_iff.mpr ⟨decide_eq_true hlow, decide_eq_true hhigh⟩

/-- The exact decimal reads back. -/
theorem readsBack_exactDecimal {x : Number} (h : 0 < x.units) :
    x.readsBack x.exactDecimal = true := by
  have htens (k : Nat) : Nat.pow 5 k * Nat.pow 2 k = Nat.pow 10 k := (Nat.mul_pow 5 2 k).symm
  have hscale : Nat.pow 5 unitPlaces * unitsPerOne = Nat.pow 10 unitPlaces := by
    unfold unitsPerOne
    exact htens unitPlaces
  have hdown : (-(unitPlaces : Int)).toNat = 0 := by omega
  have hup : (- -(unitPlaces : Int)).toNat = unitPlaces := by omega
  refine readsBack_of_eq h ?_
  unfold exactDecimal
  rw [hdown, hup, ← hscale, ← Nat.mul_assoc]
  exact congrArg (· * unitsPerOne) (Nat.mul_one _)

/-- A point found on a grid reads back. -/
theorem readsBack_of_gridPoint? {x : Number} {e : Int} {d : Decimal}
    (h : x.gridPoint? e = some d) : x.readsBack d = true := by
  simp only [gridPoint?] at h
  split at h
  · split at h <;> simp_all
  · simp_all
  · simp_all
  · simp at h

/-- The decimal that the text is written from reads back as the number. -/
theorem readsBack_shortest {x : Number} (h : 0 < x.units) : x.readsBack x.shortest = true := by
  unfold shortest
  cases hfind : (List.range 19).findSome? fun (n : Nat) => x.gridPoint? (x.decimalPlace - n) with
  | none => exact readsBack_exactDecimal h
  | some d =>
    obtain ⟨n, -, hn⟩ := List.exists_of_findSome?_eq_some hfind
    exact readsBack_of_gridPoint? hn

end Number

end Backpatch
