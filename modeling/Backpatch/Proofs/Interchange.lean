import Backpatch.Machine
import Mathlib.Algebra.Group.Nat.Defs

/-!
# Values that operators do not tell apart

A NaN carries bits that hardly any operation looks at. Machine floats have one NaN
(`Number.toFloat_of_isNaN`), and equality, order and remainder only ask whether a number is a NaN. So
NaNs of one kind, signaling or quiet, can stand for each other: every operator gives the same on them
(`Value.applyBinary_congr`), up to the sign of a NaN that is negated (`Value.applyUnary_congr`). The kind
counts, since a power does tell a signaling NaN from a quiet one.
-/

namespace Backpatch

namespace Number

open Float.Model

variable {x x' y y' : Number}

/-- The bits of a NaN: all of its exponent is set, and some of its fraction. -/
theorem toNat_toBits_of_isNaN (h : x.isNaN = true) :
    ∃ sign fraction, sign < 2 ∧ 0 < fraction ∧ fraction < 2 ^ 52 ∧
      x.toBits.toBitVec.toNat = sign * 2 ^ 63 + 2047 * 2 ^ 52 + fraction := by
  unfold isNaN at h
  rw [Bool.and_eq_true, beq_iff_eq, bne_iff_ne] at h
  have hlt : x.fraction.val < 2 ^ 52 := x.fraction.isLt
  refine ⟨if x.negative then 1 else 0, x.fraction.val, ?_, Nat.pos_of_ne_zero h.2, hlt, ?_⟩
  · split <;> decide
  · rw [toBits, UInt64.toNat_toBitVec, UInt64.toNat_ofNat', h.1]
    generalize x.fraction.val = fraction at hlt ⊢
    simp only [Nat.pow_eq]
    split <;> omega

/-- The bits of a NaN are unpacked as the one NaN that there is. -/
theorem unpack_of_isNaN (h : x.isNaN = true) :
    UnpackedFloat.unpack Format.binary64 x.toBits.toBitVec = .notANumber := by
  obtain ⟨sign, fraction, hsign, hpos, hlt, hbits⟩ := toNat_toBits_of_isNaN h
  -- All bits of the exponent are set, and some bit of the fraction is.
  have hexponent : @UnpackedFloat.unpackExponent Format.binary64 x.toBits.toBitVec = -1#_ := by
    apply BitVec.eq_of_toNat_eq
    rw [UnpackedFloat.unpackExponent, BitVec.toNat_cast, BitVec.extractLsb_toNat,
      Nat.shiftRight_eq_div_pow, hbits]
    show (sign * 2 ^ 63 + 2047 * 2 ^ 52 + fraction) / 2 ^ 52 % 2 ^ 11 = 2047
    omega
  have hmantissa : @UnpackedFloat.unpackMantissa Format.binary64 x.toBits.toBitVec ≠ 0#_ := by
    intro hzero
    have hzero := congrArg BitVec.toNat hzero
    rw [UnpackedFloat.unpackMantissa, BitVec.toNat_cast, BitVec.extractLsb_toNat,
      Nat.shiftRight_eq_div_pow, hbits] at hzero
    have hmod : (sign * 2 ^ 63 + 2047 * 2 ^ 52 + fraction) / 2 ^ 0 %
        2 ^ 52 = 0 := hzero
    omega
  unfold UnpackedFloat.unpack
  dsimp only
  rw [if_pos hexponent, if_neg hmantissa]

/-- All NaNs are one machine float. -/
theorem toFloat_of_isNaN (h : x.isNaN = true) : x.toFloat = nan.toFloat := by
  unfold toFloat Float.ofBits Float.Model.ofBits
  rw [unpack_of_isNaN h, unpack_of_isNaN rfl]

/-- Numbers that are the same, or NaNs of the same kind. -/
def Interchangeable (x y : Number) : Prop :=
  x = y ∨ x.isNaN = true ∧ y.isNaN = true ∧ x.isSignaling = y.isSignaling

/-- It can be decided whether numbers can stand for each other. -/
instance (x y : Number) : Decidable (x.Interchangeable y) :=
  inferInstanceAs (Decidable (_ ∨ _))

namespace Interchangeable

/-- A number can stand for itself. -/
theorem refl (x : Number) : x.Interchangeable x :=
  .inl rfl

/-- Numbers stand for each other both ways. -/
theorem symm (h : x.Interchangeable y) : y.Interchangeable x :=
  h.imp Eq.symm fun ⟨hx, hy, hkind⟩ => ⟨hy, hx, hkind.symm⟩

/-- They are signaling both or neither. -/
theorem isSignaling_eq (h : x.Interchangeable y) : x.isSignaling = y.isSignaling := by
  obtain rfl | ⟨-, -, hkind⟩ := h
  · rfl
  · exact hkind

/-- They are the same machine float. -/
theorem toFloat_eq (h : x.Interchangeable y) : x.toFloat = y.toFloat := by
  obtain rfl | ⟨hx, hy, -⟩ := h
  · rfl
  · rw [toFloat_of_isNaN hx, toFloat_of_isNaN hy]

/-- They are zero both or neither. -/
theorem isZero_eq (h : x.Interchangeable y) : x.isZero = y.isZero := by
  obtain rfl | ⟨hx, hy, -⟩ := h
  · rfl
  · unfold isNaN at hx hy
    rw [Bool.and_eq_true, beq_iff_eq] at hx hy
    rw [isZero, isZero, hx.1, hy.1]
    rfl

/-- The sign is no part of the kind of a NaN. -/
theorem neg (h : x.Interchangeable y) : x.neg.Interchangeable y.neg := by
  obtain rfl | h := h
  · exact refl _
  · exact .inr h

/-- A function that gives the same wherever there is a NaN. -/
theorem congr {α : Type} {f : Number → Number → α} {c : α}
    (hf : ∀ x y, x.isNaN = true ∨ y.isNaN = true → f x y = c) (hx : x.Interchangeable x')
    (hy : y.Interchangeable y') : f x y = f x' y' := by
  obtain rfl | ⟨hx, hx', -⟩ := hx
  · obtain rfl | ⟨hy, hy', -⟩ := hy
    · rfl
    · rw [hf _ _ (.inr hy), hf _ _ (.inr hy')]
  · rw [hf _ _ (.inl hx), hf _ _ (.inl hx')]

/-- They are equal to the same numbers. -/
theorem numEq_eq (hx : x.Interchangeable x') (hy : y.Interchangeable y') :
    x.numEq y = x'.numEq y' :=
  congr (c := false) (fun _ _ h => by rcases h with h | h <;> simp [numEq, h]) hx hy

/-- They are less than the same numbers. -/
theorem numLt_eq (hx : x.Interchangeable x') (hy : y.Interchangeable y') :
    x.numLt y = x'.numLt y' :=
  congr (c := false) (fun _ _ h => by rcases h with h | h <;> simp [numLt, h]) hx hy

/-- They are at most the same numbers. -/
theorem numLe_eq (hx : x.Interchangeable x') (hy : y.Interchangeable y') :
    x.numLe y = x'.numLe y' :=
  congr (c := false) (fun _ _ h => by rcases h with h | h <;> simp [numLe, h]) hx hy

/-- They leave the same remainders. -/
theorem rem_eq (hx : x.Interchangeable x') (hy : y.Interchangeable y') : x.rem y = x'.rem y' :=
  congr (c := nan) (fun _ _ h => by rcases h with h | h <;> simp [rem, h]) hx hy

/-- They have the same powers, which do depend on the kind of a NaN. -/
theorem pow_eq (hx : x.Interchangeable x') (hy : y.Interchangeable y') : x.pow y = x'.pow y' := by
  rw [pow, pow, hx.isSignaling_eq, hy.isSignaling_eq, hx.toFloat_eq, hy.toFloat_eq]

end Interchangeable

end Number

namespace Value

/-- Values that are the same, or NaNs of the same kind. -/
inductive Interchangeable : Value → Value → Prop where
  /-- Numbers that can stand for each other. -/
  | number {x y : Number} (h : x.Interchangeable y) : Interchangeable (number x) (number y)
  /-- The same truth value. -/
  | boolean (b : Bool) : Interchangeable (boolean b) (boolean b)

/-- Numbers can stand for each other as values exactly if they can as numbers. -/
theorem interchangeable_number_iff {x y : Number} :
    (number x).Interchangeable (number y) ↔ x.Interchangeable y :=
  ⟨fun h => by cases h; assumption, .number⟩

/-- It can be decided whether values can stand for each other. -/
instance : (v w : Value) → Decidable (v.Interchangeable w)
  | number _, number _ => decidable_of_iff _ interchangeable_number_iff.symm
  | boolean a, boolean b =>
    if h : a = b then isTrue (h ▸ .boolean a) else isFalse fun h' => by cases h'; exact h rfl
  | number _, boolean _ => isFalse fun h => by cases h
  | boolean _, number _ => isFalse fun h => by cases h

/-- The value, with one NaN for all of them. -/
def oneNaN : Value → Value
  | number x => if x.isNaN then number .nan else number x
  | boolean b => boolean b

namespace Interchangeable

variable {v v' w w' : Value}

/-- A value can stand for itself. -/
theorem refl (v : Value) : v.Interchangeable v := by
  cases v with
  | number x => exact .number (.refl x)
  | boolean b => exact .boolean b

/-- Values stand for each other both ways. -/
theorem symm (h : v.Interchangeable w) : w.Interchangeable v := by
  cases h with
  | number h => exact .number h.symm
  | boolean b => exact .boolean b

/-- They are the same up to NaNs. -/
theorem oneNaN_eq (h : v.Interchangeable w) : v.oneNaN = w.oneNaN := by
  cases h with
  | number h =>
    obtain rfl | ⟨hx, hy, -⟩ := h
    · rfl
    · rw [oneNaN, oneNaN, if_pos hx, if_pos hy]
  | boolean b => rfl

/-- They are true both or neither. -/
theorem truthy_eq (h : v.Interchangeable w) : v.truthy = w.truthy := by
  cases h with
  | number h => rw [truthy, truthy, h.isZero_eq]
  | boolean b => rfl

/-- They are equal to the same values. -/
theorem numEq_eq (h : v.Interchangeable v') (h' : w.Interchangeable w') :
    v.numEq w = v'.numEq w' := by
  cases h with
  | number h =>
    cases h' with
    | number h' => exact h.numEq_eq h'
    | boolean b => rfl
  | boolean a =>
    cases h' with
    | number h' => rfl
    | boolean b => rfl

end Interchangeable

variable {left left' right right' : Value}

/-- A function of numbers that does not tell them apart does not tell values apart. -/
theorem onNumbers_congr {f : Number → Number → Value}
    (hf : ∀ {x x' y y'}, Number.Interchangeable x x' → Number.Interchangeable y y' → f x y = f x' y')
    (hleft : left.Interchangeable left') (hright : right.Interchangeable right') :
    onNumbers f left right = onNumbers f left' right' := by
  cases hleft with
  | number hx =>
    cases hright with
    | number hy => exact congrArg Except.ok (hf hx hy)
    | boolean b => rfl
  | boolean a => rfl

/-- A binary operator gives the same on values that can stand for each other. -/
theorem applyBinary_congr (op : BinaryOp) (hleft : left.Interchangeable left')
    (hright : right.Interchangeable right') :
    applyBinary op left right = applyBinary op left' right' := by
  cases op with
  | or => rw [applyBinary, applyBinary, hleft.truthy_eq, hright.truthy_eq]
  | and => rw [applyBinary, applyBinary, hleft.truthy_eq, hright.truthy_eq]
  | eq => rw [applyBinary, applyBinary, hleft.numEq_eq hright]
  | ne => rw [applyBinary, applyBinary, hleft.numEq_eq hright]
  | le => exact onNumbers_congr (fun hx hy => congrArg boolean (hx.numLe_eq hy)) hleft hright
  | lt => exact onNumbers_congr (fun hx hy => congrArg boolean (hx.numLt_eq hy)) hleft hright
  | ge => exact onNumbers_congr (fun hx hy => congrArg boolean (hy.numLe_eq hx)) hleft hright
  | gt => exact onNumbers_congr (fun hx hy => congrArg boolean (hy.numLt_eq hx)) hleft hright
  | rem => exact onNumbers_congr (fun hx hy => congrArg number (hx.rem_eq hy)) hleft hright
  | pow => exact onNumbers_congr (fun hx hy => congrArg number (hx.pow_eq hy)) hleft hright
  | add | sub | mul | div =>
    refine onNumbers_congr (fun hx hy => congrArg (number ∘ Number.ofFloat) ?_) hleft hright
    rw [hx.toFloat_eq, hy.toFloat_eq]

/-- A unary operator gives values that can stand for each other on such values. -/
theorem applyUnary_congr (op : UnaryOp) (h : left.Interchangeable left') {v : Value}
    (hv : left.applyUnary op = .ok v) :
    ∃ v', left'.applyUnary op = .ok v' ∧ v.Interchangeable v' := by
  cases op with
  | not =>
    cases hv
    exact ⟨_, rfl, h.truthy_eq ▸ .refl _⟩
  | negate =>
    cases h with
    | number h =>
      cases hv
      exact ⟨_, rfl, .number h.neg⟩
    | boolean b => cases hv

end Value

end Backpatch
