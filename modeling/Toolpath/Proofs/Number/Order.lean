import Mathlib
import Toolpath.Number.Scalar

/-!
# The order of finite doubles

Doubles are compared by the machine, and what is no number is neither less nor greater than
anything, so the order of doubles is no linear order. But the comparison of numbers looks at the
sign, then at the exponent, then at the mantissa. `Double.rank` makes a triple of these, which count
the other way below zero, and triples are ordered linearly. Only the bits say whether a double is a
finite number, so it has to be shown first that the machine unpacks such a number from them. That a
product with zero is a zero follows from the same.

## Main definitions

* `Scalar.RankedBy` — finite numbers are compared by their ranks
* `Double.rank` — the rank of a double

## Main results

* `Double.isFinite_unpack` — the bits of a finite number are those of a finite number
* `Double.rankedBy_rank` — finite doubles are ordered linearly
-/

namespace Toolpath

/-- Finite numbers are compared by their ranks in a linear order. -/
def Scalar.RankedBy {R K : Type} [Scalar R] [LinearOrder K] (rank : R → K) : Prop :=
  ∀ a b : R, Scalar.finite a = true → Scalar.finite b = true → (a < b ↔ rank a < rank b)

open Float.Model

namespace Double

/-! ### Numbers are unpacked from numbers -/

/-- The exponent of a finite number is not all ones, which is how what is no number is told. -/
theorem unpackExponent_ne {x : Double} (hx : x.isFinite = true) :
    @UnpackedFloat.unpackExponent .binary64 x.bits.toBitVec ≠ -1#_ := by
  intro h
  have hexponent : x.bits.toNat >>> 52 % 2048 = 2047 := by
    simpa [UnpackedFloat.unpackExponent] using congrArg BitVec.toNat h
  have hmagnitude : (x.bits &&& magnitudeMask).toNat = x.bits.toNat % 0x8000000000000000 :=
    Nat.and_two_pow_sub_one_eq_mod x.bits.toNat 63
  have hfinite : (x.bits &&& magnitudeMask).toNat < 0x7FF0000000000000 :=
    UInt64.lt_iff_toNat_lt.mp (of_decide_eq_true hx)
  rw [Nat.shiftRight_eq_div_pow] at hexponent
  omega

/-- **The bits of a finite number are those of a finite number** for the machine. -/
theorem isFinite_unpack {x : Double} (hx : x.isFinite = true) :
    x.value.toModel.unpack.isFinite = true := by
  have hexponent := unpackExponent_ne hx
  have hbits : @UnpackedFloat.isNaNBits .binary64 x.bits.toBitVec = false :=
    decide_eq_false fun h => hexponent h.1
  have hpack := @UnpackedFloat.pack_unpack .binary64 x.bits.toBitVec (by decide)
  rw [hbits, if_neg Bool.false_ne_true] at hpack
  show (UnpackedFloat.unpack .binary64 (UnpackedFloat.pack .binary64
    (UnpackedFloat.unpack .binary64 x.bits.toBitVec))).isFinite = true
  rw [hpack, UnpackedFloat.unpack]
  dsimp only
  rw [if_neg hexponent]
  split_ifs <;> rfl

theorem isNaN_unpack {x : Double} (hx : x.isFinite = true) :
    x.value.toModel.unpack.isNaN = false := by
  have hfinite := isFinite_unpack hx
  cases hu : x.value.toModel.unpack with
  | notANumber =>
    rw [hu] at hfinite
    cases hfinite
  | _ => rfl

/-- A finite number multiplied by zero is a zero. -/
theorem zero_mul_of_isFinite {x : Double} (hx : x.isFinite = true) :
    (0 : Double) * x = 0 ∨ (0 : Double) * x = -0 := by
  have hzero : (0 : Double).value.toModel.unpack = .zero .positive := by rfl
  have hproduct : ∃ s,
      UnpackedFloat.mul .binary64 (.zero .positive) x.value.toModel.unpack = .zero s := by
    have hfinite := isFinite_unpack hx
    cases hu : x.value.toModel.unpack with
    | zero s => exact ⟨_, rfl⟩
    | finite s m e hm => exact ⟨_, rfl⟩
    | _ =>
      rw [hu] at hfinite
      cases hfinite
  obtain ⟨s, hs⟩ := hproduct
  have hmul : Float.mul (0 : Double).value x.value = ⟨Float.Model.pack (.zero s)⟩ := by
    rw [← hs, ← hzero]
    rfl
  show combine Float.mul 0 x = 0 ∨ combine Float.mul 0 x = -0
  unfold combine
  rw [hmul]
  cases s with
  | positive =>
    rw [if_pos (by decide +kernel)]
    exact .inl (by decide +kernel)
  | negative =>
    rw [if_pos (by decide +kernel)]
    exact .inr (by decide +kernel)

/-! ### Ranks -/

/-- The rank of a number as it is unpacked: its sign, its exponent and its mantissa. The two zeros
have the same rank. -/
def unpackedRank : UnpackedFloat → ℤ ×ₗ ℤ ×ₗ ℤ
  | .infinity .positive => toLex (2, toLex (0, 0))
  | .finite .positive m e _ => toLex (1, toLex (e, (m : ℤ)))
  | .zero _ | .notANumber => toLex (0, toLex (0, 0))
  | .finite .negative m e _ => toLex (-1, toLex (-e, -(m : ℤ)))
  | .infinity .negative => toLex (-2, toLex (0, 0))

theorem toLex_lt_iff {s t e f m n : ℤ} :
    (toLex (s, toLex (e, m)) : ℤ ×ₗ ℤ ×ₗ ℤ) < toLex (t, toLex (f, n)) ↔
      s < t ∨ s = t ∧ (e < f ∨ e = f ∧ m < n) := by
  rw [Prod.Lex.toLex_lt_toLex, Prod.Lex.toLex_lt_toLex]

theorem unpacked_lt_iff {a b : UnpackedFloat} (ha : a.isNaN = false) (hb : b.isNaN = false) :
    a.lt b = true ↔ unpackedRank a < unpackedRank b := by
  rw [UnpackedFloat.lt, beq_iff_eq]
  cases a with
  | notANumber => cases ha
  | infinity s =>
    cases b with
    | notANumber => cases hb
    | infinity t => cases s <;> cases t <;> simp [UnpackedFloat.compare, unpackedRank] <;> decide
    | zero t => cases s <;> simp [UnpackedFloat.compare, unpackedRank] <;> decide
    | finite t n f h =>
      cases s <;> cases t <;> simp [UnpackedFloat.compare, unpackedRank, toLex_lt_iff]
  | zero s =>
    cases b with
    | notANumber => cases hb
    | infinity t => cases t <;> simp [UnpackedFloat.compare, unpackedRank] <;> decide
    | zero t => simp [UnpackedFloat.compare, unpackedRank]
    | finite t n f h => cases t <;> simp [UnpackedFloat.compare, unpackedRank, toLex_lt_iff]
  | finite s m e h =>
    cases b with
    | notANumber => cases hb
    | infinity t =>
      cases s <;> cases t <;> simp [UnpackedFloat.compare, unpackedRank, toLex_lt_iff]
    | zero t => cases s <;> simp [UnpackedFloat.compare, unpackedRank, toLex_lt_iff]
    | finite t n f h' =>
      -- of two numbers below zero the one of the greater magnitude is less
      cases s <;> cases t <;>
        simp [UnpackedFloat.compare, unpackedRank, toLex_lt_iff, Ordering.then_eq_lt,
          Ordering.then_eq_gt, compare_lt_iff_lt, compare_gt_iff_gt]

/-- The rank of a double. -/
def rank (x : Double) : ℤ ×ₗ ℤ ×ₗ ℤ := unpackedRank x.value.toModel.unpack

/-- **Finite doubles are ordered linearly**, by their ranks. -/
theorem rankedBy_rank : Scalar.RankedBy rank := by
  intro x y hx hy
  have hlt : x < y ↔ x.value.toModel.unpack.lt y.value.toModel.unpack = true :=
    decide_eq_true_iff (p := x.value.toModel < y.value.toModel)
  exact hlt.trans (unpacked_lt_iff (isNaN_unpack hx) (isNaN_unpack hy))

end Double

end Toolpath
