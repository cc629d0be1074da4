import Toolpath.Proofs.Number.Exact

/-!
# Accumulated marks

A path is walked in steps: a mark is moved on by a step as long as it lies below a bound. The loop
has no limit of its own, and the list of its marks is computed with fuel. `Scalar.Accumulates` is
the loop without fuel, as a relation that holds only where the loop ends.

In exact arithmetic the marks are multiples of the step, and a multiple lies below the bound exactly
if its factor lies below their quotient. So the loop ends if the step is positive, and the fuel is
enough for it. A multiple that reaches the bound is no mark, so that none is left where the bound is
the first multiple.

## Main definitions

* `Scalar.Accumulates` — the loop from a mark on, with the marks that it meets

## Main results

* `Scalar.Accumulates.marksFrom` — the fuel does not matter where the loop ends
* `Exact.accumulates` — the loop ends in exact arithmetic, and meets the multiples
* `Exact.marks_eq` — the marks are the multiples of the step that lie below the bound
-/

namespace Toolpath

namespace Scalar

variable {R : Type} [Scalar R] {step bound mark : R} {ms ns : List R}

/-- A mark is moved on by a step until it does not lie below the bound. -/
inductive Accumulates (step bound : R) : R → List R → Prop where
  /-- The bound is reached. -/
  | stop {mark : R} (h : ¬ mark < bound) : Accumulates step bound mark []
  /-- The mark lies below the bound and is moved on. -/
  | go {mark : R} {ms : List R} (h : mark < bound)
    (rest : Accumulates step bound (mark + step) ms) : Accumulates step bound mark (mark :: ms)

/-- A loop that ends has one course. -/
theorem Accumulates.unique (h : Accumulates step bound mark ms)
    (h' : Accumulates step bound mark ns) : ms = ns := by
  induction h generalizing ns with
  | stop hstop =>
    cases h' with
    | stop => rfl
    | go hgo => exact absurd hgo hstop
  | go hgo _ ih =>
    cases h' with
    | stop hstop => exact absurd hgo hstop
    | go _ rest => rw [ih rest]

/-- **The fuel does not matter where the loop ends**, if there is a unit for every mark. -/
theorem Accumulates.marksFrom (h : Accumulates step bound mark ms) {fuel : Nat}
    (hfuel : ms.length ≤ fuel) : Scalar.marksFrom step bound fuel mark [] = ms := by
  induction h generalizing fuel with
  | stop hstop =>
    cases fuel with
    | zero => rfl
    | succ fuel => exact if_neg hstop
  | go hgo _ ih =>
    cases fuel with
    | zero => cases hfuel
    | succ fuel =>
      rw [Scalar.marksFrom, if_pos hgo, marksFrom_eq_append, ih (Nat.le_of_succ_le_succ hfuel)]
      rfl

end Scalar

namespace Exact

variable {K : Type} [Field K] [LinearOrder K] [IsStrictOrderedRing K] [FloorRing K] {step bound : K}

/-- The multiples of a step after the first `j`, `n` in number. -/
def multiples (step : K) (j n : Nat) : List K :=
  (List.range' (j + 1) n).map fun k : Nat => (k : K) * step

/-- The loop from a multiple on. -/
theorem accumulates_from (hstep : 0 < step) {j n : Nat} (hn : ⌈bound / step⌉₊ - 1 - j = n) :
    Scalar.Accumulates step bound (((j + 1 : ℕ) : K) * step) (multiples step j n) := by
  have hbelow (k : Nat) : (k : K) * step < bound ↔ k < ⌈bound / step⌉₊ := by
    rw [Nat.lt_ceil, lt_div_iff₀ hstep]
  induction n generalizing j with
  | zero => exact .stop fun hlt => by have := (hbelow _).mp hlt; omega
  | succ n ih =>
    have hnext : ((j + 1 : ℕ) : K) * step + step = ((j + 1 + 1 : ℕ) : K) * step := by
      rw [Nat.cast_succ (j + 1), add_one_mul]
    refine .go ((hbelow _).mpr (by omega)) ?_
    show Scalar.Accumulates step bound (((j + 1 : ℕ) : K) * step + step) _
    rw [hnext]
    exact ih (by omega)

/-- **The loop ends in exact arithmetic**, and meets the multiples below the bound. -/
theorem accumulates (hstep : 0 < step) (bound : K) :
    Scalar.Accumulates step bound step (multiples step 0 (⌈bound / step⌉₊ - 1)) := by
  have hfrom : Scalar.Accumulates step bound (((0 + 1 : ℕ) : K) * step)
      (multiples step 0 (⌈bound / step⌉₊ - 1 - 0)) := accumulates_from hstep rfl
  rwa [Nat.zero_add, Nat.cast_one, one_mul, Nat.sub_zero] at hfrom

/-- **The marks are the multiples of the step that lie below the bound.** -/
theorem marks_eq (hstep : 0 < step) (bound : K) :
    Scalar.marks step bound = multiples step 0 (⌈bound / step⌉₊ - 1) := by
  have hroom : Scalar.toNat (Scalar.ceil (bound / step)) = ⌈bound / step⌉₊ :=
    (congrArg Int.toNat (Int.floor_intCast _)).trans (Int.ceil_toNat _)
  refine (accumulates hstep bound).marksFrom ?_
  rw [multiples, List.length_map, List.length_range', hroom]
  omega

/-- Marks may be measured in another unit. -/
theorem marks_div (hstep : 0 < step) {unit : K} (hunit : 0 < unit) (bound : K) :
    Scalar.marks (step / unit) bound = (Scalar.marks step (unit * bound)).map (· / unit) := by
  have hquotient : bound / (step / unit) = unit * bound / step := by
    rw [div_div_eq_mul_div, mul_comm]
  rw [marks_eq (div_pos hstep hunit), marks_eq hstep, multiples, multiples, List.map_map, hquotient]
  exact List.map_congr_left fun k _ => (mul_div_assoc _ _ _).symm

/-- The loop that the marks are computed by ends. -/
theorem accumulates_marks (hstep : 0 < step) (bound : K) :
    Scalar.Accumulates step bound step (Scalar.marks step bound) :=
  marks_eq hstep bound ▸ accumulates hstep bound

end Exact

end Toolpath
