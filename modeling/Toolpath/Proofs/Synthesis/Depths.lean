import Toolpath.Proofs.Number.Marks
import Toolpath.Synthesis.Passes

/-!
# The levels of a cut

A contour is cut down to its depth in levels, a step below each other. The loop that finds them
stops short of the depth by the precision, and the depth itself is always the last level. Both
belong together: without the tolerance a depth that is almost a multiple of the step would be cut
twice, by levels that hardly differ, and with it the last level may be below the one before by more
than a step, but only by the precision.

The loop has no limit of its own. `Synthesis.Levels` is the function with the loop as it stands, and
it holds of the levels that are computed with fuel.

What a step of the loop preserves is that the level to come is a step below the last one, which is
above the depth. So the induction starts from the surface, and the first level is not an exception:
it is below the surface as a level is below the one before.

## Main definitions

* `Synthesis.Levels` — the levels, by a loop without fuel
* `Synthesis.Follows` — a level is below another one, but not too far

## Main results

* `Synthesis.levels_passes` — the loop ends in exact arithmetic
* `Synthesis.isChain_of_accumulates` — the levels follow each other from the surface on
* `Synthesis.passes_spaced` — what the levels are
-/

namespace Toolpath

namespace Synthesis

/-! ### The loop -/

section Loop

variable {R : Type} [Scalar R] {step depth : R} {levels others : List R}

/-- The levels at which a contour of some depth is cut. -/
inductive Levels (step depth : R) : List R → Prop where
  /-- There is nothing to cut. -/
  | none (h : depth ≤ Scalar.precision) : Levels step depth []
  /-- It is cut at once. -/
  | single (h : ¬ depth ≤ Scalar.precision)
    (hstep : step ≤ Scalar.precision ∨ depth ≤ step) : Levels step depth [depth]
  /-- It is cut step by step. -/
  | several {above : List R} (h : ¬ depth ≤ Scalar.precision)
    (hstep : ¬ (step ≤ Scalar.precision ∨ depth ≤ step))
    (hloop : Scalar.Accumulates step (depth - Scalar.precision) step above) :
    Levels step depth (above ++ [depth])

/-- There is one outcome at most. -/
theorem Levels.unique (h : Levels step depth levels) (h' : Levels step depth others) :
    levels = others := by
  cases h with
  | none h =>
    cases h' with
    | none => rfl
    | single hnot => exact absurd h hnot
    | several hnot => exact absurd h hnot
  | single hnot hstep =>
    cases h' with
    | none h => exact absurd h hnot
    | single => rfl
    | several _ hsteps => exact absurd hstep hsteps
  | several hnot hsteps hloop =>
    cases h' with
    | none h => exact absurd h hnot
    | single _ hstep => exact absurd hstep hsteps
    | several _ _ hloop' => rw [hloop.unique hloop']

/-- A mark of the loop lies below the bound. -/
theorem lt_of_mem_accumulates {bound mark : R} {ms : List R}
    (h : Scalar.Accumulates step bound mark ms) : ∀ m ∈ ms, m < bound := by
  induction h with
  | stop => exact fun m hm => absurd hm List.not_mem_nil
  | go hlt _ ih => exact List.forall_mem_cons.mpr ⟨hlt, ih⟩

theorem passes_eq_nil_iff : passes step depth = [] ↔ depth ≤ Scalar.precision := by
  rw [passes]
  split
  · rename_i h
    exact ⟨fun _ => h, fun _ => rfl⟩
  · rename_i h
    refine ⟨fun hnil => ?_, fun hle => absurd hle h⟩
    split at hnil
    · cases hnil
    · exact absurd hnil (List.append_ne_nil_of_right_ne_nil _ (List.cons_ne_nil _ _))

theorem passes_eq_single (hdepth : ¬ depth ≤ Scalar.precision)
    (hstep : step ≤ Scalar.precision ∨ depth ≤ step) : passes step depth = [depth] := by
  rw [passes, if_neg hdepth, if_pos hstep]

/-- The depth is the last level, and the others are not within the precision of it. -/
theorem Levels.exists_above (h : Levels step depth levels) (hdepth : ¬ depth ≤ Scalar.precision) :
    ∃ above, levels = above ++ [depth] ∧ ∀ level ∈ above, level < depth - Scalar.precision := by
  cases h with
  | none h => exact absurd h hdepth
  | single => exact ⟨[], rfl, fun level hlevel => absurd hlevel List.not_mem_nil⟩
  | several _ _ hloop => exact ⟨_, rfl, lt_of_mem_accumulates hloop⟩

end Loop

/-! ### Levels in exact arithmetic -/

open Exact

variable {K : Type} [Field K] [LinearOrder K] [IsStrictOrderedRing K] [FloorRing K]
  {step depth : K} {levels : List K}

/-- **The loop ends in exact arithmetic.** -/
theorem levels_passes (step depth : K) : Levels step depth (passes step depth) := by
  rw [passes]
  split
  · rename_i h
    exact .none h
  · rename_i h
    split
    · rename_i hstep
      exact .single h hstep
    · rename_i hstep
      have hpos : 0 < step := precision_pos.trans (not_le.mp (not_or.mp hstep).1)
      exact .several h hstep (accumulates_marks hpos _)

/-- A level is below the one before, but by no more than the step and the precision. -/
def Follows (step above level : K) : Prop :=
  above < level ∧ level - above ≤ step + Scalar.precision

/-- **The levels follow each other.** The level to come is a step below the last one. -/
theorem isChain_of_accumulates {mark last : K} {ms : List K} (hstep : 0 < step)
    (h : Scalar.Accumulates step (depth - Scalar.precision) mark ms) (hmark : mark = last + step)
    (hlast : last < depth) : (last :: (ms ++ [depth])).IsChain (Follows step) := by
  have hprecision : (0 : K) < Scalar.precision := precision_pos
  induction h generalizing last with
  | stop hstop =>
    refine List.isChain_pair.mpr ⟨hlast, ?_⟩
    have hdepth : depth - Scalar.precision ≤ last + step := hmark ▸ not_lt.mp hstop
    linarith
  | go hgo _ ih =>
    refine List.isChain_cons_cons.mpr ⟨⟨?_, ?_⟩, ih rfl (hgo.trans (sub_lt_self _ hprecision))⟩
    · linarith
    · linarith

/-- The levels from the surface on. -/
theorem Levels.isChain (h : Levels step depth levels) (hdepth : Scalar.precision < depth)
    (hlow : Scalar.precision < step) (hhigh : step < depth) :
    (0 :: levels).IsChain (Follows step) := by
  cases h with
  | none h => exact absurd h (not_le.mpr hdepth)
  | single _ hstep => exact absurd hstep (not_or.mpr ⟨not_le.mpr hlow, not_le.mpr hhigh⟩)
  | several _ _ hloop =>
    exact isChain_of_accumulates (precision_pos.trans hlow) hloop (zero_add step).symm
      (precision_pos.trans hdepth)

/-- **The levels of a cut.** There are none for a depth within the precision. Otherwise they go down
from the surface to the depth, each below the one before and by no more than the step and the
precision, and none of them but the last is within the precision of the depth. -/
theorem passes_spaced (step depth : K) :
    (∀ levels, Levels step depth levels ↔ levels = passes step depth) ∧
    (passes step depth = [] ↔ depth ≤ Scalar.precision) ∧
    (Scalar.precision < depth →
      (∀ level ∈ passes step depth, 0 < level) ∧
      (passes step depth).Pairwise (· < ·) ∧
      (passes step depth).getLast? = some depth ∧
      (Scalar.precision < step → step < depth →
        ∀ first ∈ (passes step depth).head?, first ≤ step + Scalar.precision) ∧
      (passes step depth).IsChain (fun above level => level - above ≤ step + Scalar.precision) ∧
      (∀ level ∈ (passes step depth).dropLast, Scalar.precision < |level - depth|) ∧
      (step ≤ Scalar.precision ∨ depth ≤ step → passes step depth = [depth])) := by
  have hlevels := levels_passes step depth
  refine ⟨fun levels => ⟨fun h => h.unique hlevels, fun h => h ▸ hlevels⟩, passes_eq_nil_iff,
    fun hdepth => ?_⟩
  obtain ⟨above, habove, hfar⟩ := hlevels.exists_above (not_le.mpr hdepth)
  have hlast : (passes step depth).getLast? = some depth := by
    rw [habove, List.getLast?_concat]
  have hothers : ∀ level ∈ (passes step depth).dropLast, Scalar.precision < |level - depth| := by
    rw [habove, List.dropLast_concat]
    intro level hlevel
    rw [abs_sub_comm]
    exact (lt_sub_comm.mp (hfar level hlevel)).trans_le (le_abs_self _)
  by_cases hstep : step ≤ Scalar.precision ∨ depth ≤ step
  · have hsingle := passes_eq_single (not_le.mpr hdepth) hstep
    have hpos : 0 < depth := precision_pos.trans hdepth
    refine ⟨?_, ?_, hlast, fun hlow hhigh => ?_, ?_, hothers, fun _ => hsingle⟩
    · rw [hsingle]
      exact List.forall_mem_singleton.mpr hpos
    · rw [hsingle]
      exact List.pairwise_singleton _ _
    · exact absurd hstep (not_or.mpr ⟨not_le.mpr hlow, not_le.mpr hhigh⟩)
    · rw [hsingle]
      exact List.isChain_singleton _
  · obtain ⟨hlow, hhigh⟩ := not_or.mp hstep
    have hchain := hlevels.isChain hdepth (not_le.mp hlow) (not_le.mp hhigh)
    have hdeeper : (0 :: passes step depth).Pairwise (· < ·) :=
      List.isChain_iff_pairwise.mp (hchain.imp fun _ _ h => h.1)
    obtain ⟨hpos, hpairwise⟩ := List.pairwise_cons.mp hdeeper
    refine ⟨hpos, hpairwise, hlast, fun _ _ first hfirst => ?_, ?_, hothers,
      fun h => absurd h hstep⟩
    · have hfollows := (List.isChain_cons.mp hchain).1 first hfirst
      exact sub_zero first ▸ hfollows.2
    · exact hchain.tail.imp fun _ _ h => h.2

/-- A depth that is hardly more than three steps is cut in three levels. -/
theorem passes_spaced_tenths :
    let depth : ℚ := 3 / 10 + 1 / 200000
    (Scalar.precision < depth ∧ Scalar.precision < (1 / 10 : ℚ) ∧ 1 / 10 < depth) ∧
      passes (1 / 10) depth = [1 / 10, 1 / 5, depth] ∧
      Levels (1 / 10) depth [1 / 10, 1 / 5, depth] ∧
      [1 / 10, 1 / 5, depth].IsChain
        (fun above level => level - above ≤ 1 / 10 + Scalar.precision) := by
  intro depth
  have hdepth : Scalar.precision < depth := by decide +kernel
  have hpasses : passes (1 / 10) depth = [1 / 10, 1 / 5, depth] := by decide +kernel
  obtain ⟨hlevels, -, hspaced⟩ := passes_spaced (1 / 10 : ℚ) depth
  obtain ⟨-, -, -, -, hchain, -⟩ := hspaced hdepth
  rw [hpasses] at hlevels hchain
  exact ⟨⟨hdepth, by decide +kernel, by decide +kernel⟩, hpasses, (hlevels _).mpr rfl, hchain⟩

end Synthesis

end Toolpath
