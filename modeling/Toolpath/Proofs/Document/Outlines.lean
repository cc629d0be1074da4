import Mathlib
import Toolpath.Document.Segment
import Toolpath.Proofs.Number.Exact

/-!
# Scan lines through closed outlines

A scan at some height divides the points of the plane in two: those above the height, and those at
the height or under it. A line is crossed if it leads from one side to the other, whichever way it
is gone along, and going once around an outline one comes back to the side where one began. So the
crossings of an outline pair up. Heights at which a vertex lies are no exception, because a vertex
is on one side like any other point. The span of a line does not hold its upper end for this reason.

The order of the heights decides, and of arithmetic little is asked. A line whose rise is less than
the precision is passed by, and if its ends are on different sides, a crossing is missing and the
parity is lost. Hence the condition that a line is level or rises enough. It is one on the values of
the heights. Differences may be rounded, as long as no two heights are found close which are further
apart than the precision.

An outline may come to the height of the scan and stay there for a while. Level lines are not
crossed, so it is crossed there by the line that comes and by the line that leaves, each of them if
its other end is above. A vertex is the case in which it does not stay.

## Main definitions

* `Scalar.ValuedBy` — numbers have values in an ordered group
* `Segment.Polyline` — the lines of a polyline from one point to another
* `Segment.Scannable` — a segment that is level or rises enough
* `Segment.Meets` — an outline comes to a height, may stay there, and leaves it

## Main results

* `Segment.length_lineCrossing` — a line is crossed once if its ends are on different sides
* `Segment.Polyline.even_iff` — a polyline is crossed evenly if its ends are on one side
* `Segment.scan_of_meets` — how an outline is crossed where it meets the height
* `Segment.crossings_pair` — the crossings of an outline pair up
-/

namespace Toolpath

variable {R G : Type}

/-- The numbers of a set have values in an ordered group, by which they are compared. Two of them
are found close only if their values are. -/
structure Scalar.ValuedBy [Scalar R] [AddCommGroup G] [LinearOrder G] (value : R → G)
    (numbers : Set R) : Prop where
  /-- The order is that of the values, -/
  le_iff : ∀ a ∈ numbers, ∀ b ∈ numbers, a ≤ b ↔ value a ≤ value b
  /-- so is the strict order, -/
  lt_iff : ∀ a ∈ numbers, ∀ b ∈ numbers, a < b ↔ value a < value b
  /-- and what is further apart than the precision is not found closer. -/
  near : ∀ a ∈ numbers, ∀ b ∈ numbers, Scalar.abs (a - b) < Scalar.precision →
    |value a - value b| < value Scalar.precision

/-- The exact value of a finite double. -/
def Double.exactValue (x : Double) : ℚ :=
  match Binary.ofDouble? x with
  | some b => (if b.negative then -1 else 1) * (b.numerator / b.denominator)
  | none => 0

namespace Segment

/-- The lines of a polyline in order. It is an outline if it ends where it begins. -/
inductive Polyline : Vec2 R → List (Segment R) → Vec2 R → Prop where
  /-- A single point. -/
  | nil (a : Vec2 R) : Polyline a [] a
  /-- A line to where the rest begins. -/
  | cons (a : Vec2 R) {b c : Vec2 R} {ss : List (Segment R)} (rest : Polyline b ss c) :
    Polyline a (line a b :: ss) c

theorem Polyline.exists_eq {a b : Vec2 R} {ss : List (Segment R)} (h : Polyline a ss b)
    {s : Segment R} (hs : s ∈ ss) : ∃ u v, s = line u v := by
  induction h with
  | nil => cases hs
  | cons u rest ih =>
    rcases List.mem_cons.mp hs with rfl | hs
    · exact ⟨u, _, rfl⟩
    · exact ih hs

variable [Analytic R]

/-- The crossings of segments with a height, one segment after the other. -/
def scan (y : R) (ss : List (Segment R)) : List R := ss.flatMap fun s => s.crossings y

/-- Where the line between two points comes to a height, reckoned from the lower point. -/
def abscissa (lo hi : Vec2 R) (y : R) : R := lo.x + (y - lo.y) / (hi.y - lo.y) * (hi.x - lo.x)

variable [AddCommGroup G] [LinearOrder G] (value : R → G) (numbers : Set R) (y : R)

/-- A segment is level or its rise is not less than the precision, and its heights and that of the
scan are numbers. -/
structure Scannable (s : Segment R) : Prop where
  /-- The height of the scan is a number, -/
  height : y ∈ numbers
  /-- so is that of the start, -/
  start : s.start.y ∈ numbers
  /-- and so is that of the end. -/
  finish : s.finish.y ∈ numbers
  /-- No rise is less than the precision, unless it is none. -/
  rise : ¬ (0 < |value s.finish.y - value s.start.y| ∧
    |value s.finish.y - value s.start.y| < value Scalar.precision)

/-- An outline comes to the height of the scan by one line, stays there for some more, and leaves it
by the next one. -/
structure Meets (ss : List (Segment R)) (comes : Segment R) (stays : List (Segment R))
    (leaves : Segment R) : Prop where
  /-- The lines follow each other on the way around the outline. -/
  around : ∃ rest, ss ~r comes :: (stays ++ leaves :: rest)
  /-- The first line ends at the height, -/
  arrival : value comes.finish.y = value y
  /-- those behind it are level, -/
  level : ∀ s ∈ stays, value s.start.y = value y ∧ value s.finish.y = value y
  /-- and the last one begins there. -/
  departure : value leaves.start.y = value y

/-- Whether a point lies at the height of the scan or under it. -/
def under (p : Vec2 R) : Bool := decide (value p.y ≤ value y)

variable {value numbers y} {a b : Vec2 R} {ss stays : List (Segment R)} {comes leaves : Segment R}

/-- The lines by which an outline meets the height are some of its own. -/
theorem Meets.exists_eq (hmeets : Meets value y ss comes stays leaves) (h : Polyline a ss a)
    (hss : ∀ s ∈ ss, Scannable value numbers y s) {s : Segment R}
    (hs : s ∈ comes :: (stays ++ [leaves])) :
    ∃ u v, s = line u v ∧ Scannable value numbers y (line u v) := by
  obtain ⟨rest, hrotated⟩ := hmeets.around
  have hs' : s ∈ ss := by
    rw [hrotated.mem_iff, List.append_cons, ← List.cons_append]
    exact List.mem_append_left rest hs
  obtain ⟨u, v, rfl⟩ := h.exists_eq hs'
  exact ⟨u, v, rfl, hss _ hs'⟩

variable [IsOrderedAddMonoid G]

/-! ### One line -/

section Line

variable (hvalued : Scalar.ValuedBy value numbers)

include hvalued

/-- A line is passed by if the height is not in its span, which does not hold its upper end. -/
theorem passed_iff {lo hi : R} (hy : y ∈ numbers) (hlo : lo ∈ numbers) (hhi : hi ∈ numbers)
    (hrise : ¬ (0 < |value hi - value lo| ∧ |value hi - value lo| < value Scalar.precision)) :
    (Scalar.abs (hi - lo) < Scalar.precision ∨ y < lo ∨ hi ≤ y) ↔
      ¬ (value lo ≤ value y ∧ value y < value hi) := by
  rw [hvalued.lt_iff y hy lo hlo, hvalued.le_iff hi hhi y hy, not_and_or, not_le, not_lt,
    or_iff_right_iff_imp]
  intro hnear
  -- What is found close is level, and a height is not between equal ones.
  have hlevel : value hi = value lo := by
    by_contra hne
    exact hrise ⟨abs_pos.mpr (sub_ne_zero.mpr hne), hvalued.near hi hhi lo hlo hnear⟩
  rw [hlevel]
  exact lt_or_ge _ _

variable (h : Scannable value numbers y (line a b))

include h

/-- Where a line is crossed, if it goes up through the height and if it goes down. -/
theorem lineCrossing_eq : lineCrossing a b y =
    if value a.y ≤ value y ∧ value y < value b.y then [abscissa a b y]
    else if value b.y ≤ value y ∧ value y < value a.y then [abscissa b a y]
    else [] := by
  have ha : a.y ∈ numbers := h.start
  have hb : b.y ∈ numbers := h.finish
  have hup := passed_iff hvalued h.height ha hb h.rise
  have hdown := passed_iff hvalued h.height hb ha (abs_sub_comm (value b.y) _ ▸ h.rise)
  rw [lineCrossing]
  by_cases hle : a.y ≤ b.y
  · have hnot : ¬ (value b.y ≤ value y ∧ value y < value a.y) := fun h =>
      not_lt.mpr ((hvalued.le_iff _ ha _ hb).mp hle) (h.1.trans_lt h.2)
    simp only [if_pos hle, hup, ite_not, if_neg hnot]
    rfl
  · have hnot : ¬ (value a.y ≤ value y ∧ value y < value b.y) := fun h =>
      hle ((hvalued.le_iff _ ha _ hb).mpr (h.1.trans_lt h.2).le)
    simp only [if_neg hle, hdown, ite_not, if_neg hnot]
    rfl

/-- **A line is crossed once if its ends are on different sides**, and otherwise not at all. -/
theorem length_lineCrossing :
    (lineCrossing a b y).length = (under value y a != under value y b).toNat := by
  rw [lineCrossing_eq hvalued h, under, under]
  by_cases ha : value a.y ≤ value y <;> by_cases hb : value b.y ≤ value y <;>
    simp [ha, hb, ← not_le]

/-- A level line is not crossed. -/
theorem lineCrossing_of_level (hlevel : value a.y = value b.y) : lineCrossing a b y = [] := by
  rw [← List.length_eq_zero_iff, length_lineCrossing hvalued h, under, under, hlevel,
    bne_self_eq_false, Bool.toNat_false]

/-- A line that begins at the height is crossed there if it goes up. -/
theorem lineCrossing_of_start (ha : value a.y = value y) :
    lineCrossing a b y = if value y < value b.y then [abscissa a b y] else [] := by
  rw [lineCrossing_eq hvalued h, ha]
  simp only [le_refl, true_and, lt_irrefl, and_false, if_false]

/-- A line that ends at the height is crossed there if it comes down. -/
theorem lineCrossing_of_finish (hb : value b.y = value y) :
    lineCrossing a b y = if value y < value a.y then [abscissa b a y] else [] := by
  rw [lineCrossing_eq hvalued h, hb]
  simp only [le_refl, true_and, lt_irrefl, and_false, if_false]

end Line

/-! ### Outlines -/

/-- **A polyline is crossed evenly if its ends are on one side**, and only then. One goes to the
other side with every line that is crossed. -/
theorem Polyline.even_iff (h : Polyline a ss b) (hvalued : Scalar.ValuedBy value numbers)
    (hss : ∀ s ∈ ss, Scannable value numbers y s) :
    Even (scan y ss).length ↔ under value y a = under value y b := by
  induction h with
  | nil a => exact iff_of_true Even.zero rfl
  | @cons a b c ss rest ih =>
    obtain ⟨hs, hss⟩ := List.forall_mem_cons.mp hss
    have hscan : (scan y (line a b :: ss)).length =
        (under value y a != under value y b).toNat + (scan y ss).length :=
      List.length_append.trans (congrArg (· + _) (length_lineCrossing hvalued hs))
    rw [hscan, Nat.even_add, ih hss]
    cases under value y a <;> cases under value y b <;> cases under value y c <;> decide

/-- **Where an outline meets the height**, it is crossed by the line that comes and by the one that
leaves, if these lie above. -/
theorem scan_of_meets (hmeets : Meets value y ss comes stays leaves) (h : Polyline a ss a)
    (hvalued : Scalar.ValuedBy value numbers) (hss : ∀ s ∈ ss, Scannable value numbers y s) :
    scan y (comes :: (stays ++ [leaves])) =
      (if value y < value comes.start.y then [abscissa comes.finish comes.start y] else []) ++
        (if value y < value leaves.finish.y then [abscissa leaves.start leaves.finish y]
        else []) := by
  have hline := fun s => hmeets.exists_eq h hss (s := s)
  have hcomes : comes.crossings y =
      if value y < value comes.start.y then [abscissa comes.finish comes.start y] else [] := by
    obtain ⟨u, v, rfl, hs⟩ := hline comes List.mem_cons_self
    exact lineCrossing_of_finish hvalued hs hmeets.arrival
  have hstays : stays.flatMap (fun s => s.crossings y) = [] := by
    refine List.flatMap_eq_nil_iff.mpr fun s hmem => ?_
    obtain ⟨u, v, rfl, hs⟩ := hline s (List.mem_cons_of_mem _ (List.mem_append_left _ hmem))
    obtain ⟨hu, hv⟩ := hmeets.level _ hmem
    exact lineCrossing_of_level hvalued hs (hu.trans hv.symm)
  have hleaves : leaves.crossings y =
      if value y < value leaves.finish.y then [abscissa leaves.start leaves.finish y] else [] := by
    obtain ⟨u, v, rfl, hs⟩ := hline leaves
      (List.mem_cons_of_mem _ (List.mem_append_right _ List.mem_cons_self))
    exact lineCrossing_of_start hvalued hs hmeets.departure
  rw [scan, List.flatMap_cons, List.flatMap_append, hstays, List.nil_append, List.flatMap_singleton,
    hcomes, hleaves]

/-! ### Exact arithmetic -/

section Exact

open Exact

variable {K : Type} [Field K] [LinearOrder K] [FloorRing K]

/-- Exact numbers are their own values. -/
theorem valuedBy_id : Scalar.ValuedBy (id : K → K) Set.univ where
  le_iff _ _ _ _ := Iff.rfl
  lt_iff _ _ _ _ := Iff.rfl
  near _ _ _ _ h := h

variable [Angular K]

/-- A line comes to the height of its lower end there. -/
theorem abscissa_self (lo hi : Vec2 K) : abscissa lo hi lo.y = lo.x := by
  rw [abscissa, sub_self, zero_div, zero_mul, add_zero]

/-- **The crossings of a closed outline pair up**, if every line is level or rises enough. Level
lines are not crossed. Where the outline meets the height of the scan, at a vertex or along level
lines, it is crossed once if it goes through, twice if it comes from above and goes back, and not at
all if it comes from below and goes back. In exact arithmetic, it is crossed there in the point at
which it comes and in the point at which it leaves. -/
theorem crossings_pair [IsStrictOrderedRing K] {p : Vec2 R}
    (hvalued : Scalar.ValuedBy value numbers) (hclosed : Polyline p ss p)
    (hss : ∀ s ∈ ss, Scannable value numbers y s) :
    Even (scan y ss).length ∧
    (∀ s ∈ ss, value s.start.y = value s.finish.y → s.crossings y = []) ∧
    (∀ comes stays leaves, Meets value y ss comes stays leaves →
      let count := (scan y (comes :: (stays ++ [leaves]))).length
      (value comes.start.y < value y → value y < value leaves.finish.y → count = 1) ∧
      (value y < value comes.start.y → value leaves.finish.y < value y → count = 1) ∧
      (value y < value comes.start.y → value y < value leaves.finish.y → count = 2) ∧
      (value comes.start.y < value y → value leaves.finish.y < value y → count = 0)) ∧
    (∀ (z : K) (q : Vec2 K) (os : List (Segment K)), Polyline q os q →
      (∀ s ∈ os, Scannable id Set.univ z s) →
      ∀ comes stays leaves, Meets id z os comes stays leaves →
        scan z (comes :: (stays ++ [leaves])) =
          (if z < comes.start.y then [comes.finish.x] else []) ++
            if z < leaves.finish.y then [leaves.start.x] else []) := by
  refine ⟨(hclosed.even_iff hvalued hss).mpr rfl, fun s hs hlevel => ?_,
    fun comes stays leaves hmeets => ?_, fun z q os hq hos comes stays leaves hmeets => ?_⟩
  · obtain ⟨u, v, rfl⟩ := hclosed.exists_eq hs
    exact lineCrossing_of_level hvalued (hss _ hs) hlevel
  · rw [scan_of_meets hmeets hclosed hvalued hss, List.length_append]
    refine ⟨fun hlow hhigh => ?_, fun hhigh hlow => ?_, fun hhigh hhigh' => ?_,
      fun hlow hlow' => ?_⟩
    · rw [if_neg hlow.not_gt, if_pos hhigh]
      rfl
    · rw [if_pos hhigh, if_neg hlow.not_gt]
      rfl
    · rw [if_pos hhigh, if_pos hhigh']
      rfl
    · rw [if_neg hlow.not_gt, if_neg hlow'.not_gt]
      rfl
  · have harrival : comes.finish.y = z := hmeets.arrival
    have hdeparture : leaves.start.y = z := hmeets.departure
    have hcomes := abscissa_self comes.finish comes.start
    have hleaves := abscissa_self leaves.start leaves.finish
    rw [harrival] at hcomes
    rw [hdeparture] at hleaves
    rw [scan_of_meets hmeets hq valuedBy_id hos, hcomes, hleaves]
    rfl

/-- An outline that goes up past a level line, comes from above and goes back, goes down, and comes
from below and goes back. -/
def terraced : List (Segment Double) :=
  [line ⟨1, 0⟩ ⟨2, -1⟩, line ⟨2, -1⟩ ⟨3, 0⟩, line ⟨3, 0⟩ ⟨4, -0⟩, line ⟨4, -0⟩ ⟨4, 1⟩,
    line ⟨4, 1⟩ ⟨2, -0⟩, line ⟨2, -0⟩ ⟨0, 1⟩, line ⟨0, 1⟩ ⟨0, -1⟩, line ⟨0, -1⟩ ⟨1, 0⟩]

/-- The two zeros of doubles are one height. In exact arithmetic a triangle stands on its tip. -/
theorem crossings_pair_terraced :
    let heights : Finset Double := {-1, -0, 0, 1}
    let up : Segment ℝ := line ⟨3, 0⟩ ⟨4, 1⟩
    let down : Segment ℝ := line ⟨2, 1⟩ ⟨3, 0⟩
    (Scalar.ValuedBy Double.exactValue heights ∧ Polyline ⟨1, 0⟩ terraced ⟨1, 0⟩ ∧
      ∀ s ∈ terraced, Scannable Double.exactValue heights 0 s) ∧
    Even (scan 0 terraced).length ∧
    (scan 0 (terraced.drop 1 |>.take 3)).length = 1 ∧
    (scan 0 (terraced.drop 4 |>.take 2)).length = 2 ∧
    (scan 0 (terraced.rotate 7 |>.take 2)).length = 0 ∧
    scan 0 [down, up] = [3, 3] := by
  intro heights up down
  have hvalued : Scalar.ValuedBy Double.exactValue heights := by
    have hle : ∀ a ∈ heights, ∀ b ∈ heights, a ≤ b ↔ a.exactValue ≤ b.exactValue := by
      decide +kernel
    have hlt : ∀ a ∈ heights, ∀ b ∈ heights, a < b ↔ a.exactValue < b.exactValue := by
      decide +kernel
    have hnear : ∀ a ∈ heights, ∀ b ∈ heights, Scalar.abs (a - b) < Scalar.precision →
        |a.exactValue - b.exactValue| < (Scalar.precision : Double).exactValue := by
      decide +kernel
    exact ⟨hle, hlt, hnear⟩
  have hclosed : Polyline ⟨1, 0⟩ terraced ⟨1, 0⟩ :=
    .cons _ (.cons _ (.cons _ (.cons _ (.cons _ (.cons _ (.cons _ (.cons _ (.nil _))))))))
  have hss : ∀ s ∈ terraced, Scannable Double.exactValue heights 0 s := by
    have hzero : (0 : Double) ∈ heights := by decide +kernel
    have hends : ∀ s ∈ terraced, s.start.y ∈ heights ∧ s.finish.y ∈ heights := by decide +kernel
    have hrise : ∀ s ∈ terraced,
        ¬ (0 < |s.finish.y.exactValue - s.start.y.exactValue| ∧
          |s.finish.y.exactValue - s.start.y.exactValue| <
            (Scalar.precision : Double).exactValue) := by
      decide +kernel
    exact fun s hs => ⟨hzero, (hends s hs).1, (hends s hs).2, hrise s hs⟩
  have htriangle : ∀ s ∈ [up, line ⟨4, 1⟩ ⟨2, 1⟩, down], Scannable id Set.univ 0 s := by
    have hprecision : (Scalar.precision : ℝ) ≤ 1 := by
      show ((1 : ℕ) : ℝ) / (100000 : ℕ) ≤ 1
      norm_num
    have hrise : ∀ s ∈ [up, line ⟨4, 1⟩ ⟨2, 1⟩, down],
        ¬ (0 < |id s.finish.y - id s.start.y| ∧
          |id s.finish.y - id s.start.y| < id Scalar.precision) := by
      simp [up, down, start, finish, hprecision]
    exact fun s hs => ⟨trivial, trivial, trivial, hrise s hs⟩
  obtain ⟨heven, -, hmeets, hexact⟩ := crossings_pair hvalued hclosed hss (K := ℝ)
  have hzeros : Double.exactValue (-0) = Double.exactValue 0 := by decide +kernel
  have hunder : Double.exactValue (-1) < Double.exactValue 0 := by decide +kernel
  have habove : Double.exactValue 0 < Double.exactValue 1 := by decide +kernel
  obtain ⟨hthrough, -⟩ := hmeets _ [line ⟨3, 0⟩ ⟨4, -0⟩] _
    ⟨⟨_, ⟨1, rfl⟩⟩, rfl, List.forall_mem_singleton.mpr ⟨rfl, hzeros⟩, hzeros⟩
  obtain ⟨-, -, htwice, -⟩ := hmeets _ [] _ ⟨⟨_, ⟨4, rfl⟩⟩, hzeros, nofun, hzeros⟩
  obtain ⟨-, -, -, hnever⟩ := hmeets _ [] _ ⟨⟨_, ⟨7, rfl⟩⟩, rfl, nofun, rfl⟩
  have htip := hexact 0 _ _ (.cons _ (.cons _ (.cons _ (.nil _)))) htriangle down [] up
    ⟨⟨_, ⟨2, rfl⟩⟩, rfl, nofun, rfl⟩
  exact ⟨⟨hvalued, hclosed, hss⟩, heven, hthrough hunder habove, htwice habove habove,
    hnever hunder hunder, htip.trans (by simp [up, down, start, finish])⟩

end Exact

end Segment

end Toolpath
