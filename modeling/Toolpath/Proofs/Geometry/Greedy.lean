import Toolpath.Proofs.Geometry.Tours
import Toolpath.Proofs.Number.Order

/-!
# The greedy tour

The nearest stop is looked for in one pass over the stops that are left, which keeps the nearest one
so far and gives it up only for one that is strictly nearer. So of stops equally near the first in
the list is taken. That this is the one listed first among all points is seen from the stops that
are left: removing one of them never changes the order of the others.

Both need that distances can be compared, so they are asked for finite distances, which are ordered
linearly by their ranks. That a tour visits every point needs no such thing.

## Main definitions

* `Tour.Greedy` — every place is followed by the first of the nearest places left

## Main results

* `Tour.firstNearest_nearestFrom` — one pass finds the first of the nearest stops
* `Tour.greedy_visit` — visiting the stops that are left is greedy
* `Tour.plan_greedy` — a tour visits every place once from the first, and the nearest ones first
-/

namespace Toolpath

namespace Tour

variable {R : Type} [Scalar R]

/-- The square of the distance from a place to a stop. -/
def distSq (here : Vec2 R) (s : Stop R) : R := (s.2 - here).normSq

/-- The square of the distance between two points of a list. -/
def gap (points : List (Vec2 R)) (i j : Nat) : R :=
  distSq (points.getD i Vec2.zero) (j, points.getD j Vec2.zero)

/-- Every place is followed by the first of the nearest places left: no place that comes later is
nearer to it, and one that is listed before the one that follows is strictly farther. -/
def Greedy (points : List (Vec2 R)) : List Nat → Prop
  | i :: j :: left =>
    (∀ m ∈ left, ¬gap points i m < gap points i j ∧ (m < j → gap points i j < gap points i m)) ∧
      Greedy points (j :: left)
  | _ => True

/-- The greedy tour from the first of some stops on, however few they are. -/
def chase : List (Stop R) → List Nat
  | [] => []
  | s :: rest => s.1 :: visit rest.length s.2 rest

/-- **The shortcut for few points** gives the greedy tour. -/
theorem plan_nearest (points : List (Vec2 R)) : plan .nearest points = chase (stops points) := by
  have hlength := length_stops points
  unfold plan
  split
  · rename_i s t u rest hstops
    rw [hstops, List.length_cons] at hlength
    rw [hstops, chase, ← hlength, Nat.add_sub_cancel]
  · rename_i hfew
    match hstops : stops points with
    | [] => rfl
    | [s] => rfl
    | [s, t] =>
      -- of one stop left, that one is the next, whether its distance is finite or not
      have hnext : nearestFrom s.2 t none [t] = t := by
        rw [nearestFrom]
        split <;> rfl
      simp [chase, visit, hnext]
    | s :: t :: u :: rest => exact absurd hstops (hfew s t u rest rfl)

/-! ### One pass -/

section

variable {K : Type} [LinearOrder K] {rank : R → K}

/-- A stop is the first of the nearest of some stops, as distances are ranked. -/
def FirstNearest (rank : R → K) (here : Vec2 R) (next : Stop R) (left : List (Stop R)) : Prop :=
  ∀ s ∈ left, rank (distSq here next) ≤ rank (distSq here s) ∧
    (s.1 < next.1 → rank (distSq here next) < rank (distSq here s))

omit [LinearOrder K] in
theorem nearestFrom_cons (here : Vec2 R) (chosen s : Stop R) (others : List (Stop R)) :
    nearestFrom here chosen (some (distSq here chosen)) (s :: others) =
      if distSq here s < distSq here chosen then nearestFrom here s (some (distSq here s)) others
      else nearestFrom here chosen (some (distSq here chosen)) others := by
  rw [nearestFrom]
  exact ite_congr decide_eq_true_eq (fun _ => rfl) fun _ => rfl

/-- **One pass** from the first stop on finds the first of the nearest stops. -/
theorem firstNearest_nearestFrom (hrank : Scalar.RankedBy rank) {here : Vec2 R} {chosen : Stop R}
    {others : List (Stop R)}
    (hfinite : ∀ s ∈ chosen :: others, Scalar.finite (distSq here s) = true)
    (hsorted : (chosen :: others).Pairwise fun s t => s.1 < t.1) :
    FirstNearest rank here (nearestFrom here chosen (some (distSq here chosen)) others)
      (chosen :: others) := by
  induction others generalizing chosen with
  | nil =>
    intro s hs
    obtain rfl := List.mem_singleton.mp hs
    exact ⟨le_rfl, fun h => absurd h (Nat.lt_irrefl _)⟩
  | cons s others ih =>
    obtain ⟨hchosen, hothers⟩ := List.forall_mem_cons.mp hfinite
    have hs := (List.forall_mem_cons.mp hothers).1
    obtain ⟨hbefore, hrest⟩ := List.pairwise_cons.mp hsorted
    have hnearer : distSq here s < distSq here chosen ↔
        rank (distSq here s) < rank (distSq here chosen) := hrank _ _ hs hchosen
    rw [nearestFrom_cons]
    by_cases hlt : distSq here s < distSq here chosen
    · -- the stop is strictly nearer, so what is found among the rest beats the one chosen
      rw [if_pos hlt]
      have hfound := ih hothers hrest
      have hbeaten := (hfound s List.mem_cons_self).1.trans_lt (hnearer.mp hlt)
      exact List.forall_mem_cons.mpr ⟨⟨hbeaten.le, fun _ => hbeaten⟩, hfound⟩
    · -- the stop is no nearer than the one chosen, which is listed before it
      rw [if_neg hlt]
      have hfound := ih (List.forall_mem_cons.mpr ⟨hchosen, (List.forall_mem_cons.mp hothers).2⟩)
        (hsorted.sublist ((List.sublist_cons_self s others).cons_cons chosen))
      have hfar := not_lt.mp (mt hnearer.mpr hlt)
      obtain ⟨hle, hfirst⟩ := hfound chosen List.mem_cons_self
      intro t ht
      rcases List.mem_cons.mp ht with rfl | ht
      · exact ⟨hle, hfirst⟩
      rcases List.mem_cons.mp ht with rfl | ht
      · exact ⟨hle.trans hfar,
          fun h => (hfirst ((hbefore t List.mem_cons_self).trans h)).trans_le hfar⟩
      · exact hfound t (List.mem_cons_of_mem _ ht)

/-! ### One stop after the other -/

/-- The stops that are left, while the tour is at one of the points: all of them are points of the
list, in their order, at finite distances from each other. -/
structure Underway (points : List (Vec2 R)) (here : Stop R) (left : List (Stop R)) : Prop where
  placed : ∀ s ∈ here :: left, points[s.1]? = some s.2
  sorted : left.Pairwise fun s t => s.1 < t.1
  elsewhere : here.1 ∉ left.map Prod.fst
  finite : ∀ s ∈ here :: left, ∀ t ∈ here :: left, s.1 ≠ t.1 →
    Scalar.finite (distSq s.2 t) = true

theorem gap_eq_distSq {points : List (Vec2 R)} {s t : Stop R} (hs : points[s.1]? = some s.2)
    (ht : points[t.1]? = some t.2) : gap points s.1 t.1 = distSq s.2 t := by
  rw [gap, List.getD_eq_getElem?_getD, List.getD_eq_getElem?_getD, hs, ht]
  rfl

namespace Underway

variable {points : List (Vec2 R)} {here next : Stop R} {left : List (Stop R)}

theorem finite_left (h : Underway points here left) :
    ∀ s ∈ left, Scalar.finite (distSq here.2 s) = true := fun s hs =>
  h.finite here List.mem_cons_self s (List.mem_cons_of_mem _ hs) fun heq =>
    h.elsewhere (heq ▸ List.mem_map_of_mem hs)

/-- The tour goes on to one of the stops, and that one is left no longer. -/
theorem step (h : Underway points here left) (hnext : next ∈ left) :
    Underway points next (left.eraseP fun t => t.1 = next.1) := by
  have hsublist := List.eraseP_sublist (p := fun t : Stop R => decide (t.1 = next.1)) (l := left)
  have hsubset : next :: (left.eraseP fun t => t.1 = next.1) ⊆ here :: left :=
    List.cons_subset.mpr ⟨List.mem_cons_of_mem _ hnext,
      fun s hs => List.mem_cons_of_mem _ (hsublist.subset hs)⟩
  have hnodup : (left.map Prod.fst).Nodup :=
    List.pairwise_map.mpr (h.sorted.imp Nat.ne_of_lt)
  refine ⟨fun s hs => h.placed s (hsubset hs), h.sorted.sublist hsublist, ?_,
    fun s hs t ht => h.finite s (hsubset hs) t (hsubset ht)⟩
  rw [map_fst_eraseP]
  exact hnodup.not_mem_erase

end Underway

/-- **Visiting the stops that are left** is greedy. -/
theorem greedy_visit (hrank : Scalar.RankedBy rank) {points : List (Vec2 R)} {fuel : Nat}
    {here : Stop R} {left : List (Stop R)} (h : Underway points here left)
    (hfuel : left.length ≤ fuel) : Greedy points (here.1 :: visit fuel here.2 left) := by
  induction fuel generalizing here left with
  | zero => trivial
  | succ fuel ih =>
    cases left with
    | nil => trivial
    | cons s rest =>
      have hstart : nearestFrom here.2 s none (s :: rest) =
          nearestFrom here.2 s (some (distSq here.2 s)) rest := by
        rw [nearestFrom]
        exact if_pos (h.finite_left s List.mem_cons_self)
      rw [visit, hstart]
      let next := nearestFrom here.2 s (some (distSq here.2 s)) rest
      have hnext : next ∈ s :: rest := nearestFrom_mem here.2 s _ rest
      have hfirst : FirstNearest rank here.2 next (s :: rest) :=
        firstNearest_nearestFrom hrank h.finite_left h.sorted
      have hlength : ((s :: rest).eraseP fun t => t.1 = next.1).length ≤ fuel := by
        rw [List.length_eraseP_of_mem hnext (decide_eq_true rfl)]
        exact Nat.sub_le_of_le_add hfuel
      refine ⟨fun m hm => ?_, ih (h.step hnext) hlength⟩
      -- what comes later in the tour is one of the stops left now
      obtain ⟨t, ht, rfl⟩ := List.mem_map.mp ((visit_perm next.2 hlength).mem_iff.mp hm)
      have ht := List.mem_of_mem_eraseP ht
      have hplaced := List.forall_mem_cons.mp h.placed
      have hranked (u v : Stop R) (hu : u ∈ s :: rest) (hv : v ∈ s :: rest) :
          gap points here.1 u.1 < gap points here.1 v.1 ↔
            rank (distSq here.2 u) < rank (distSq here.2 v) := by
        rw [gap_eq_distSq hplaced.1 (hplaced.2 u hu), gap_eq_distSq hplaced.1 (hplaced.2 v hv)]
        exact hrank _ _ (h.finite_left u hu) (h.finite_left v hv)
      obtain ⟨hle, hlt⟩ := hfirst t ht
      exact ⟨mt (hranked t next ht hnext).mp (not_lt.mpr hle),
        fun hm => (hranked next t hnext ht).mpr (hlt hm)⟩

omit [Scalar R] in
/-- The points of a list have their places in it. -/
theorem getElem?_of_mem_stops {points : List (Vec2 R)} {s : Stop R} (hs : s ∈ stops points) :
    points[s.1]? = some s.2 := by
  obtain ⟨i, hi, rfl⟩ := List.mem_iff_getElem.mp hs
  simp [stops]

theorem greedy_plan (hrank : Scalar.RankedBy rank) {points : List (Vec2 R)}
    (hfinite : ∀ i j, i < points.length → j < points.length → i ≠ j →
      Scalar.finite (gap points i j) = true) : Greedy points (plan .nearest points) := by
  rw [plan_nearest]
  cases hstops : stops points with
  | nil => trivial
  | cons here left =>
    have hplaced : ∀ s ∈ here :: left, points[s.1]? = some s.2 := fun s hs =>
      getElem?_of_mem_stops (hstops ▸ hs)
    have hsorted : (here :: left).Pairwise fun s t => s.1 < t.1 := by
      rw [← hstops, ← List.pairwise_map (f := Prod.fst), map_fst_stops]
      exact List.pairwise_lt_range
    obtain ⟨hfirst, hrest⟩ := List.pairwise_cons.mp hsorted
    refine greedy_visit hrank ⟨hplaced, hrest, ?_, fun s hs t ht hne => ?_⟩ le_rfl
    · intro hmem
      obtain ⟨t, ht, heq⟩ := List.mem_map.mp hmem
      exact Nat.ne_of_gt (hfirst t ht) heq
    · have hs := hplaced s hs
      have ht := hplaced t ht
      rw [← gap_eq_distSq hs ht]
      exact hfinite _ _ (List.getElem?_eq_some_iff.mp hs).1 (List.getElem?_eq_some_iff.mp ht).1 hne

end

/-- **A tour** visits every place once and starts at the first, whatever the coordinates are; as
listed it is the list. The nearest ones first, it goes from each place to the first of the nearest
places left, if distances are finite; for fewer than three points it is what the loop gives. -/
theorem plan_greedy (points : List (Vec2 Double)) :
    (∀ order, (plan order points).Perm (List.range points.length) ∧
      (points ≠ [] → (plan order points).head? = some 0)) ∧
    plan .asListed points = List.range points.length ∧
    plan .nearest points = chase (stops points) ∧
    ((∀ i j, i < points.length → j < points.length → i ≠ j →
      Scalar.finite (gap points i j) = true) → Greedy points (plan .nearest points)) := by
  refine ⟨fun order => ⟨plan_perm order points, fun hne => ?_⟩, map_fst_stops points,
    plan_nearest points, greedy_plan Double.rankedBy_rank⟩
  obtain ⟨p, rest, rfl⟩ := List.exists_cons_of_ne_nil hne
  obtain ⟨left, hleft⟩ := exists_plan order p rest
  rw [hleft, List.head?_cons]

/-- From the origin two points are equally near: the one listed first comes first. -/
theorem plan_greedy_of_ties :
    let points : List (Vec2 Double) := [⟨0, 0⟩, ⟨1, 0⟩, ⟨-1, 0⟩, ⟨0, 5⟩]
    plan .nearest points = [0, 1, 2, 3] ∧ Greedy points (plan .nearest points) := by
  intro points
  refine ⟨by decide +kernel, (plan_greedy points).2.2.2 ?_⟩
  have hall : ∀ i < 4, ∀ j < 4, i ≠ j → Scalar.finite (gap points i j) = true := by
    decide +kernel
  exact fun i j hi hj => hall i hi j hj

end Tour

end Toolpath
