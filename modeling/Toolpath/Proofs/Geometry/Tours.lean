import Mathlib.Data.List.Basic
import Toolpath.Geometry.Tour

/-!
# Tours visit every point once

Whatever the distances are, and whether they are numbers at all, the stop that comes next is one of
those left, and it is left no longer. So a tour is a permutation of the places in the list, and the
points on its route are those of the list.

## Main results

* `Tour.plan_perm` — a tour visits every place once
* `Tour.route_perm` — the points on the route are the points of the list
-/

namespace Toolpath

namespace Tour

variable {R : Type}

section

variable [Scalar R]

/-- The next stop is the one chosen before or one of the others. -/
theorem nearestFrom_mem (here : Vec2 R) (chosen : Stop R) (best : Option R)
    (others : List (Stop R)) : nearestFrom here chosen best others ∈ chosen :: others := by
  induction others generalizing chosen best with
  | nil => exact List.mem_cons_self
  | cons s others ih =>
    rw [nearestFrom]
    split
    · exact List.mem_cons_of_mem _ (ih s _)
    · exact List.cons_subset_cons _ (List.subset_cons_self _ _) (ih chosen best)

omit [Scalar R] in
/-- The places of the stops that are left once a place was visited. -/
theorem map_fst_eraseP (left : List (Stop R)) (place : Nat) :
    (left.eraseP fun t => t.1 = place).map Prod.fst = (left.map Prod.fst).erase place := by
  rw [List.erase_eq_eraseP, List.eraseP_map]
  congr 2
  funext t
  exact decide_eq_decide.mpr eq_comm

/-- **Every stop that is left is visited once.** -/
theorem visit_perm {fuel : Nat} {left : List (Stop R)} (here : Vec2 R)
    (hfuel : left.length ≤ fuel) : (visit fuel here left).Perm (left.map Prod.fst) := by
  induction fuel generalizing here left with
  | zero =>
    obtain rfl := List.length_eq_zero_iff.mp (Nat.le_zero.mp hfuel)
    exact .nil
  | succ fuel ih =>
    cases left with
    | nil => exact .nil
    | cons s rest =>
      let next := nearestFrom here s none (s :: rest)
      have hmem : next ∈ s :: rest :=
        (List.mem_cons.mp (nearestFrom_mem here s none (s :: rest))).elim
          (fun h => h ▸ List.mem_cons_self) id
      have hplace : next.1 ∈ (s :: rest).map Prod.fst := List.mem_map_of_mem hmem
      have hlength : ((s :: rest).eraseP fun t => t.1 = next.1).length ≤ fuel := by
        rw [← List.length_map (f := Prod.fst), map_fst_eraseP, List.length_erase_of_mem hplace,
          List.length_map]
        exact Nat.sub_le_of_le_add hfuel
      have hrest := ih next.2 hlength
      rw [map_fst_eraseP] at hrest
      exact (hrest.cons next.1).trans (List.perm_cons_erase hplace).symm

omit [Scalar R] in
theorem map_fst_stops (points : List (Vec2 R)) :
    (stops points).map Prod.fst = List.range points.length :=
  List.map_fst_zip (Nat.le_of_eq List.length_range)

omit [Scalar R] in
theorem length_stops (points : List (Vec2 R)) : (stops points).length = points.length := by
  rw [← List.length_map (f := Prod.fst), map_fst_stops, List.length_range]

/-- **A tour visits every place once.** -/
theorem plan_perm (order : TourOrder) (points : List (Vec2 R)) :
    (plan order points).Perm (List.range points.length) := by
  rw [← map_fst_stops]
  unfold plan
  split
  · rename_i s t u rest hstops
    have hlength := length_stops points
    rw [hstops, List.length_cons] at hlength
    rw [hstops, List.map_cons]
    exact (visit_perm s.2 (Nat.le_sub_one_of_lt (by omega))).cons s.1
  · exact .refl _

/-- A tour starts at the first point. -/
theorem exists_plan (order : TourOrder) (p : Vec2 R) (points : List (Vec2 R)) :
    ∃ rest, plan order (p :: points) = 0 :: rest := by
  have hstops : stops (p :: points) = (0, p) :: (stops (p :: points)).tail := by
    simp [stops, List.range_succ_eq_map]
  unfold plan
  split
  · rename_i s t u rest heq
    rw [heq] at hstops
    exact ⟨_, by rw [(List.cons.inj hstops).1]⟩
  · rw [hstops]
    exact ⟨_, rfl⟩

theorem along_plan_ne_nil {α : Type} {entries : List α} {points : List (Vec2 R)}
    (order : TourOrder) (hentries : entries ≠ []) (hpoints : points ≠ []) :
    along entries (plan order points) ≠ [] := by
  obtain ⟨e, entries, rfl⟩ := List.exists_cons_of_ne_nil hentries
  obtain ⟨p, points, rfl⟩ := List.exists_cons_of_ne_nil hpoints
  obtain ⟨rest, hrest⟩ := exists_plan order p points
  rw [hrest]
  exact List.cons_ne_nil e _

end

/-- All places in their order lead through the whole list. -/
theorem along_range {α : Type} (entries : List α) :
    along entries (List.range entries.length) = entries := by
  have hentries : (List.range entries.length).map (fun i => entries[i]?) = entries.map some := by
    refine List.ext_getElem? fun i => ?_
    by_cases hi : i < entries.length
    · simp [hi]
    · simp [hi]
  calc along entries (List.range entries.length)
      = ((List.range entries.length).map fun i => entries[i]?).filterMap id := by
        rw [List.filterMap_map]
        rfl
    _ = (entries.map some).filterMap id := by rw [hentries]
    _ = entries := by rw [List.filterMap_map, Function.id_comp, List.filterMap_some]

/-- **The points on the route** are the points of the list. -/
theorem route_perm [Scalar R] (order : TourOrder) (points : List (Vec2 R)) :
    (route order points).Perm points := by
  have hroute := (plan_perm order points).filterMap fun i => points[i]?
  exact hroute.trans (.of_eq (along_range points))

end Tour

end Toolpath
