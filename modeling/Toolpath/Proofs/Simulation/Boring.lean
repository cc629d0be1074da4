import Toolpath.Proofs.Simulation.Legs

/-!
# Boring holes

`Head.holes` reads from lines which holes are due. That a simulator makes them is another matter,
and it is told here of the simulator itself: of the cells that it cuts, the steps that it counts and
the place where its tool stops. A straight move is such a relation between two simulators, a hole is
three of them, and a run of lines is one hole after the other with nothing in between but what the
other lines do: a line that drills no hole makes one move at most, in the motion in effect.

`Simulator.Performs` carries the holes beside the lines. Whether a line drills is asked of the head
that the simulator has when it comes to the line, so every hole that is due is bored, and no other.

## Main definitions

* `Simulator.GoesTo` — a simulator moves straight to a place
* `Simulator.Bores` — it goes above a place, to the bottom of the hole and back up
* `Simulator.Performs` — it bores some holes on its way through lines, and no others

## Main results

* `Simulator.bores_execute` — a line that drills is executed by boring its hole
* `Simulator.performs_run` — a program is run by boring the holes that are due
-/

namespace Toolpath

namespace Simulator

variable {R : Type} [Analytic R] {s s' : Simulator R}

/-- A simulator with its head prepared for a line. -/
def ready (s : Simulator R) (l : ProgramLine R) : Simulator R :=
  { s with head := s.head.prepare l }

/-- A simulator moves straight to a place. It cuts once for every step on its way and once where the
tool stops. A place that is nearer than the precision is not gone to. -/
inductive GoesTo (s : Simulator R) (target : Vec3 R) : Simulator R → Prop where
  /-- The tool is there. -/
  | near (hnear : (target - s.head.position).norm < Scalar.precision) : GoesTo s target s
  /-- The tool moves there. -/
  | far {s' : Simulator R} (hfar : ¬ (target - s.head.position).norm < Scalar.precision)
      (hhead : s'.head = s.head.placed target)
      (hcuts : s.Cuts (s.head.bites ((Scalar.marks s.step (target - s.head.position).norm).map
        (Path.onLine s.head.position target) ++ [target])) s') : GoesTo s target s'

/-- A simulator bores a hole: its tool goes above the place, to the bottom and back up. -/
def Bores (s : Simulator R) (k : Head.Hole R) (s' : Simulator R) : Prop :=
  ∃ above below, s.GoesTo ⟨k.place.x, k.place.y, k.cycle.retract⟩ above ∧
    above.GoesTo ⟨k.place.x, k.place.y, k.cycle.bottom⟩ below ∧
    below.GoesTo ⟨k.place.x, k.place.y, k.cycle.retract⟩ s'

/-- A simulator bores some holes on its way through lines. -/
inductive Performs : Simulator R → List (ProgramLine R) → List (Head.Hole R) → Simulator R → Prop
    where
  /-- There is no line left. -/
  | done (s : Simulator R) : Performs s [] [] s
  /-- The line drills, and the hole is bored. -/
  | hole {s s' s'' : Simulator R} {l : ProgramLine R} {k : Head.Hole R}
      {lines : List (ProgramLine R)} {holes : List (Head.Hole R)} (hk : s.head.hole? l = some k)
      (hbores : (s.ready l).Bores k s') (hrest : Performs s' lines holes s'') :
      Performs s (l :: lines) (k :: holes) s''
  /-- The line drills no hole and has no move, so the tool stays where it is. -/
  | rests {s s' : Simulator R} {l : ProgramLine R} {lines : List (ProgramLine R)}
      {holes : List (Head.Hole R)} (hk : s.head.hole? l = none)
      (hlegs : (s.head.prepare l).legs l = []) (hrest : Performs (s.ready l) lines holes s') :
      Performs s (l :: lines) holes s'
  /-- The line drills no hole, and its one move is made in the motion in effect. -/
  | moves {s s' : Simulator R} {l : ProgramLine R} {leg : Leg R} {lines : List (ProgramLine R)}
      {holes : List (Head.Hole R)} (hk : s.head.hole? l = none)
      (hlegs : (s.head.prepare l).legs l = [leg])
      (hleg : leg = (s.head.prepare l).leg l ((s.head.prepare l).target l))
      (hrest : Performs ((s.ready l).follow leg) lines holes s') : Performs s (l :: lines) holes s'

/-- A straight leg is a straight move. -/
theorem goesTo_follow (s : Simulator R) (target : Vec3 R) :
    s.GoesTo target (s.follow (.straight target)) := by
  by_cases h : (target - s.head.position).norm < Scalar.precision
  · rw [follow_of_short h]
    exact .near h
  · have hstations := Path.straight_of_not_short s.step h
    refine .far h ?_ (hstations ▸ s.cuts_follow (.straight target))
    have hfinish : Path.finish s.head.position (Path.straight s.step s.head.position target) =
        target := by
      rw [hstations, Path.finish, List.getLast?_concat]
      rfl
    rw [head_follow]
    exact congrArg s.head.placed hfinish

/-- **The step lemma**: a line that drills is executed by boring its hole. -/
theorem bores_execute {l : ProgramLine R} {k : Head.Hole R} (hk : s.head.hole? l = some k) :
    (s.ready l).Bores k (s.execute l) := by
  rw [execute_eq_follow, Head.legs_of_hole? hk]
  exact ⟨_, _, goesTo_follow _ _, goesTo_follow _ _, goesTo_follow _ _⟩

/-- **The run lemma**: lines are executed by boring the holes that are due. -/
theorem performs_foldl_execute (s : Simulator R) (lines : List (ProgramLine R)) :
    s.Performs lines (s.head.holes s.step lines) (lines.foldl execute s) := by
  induction lines generalizing s with
  | nil => exact .done s
  | cons l lines ih =>
    have hrest := ih (s.execute l)
    rw [head_execute, (s.cuts_execute l).step] at hrest
    rw [List.foldl_cons, Head.holes]
    cases hk : s.head.hole? l with
    | some k => exact .hole hk (bores_execute hk) hrest
    | none =>
      rw [execute_eq_follow] at hrest ⊢
      rcases Head.legs_of_hole?_eq_none hk with hlegs | hlegs
      · rw [hlegs] at hrest ⊢
        exact .rests hk hlegs hrest
      · rw [hlegs] at hrest ⊢
        exact .moves hk hlegs rfl hrest

/-- **A program is run by boring the holes that are due.** -/
theorem performs_run [Numeral R] (s : Simulator R) (program : String) :
    s.Performs (ProgramLine.readAll program)
      (s.head.holes s.step (ProgramLine.readAll program)) (s.run program) := by
  rw [run_eq]
  exact s.performs_foldl_execute _

end Simulator

end Toolpath
