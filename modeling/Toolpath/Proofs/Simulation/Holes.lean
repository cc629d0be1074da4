import Mathlib.Data.List.Forall2
import Toolpath.Proofs.Simulation.Sweeps

/-!
# Drilled holes

A line drills a hole if a drilling cycle is in effect for it and it has a coordinate of the plane.
Then the tool is sent above the place, to the bottom and back up, and nowhere else. Which lines of a
program drill, and where, depends on the lines before them through the modes alone: a cycle is
defined by one line and cancelled by another, and between them a bare pair of coordinates is a hole.

What is told here is told for a head that takes coordinates as they are. It is `Idle` while no cycle
is active, and `Drilling` while one is. A line either keeps one of these conditions or leads from
the one to the other, so a program that drills a pattern is followed from line to line by knowing
which of them holds.

## Main definitions

* `Head.Hole`, `Head.hole?`, `Head.holes` — the holes that lines drill
* `Head.Idle`, `Head.Drilling` — no cycle is active, and one is
* `ProgramLine.isQuiet` — a line names neither a preparatory function nor a place

## Main results

* `Head.Idle.run`, `Head.Drilling.run` — what lines drill while a condition holds
* `Head.Idle.holes_pattern` — the holes of a pattern
-/

namespace Toolpath

variable {R : Type}

/-- What a filter keeps splits the list. -/
theorem exists_of_filter_eq {α : Type} {keep : α → Bool} {a : α} {xs as bs : List α}
    (h : xs.filter keep = as ++ a :: bs) :
    ∃ front back, xs = front ++ a :: back ∧ front.filter keep = as ∧ back.filter keep = bs := by
  obtain ⟨front, rest, rfl, hfront, hrest⟩ := List.filter_eq_append_iff.mp h
  obtain ⟨pause, back, rfl, hpause, -, hback⟩ := List.filter_eq_cons_iff.mp hrest
  have hnone : pause.filter keep = [] := List.filter_eq_nil_iff.mpr hpause
  exact ⟨front ++ pause, back, (List.append_assoc ..).symm,
    by rw [List.filter_append, hfront, hnone, List.append_nil], hback⟩

namespace ProgramLine

/-- Whether a line names neither a preparatory function nor a coordinate of the plane. -/
def isQuiet (l : ProgramLine R) : Bool := !l.hasAny ['G', 'X', 'Y']

theorem values_eq_nil {l : ProgramLine R} {c : Char} {letters : List Char}
    (h : l.hasAny letters = false) (hc : c ∈ letters) : l.values c = [] := by
  rw [values, List.map_eq_nil_iff, List.filter_eq_nil_iff]
  intro a ha hletter
  rw [hasAny, List.any_eq_false] at h
  exact h a ha (List.contains_iff_mem.mpr (eq_of_beq hletter ▸ hc))

theorem isQuiet_of_values_ne_nil {l : ProgramLine R} (h : l.values 'G' ≠ []) :
    l.isQuiet = false := by
  refine Bool.eq_false_iff.mpr fun hquiet => h ?_
  exact values_eq_nil ((Bool.not_eq_true' _).mp hquiet) List.mem_cons_self

theorem hasAny_of_value? {l : ProgramLine R} {c : Char} {letters : List Char} {x : R}
    (h : l.value? c = some x) (hc : c ∈ letters) : l.hasAny letters = true := by
  obtain ⟨a, ha, -⟩ := Option.map_eq_some_iff.mp h
  have hmem := List.mem_of_find?_eq_some ha
  have hletter := List.find?_some ha
  rw [hasAny, List.any_eq_true]
  exact ⟨a, List.mem_reverse.mp hmem, List.contains_iff_mem.mpr (eq_of_beq hletter ▸ hc)⟩

theorem hasAny_mono {l : ProgramLine R} {letters more : List Char} (h : l.hasAny more = false)
    (hsub : letters ⊆ more) : l.hasAny letters = false := by
  rw [hasAny, List.any_eq_false] at h ⊢
  exact fun a ha hletter =>
    h a ha (List.contains_iff_mem.mpr (hsub (List.contains_iff_mem.mp hletter)))

end ProgramLine

namespace Head

/-- A drilled hole. -/
structure Hole (R : Type) where
  /-- The place. -/
  place : Vec2 R
  /-- The cycle that it is drilled with. -/
  cycle : DrillCycle R
deriving DecidableEq, Repr

/-- Where the tool is sent for a hole: above it, to its bottom, and back up. -/
def Hole.targets (k : Hole R) : List (Vec3 R) :=
  [⟨k.place.x, k.place.y, k.cycle.retract⟩, ⟨k.place.x, k.place.y, k.cycle.bottom⟩,
    ⟨k.place.x, k.place.y, k.cycle.retract⟩]

section

variable [Scalar R]

/-- The cycle with which a line drills for a head that is prepared for it. -/
def drilling? (h : Head R) (l : ProgramLine R) : Option (DrillCycle R) :=
  h.cycle.filter fun _ => (l.values 'G').any definesCycle || !l.hasG

/-- The hole that a line drills, if it does. -/
def hole? (h : Head R) (l : ProgramLine R) : Option (Hole R) :=
  let h := h.prepare l
  if l.hasPlane then (h.drilling? l).map fun c => ⟨⟨(h.target l).x, (h.target l).y⟩, c⟩ else none

/-- The head with what a line tells it besides preparatory functions. -/
def informed (h : Head R) (l : ProgramLine R) : Head R := (l.markers.foldl told h).withFeed l

omit [Scalar R] in
/-- A head that is informed stays where it is, and in its modes. -/
theorem informed_eq (h : Head R) (l : ProgramLine R) : ∃ origin diameter feed,
    h.informed l = { h with origin, diameter, feed } := by
  have htold : ∀ (ms : List (Marker R)) (h : Head R), ∃ origin diameter,
      ms.foldl told h = { h with origin, diameter } := by
    intro ms
    induction ms with
    | nil => exact fun h => ⟨h.origin, h.diameter, rfl⟩
    | cons m ms ih =>
      intro h
      obtain ⟨origin, diameter, heq⟩ := ih (h.told m)
      exact ⟨origin, diameter, heq.trans (by cases m <;> rfl)⟩
  obtain ⟨origin, diameter, heq⟩ := htold l.markers h
  rw [informed, heq, withFeed]
  split
  · exact ⟨origin, diameter, _, rfl⟩
  · exact ⟨origin, diameter, h.feed, rfl⟩

theorem prepare_eq (h : Head R) (l : ProgramLine R) :
    h.prepare l = (l.values 'G').foldl (prepared l) (h.informed l) := rfl

end

variable [Analytic R]

/-- The holes that a head drills while it obeys lines. -/
def holes (step : R) : Head R → List (ProgramLine R) → List (Hole R)
  | _, [] => []
  | h, l :: rest => (h.hole? l).toList ++ holes step (h.obey step l).1 rest

variable {step : R} {h : Head R} {l : ProgramLine R} {c : DrillCycle R}

theorem holes_append (h : Head R) (as bs : List (ProgramLine R)) :
    h.holes step (as ++ bs) = h.holes step as ++ (h.after step as).holes step bs := by
  induction as generalizing h with
  | nil => rfl
  | cons a as ih =>
    rw [List.cons_append, holes, holes, ih, List.append_assoc]
    rfl

theorem after_append (h : Head R) (as bs : List (ProgramLine R)) :
    h.after step (as ++ bs) = (h.after step as).after step bs := List.foldl_append

theorem after_cons (h : Head R) (l : ProgramLine R) (lines : List (ProgramLine R)) :
    h.after step (l :: lines) = (h.obey step l).1.after step lines := rfl

/-! ### Following a program -/

/-- A head that takes coordinates as they are, without a drilling cycle. -/
structure Idle (h : Head R) : Prop where
  /-- Coordinates are not relative to the position. -/
  absolute : h.incremental = false
  /-- No cycle is active. -/
  cycle : h.cycle = none

/-- A head that takes coordinates as they are, with a drilling cycle. -/
structure Drilling (c : DrillCycle R) (h : Head R) : Prop where
  /-- Coordinates are not relative to the position. -/
  absolute : h.incremental = false
  /-- The cycle is active. -/
  cycle : h.cycle = some c

end Head

namespace ProgramLine

/-- A line that names a place. -/
structure Names (l : ProgramLine R) (p : Vec2 R) : Prop where
  /-- The first coordinate. -/
  x : l.value? 'X' = some p.x
  /-- The second coordinate. -/
  y : l.value? 'Y' = some p.y

theorem Names.hasPlane {l : ProgramLine R} {p : Vec2 R} (h : l.Names p) : l.hasPlane = true :=
  hasAny_of_value? h.x (by decide)

theorem Names.isQuiet {l : ProgramLine R} {p : Vec2 R} (h : l.Names p) : l.isQuiet = false := by
  rw [ProgramLine.isQuiet, hasAny_of_value? h.x (by decide)]
  rfl

end ProgramLine

namespace Head

variable [Analytic R] (step : R) {h : Head R} {l : ProgramLine R} {c : DrillCycle R} {p : Vec2 R}

theorem prepare_of_values_eq_nil (h : Head R) (hl : l.values 'G' = []) :
    h.prepare l = h.informed l := by
  rw [prepare_eq, hl]
  rfl

theorem target_of_names (h : Head R) (habsolute : h.incremental = false) (hp : l.Names p) :
    (⟨(h.target l).x, (h.target l).y⟩ : Vec2 R) = p := by
  simp [target, targetAlong, hp.x, hp.y, habsolute]

/-- A line without preparatory functions keeps the modes. -/
theorem keeps_of_values_eq_nil (h : Head R) (hl : l.values 'G' = []) :
    (h.prepare l).incremental = h.incremental ∧ (h.prepare l).cycle = h.cycle := by
  obtain ⟨origin, diameter, feed, heq⟩ := h.informed_eq l
  rw [h.prepare_of_values_eq_nil hl, heq]
  exact ⟨rfl, rfl⟩

/-- Without a cycle nothing is drilled. -/
theorem hole?_eq_none_of_cycle (hcycle : (h.prepare l).cycle = none) : h.hole? l = none := by
  rw [hole?, drilling?, hcycle]
  split <;> rfl

theorem Idle.of_prepare (hl : Idle (h.prepare l)) :
    h.hole? l = none ∧ Idle (h.obey step l).1 :=
  ⟨hole?_eq_none_of_cycle hl.cycle, hl.absolute, hl.cycle⟩

/-- A line without preparatory functions starts no cycle. -/
theorem Idle.obey_plain (hh : h.Idle) (hl : l.values 'G' = []) :
    h.hole? l = none ∧ Idle (h.obey step l).1 := by
  obtain ⟨hincremental, hcycle⟩ := h.keeps_of_values_eq_nil hl
  exact Idle.of_prepare step ⟨hincremental.trans hh.absolute, hcycle.trans hh.cycle⟩

/-- **A quiet line changes nothing about a cycle**, and drills nothing. -/
theorem Drilling.obey_quiet (hh : h.Drilling c) (hl : l.isQuiet = true) :
    h.hole? l = none ∧ Drilling c (h.obey step l).1 := by
  have hnone : l.hasAny ['G', 'X', 'Y'] = false := (Bool.not_eq_true' _).mp hl
  obtain ⟨hincremental, hcycle⟩ :=
    h.keeps_of_values_eq_nil (l.values_eq_nil hnone List.mem_cons_self)
  refine ⟨?_, hincremental.trans hh.absolute, hcycle.trans hh.cycle⟩
  have hplane : l.hasPlane = false := ProgramLine.hasAny_mono hnone (by decide)
  rw [hole?, hplane, if_neg Bool.false_ne_true]

/-- **A bare place is drilled** while a cycle is active. -/
theorem Drilling.obey_names (hh : h.Drilling c) (hG : l.hasG = false) (hp : l.Names p) :
    h.hole? l = some ⟨p, c⟩ ∧ Drilling c (h.obey step l).1 := by
  obtain ⟨hincremental, hcycle⟩ :=
    h.keeps_of_values_eq_nil (l.values_eq_nil hG List.mem_cons_self)
  have habsolute := hincremental.trans hh.absolute
  refine ⟨?_, habsolute, hcycle.trans hh.cycle⟩
  rw [hole?, if_pos hp.hasPlane, drilling?, hcycle, hh.cycle, hG, target_of_names _ habsolute hp]
  simp

end Head

/-! ### Preparatory functions -/

namespace Head

variable (step : Double) {h : Head Double} {l : ProgramLine Double} {p : Vec2 Double}

theorem prepared_rapid : prepared l h (Scalar.ofNat 0) = h.select .rapid := by
  have hzero : isOneOf (Scalar.ofNat 0 : Double) [0] = true := by decide +kernel
  rw [prepared, if_pos hzero]

/-- A code that is neither a motion nor the end of a cycle. -/
theorem prepared_of_not_motion {code : Double} (h : Head Double)
    (hmotion : ∀ n ∈ [0, 1, 2, 3], isOneOf code [n] = false) : prepared l h code =
      if isOneOf code [80] then { h with cycle := none }
      else if definesCycle code then h.define l
      else if isOneOf code [90] then { h with incremental := false }
      else if isOneOf code [91] then { h with incremental := true }
      else h := by
  simp only [prepared, hmotion 0 (by decide), hmotion 1 (by decide), hmotion 2 (by decide),
    hmotion 3 (by decide), Bool.false_eq_true, if_false]

theorem prepared_cancel : prepared l h (Scalar.ofNat 80) = { h with cycle := none } := by
  have hmotion : ∀ n ∈ [0, 1, 2, 3], isOneOf (Scalar.ofNat 80 : Double) [n] = false := by
    decide +kernel
  have hcancel : isOneOf (Scalar.ofNat 80 : Double) [80] = true := by decide +kernel
  rw [prepared_of_not_motion h hmotion, if_pos hcancel]

theorem definesCycle_drill : definesCycle (Scalar.ofNat 83 : Double) = true := by decide +kernel

theorem prepared_drill : prepared l h (Scalar.ofNat 83) = h.define l := by
  have hmotion : ∀ n ∈ [0, 1, 2, 3], isOneOf (Scalar.ofNat 83 : Double) [n] = false := by
    decide +kernel
  have hcancel : isOneOf (Scalar.ofNat 83 : Double) [80] = false := by decide +kernel
  rw [prepared_of_not_motion h hmotion, hcancel, if_neg Bool.false_ne_true,
    if_pos definesCycle_drill]

/-- The head with the one preparatory function of a line. -/
theorem prepare_of_values_eq_singleton {code : Double} (hl : l.values 'G' = [code]) :
    h.prepare l = prepared l (h.informed l) code := by
  rw [prepare_eq, hl]
  rfl

/-- A rapid move starts no cycle. -/
theorem Idle.obey_rapid (hh : h.Idle) (hl : l.values 'G' = [Scalar.ofNat 0]) :
    h.hole? l = none ∧ Idle (h.obey step l).1 := by
  obtain ⟨origin, diameter, feed, heq⟩ := h.informed_eq l
  have hprepare : h.prepare l = (h.informed l).select .rapid := by
    rw [prepare_of_values_eq_singleton hl, prepared_rapid]
  refine Idle.of_prepare step ⟨?_, ?_⟩
  · rw [hprepare, heq]
    exact hh.absolute
  · rw [hprepare]
    rfl

/-- **A cycle is cancelled**, and nothing is drilled with it any more. -/
theorem Drilling.obey_cancel {c : DrillCycle Double} (hh : h.Drilling c)
    (hl : l.values 'G' = [Scalar.ofNat 80]) : h.hole? l = none ∧ Idle (h.obey step l).1 := by
  obtain ⟨origin, diameter, feed, heq⟩ := h.informed_eq l
  have hprepare : h.prepare l = { h.informed l with cycle := none } := by
    rw [prepare_of_values_eq_singleton hl, prepared_cancel]
  refine Idle.of_prepare step ⟨?_, ?_⟩
  · rw [hprepare, heq]
    exact hh.absolute
  · rw [hprepare]

/-- **A cycle is defined**, and its first hole is drilled. A height that the line does not give is
that of the tool. -/
theorem Idle.obey_drill (hh : h.Idle) (hl : l.values 'G' = [Scalar.ofNat 83]) (hp : l.Names p) :
    let c : DrillCycle Double :=
      ⟨(l.value? 'R').getD h.position.z, (l.value? 'Z').getD h.position.z⟩
    h.hole? l = some ⟨p, c⟩ ∧ Drilling c (h.obey step l).1 := by
  intro c
  obtain ⟨origin, diameter, feed, heq⟩ := h.informed_eq l
  have hprepare : h.prepare l = { h.informed l with cycle := some c } := by
    rw [prepare_of_values_eq_singleton hl, prepared_drill, define, heq]
    simp [c, hh.cycle]
  have habsolute : (h.prepare l).incremental = false := by
    rw [hprepare, heq]
    exact hh.absolute
  have hcycle : (h.prepare l).cycle = some c := by rw [hprepare]
  refine ⟨?_, habsolute, hcycle⟩
  rw [hole?, if_pos hp.hasPlane, drilling?, hcycle, target_of_names _ habsolute hp, hl]
  simp [definesCycle_drill]

/-! ### Runs -/

/-- A line that starts no cycle: it is without preparatory functions or a rapid move. -/
def Plain (l : ProgramLine Double) : Prop :=
  l.values 'G' = [] ∨ l.values 'G' = [Scalar.ofNat 0]

/-- **Plain lines drill nothing.** -/
theorem Idle.run {lines : List (ProgramLine Double)} (hlines : ∀ l ∈ lines, Plain l)
    (hh : h.Idle) : h.holes step lines = [] ∧ Idle (h.after step lines) := by
  induction lines generalizing h with
  | nil => exact ⟨rfl, hh⟩
  | cons l lines ih =>
    obtain ⟨hl, hrest⟩ := List.forall_mem_cons.mp hlines
    obtain ⟨hnone, hnext⟩ := hl.elim (hh.obey_plain step) (hh.obey_rapid step)
    obtain ⟨hholes, hafter⟩ := ih hrest hnext
    exact ⟨by rw [holes, hnone, hholes]; rfl, hafter⟩

/-- **Quiet lines between holes change nothing.** Besides them there are bare places, and each is
drilled once, in their order. -/
theorem Drilling.run {c : DrillCycle Double} {lines : List (ProgramLine Double)}
    {places : List (Vec2 Double)} (hlines : List.Forall₂ (fun l p => l.hasG = false ∧ l.Names p)
      (lines.filter fun l => !l.isQuiet) places) (hh : h.Drilling c) :
    h.holes step lines = places.map (⟨·, c⟩) ∧ Drilling c (h.after step lines) := by
  induction lines generalizing h places with
  | nil =>
    obtain rfl := List.forall₂_nil_left_iff.mp hlines
    exact ⟨rfl, hh⟩
  | cons l lines ih =>
    cases hquiet : l.isQuiet with
    | true =>
      rw [List.filter_cons_of_neg (by simp [hquiet])] at hlines
      obtain ⟨hnone, hnext⟩ := hh.obey_quiet step hquiet
      obtain ⟨hholes, hafter⟩ := ih hlines hnext
      exact ⟨by rw [holes, hnone, hholes]; rfl, hafter⟩
    | false =>
      rw [List.filter_cons_of_pos (by simp [hquiet])] at hlines
      obtain ⟨p, rest, ⟨hG, hp⟩, hrest, rfl⟩ := List.forall₂_cons_left_iff.mp hlines
      obtain ⟨hsome, hnext⟩ := hh.obey_names step hG hp
      obtain ⟨hholes, hafter⟩ := ih hrest hnext
      exact ⟨by rw [holes, hsome, hholes]; rfl, hafter⟩

/-- Quiet lines are plain. -/
theorem plain_of_filter {lines part : List (ProgramLine Double)}
    (hlines : lines.filter (fun l => !l.isQuiet) = part) (hpart : ∀ l ∈ part, Plain l) :
    ∀ l ∈ lines, Plain l := by
  intro l hl
  cases hquiet : l.isQuiet with
  | true => exact .inl (l.values_eq_nil ((Bool.not_eq_true' _).mp hquiet) List.mem_cons_self)
  | false => exact hpart l (hlines ▸ List.mem_filter.mpr ⟨hl, by rw [hquiet]; rfl⟩)

/-- **The holes of a pattern**: where a cycle is defined, and at every bare place until it is
cancelled. Quiet lines may stand anywhere. -/
theorem Idle.holes_pattern {lines before places behind : List (ProgramLine Double)}
    {first cancel : ProgramLine Double} {points : List (Vec2 Double)} (hh : h.Idle)
    (hlines : lines.filter (fun l => !l.isQuiet) =
      before ++ first :: (places ++ cancel :: behind))
    (hbefore : ∀ l ∈ before, Plain l) (hfirst : first.values 'G' = [Scalar.ofNat 83])
    (hp : first.Names p)
    (hplaces : List.Forall₂ (fun l p => l.hasG = false ∧ l.Names p) places points)
    (hcancel : cancel.values 'G' = [Scalar.ofNat 80]) (hbehind : ∀ l ∈ behind, Plain l) :
    (∃ z, h.holes step lines = (p :: points).map
      (⟨·, (first.value? 'R').getD z, (first.value? 'Z').getD z⟩)) ∧ Idle (h.after step lines) := by
  obtain ⟨opening, rest, rfl, hopening, hrest⟩ := exists_of_filter_eq hlines
  obtain ⟨between, closing, rfl, hbetween, hclosing⟩ := exists_of_filter_eq hrest
  obtain ⟨hnone, hidle⟩ := hh.run step (plain_of_filter hopening hbefore)
  obtain ⟨hsome, hdrilling⟩ := hidle.obey_drill step hfirst hp
  obtain ⟨hholes, hlast⟩ := hdrilling.run step (hbetween ▸ hplaces)
  obtain ⟨hcancelled, hend⟩ := hlast.obey_cancel step hcancel
  obtain ⟨hmore, hafter⟩ := hend.run step (plain_of_filter hclosing hbehind)
  refine ⟨⟨(h.after step opening).position.z, ?_⟩, ?_⟩
  · rw [holes_append, hnone, holes, hsome, holes_append, hholes, holes, hcancelled, hmore]
    simp
  · rw [after_append, after_cons, after_append, after_cons]
    exact hafter

-- A remark and a feed between two holes. Behind the end of the cycle a place is no hole.
example : Head.holes (1 / 100) (Head.start ⟨0, 0, 0⟩ ⟨0, 0, 1⟩ (1 / 8)) (ProgramLine.readAll
    "G83 X0 Y0 Z-0.30 R0.10 F5\n(slow)\nF4\nX1 Y0\nG80\nX2 Y0") =
      ([⟨⟨0, 0⟩, ⟨1 / 10, -(3 / 10)⟩⟩, ⟨⟨1, 0⟩, ⟨1 / 10, -(3 / 10)⟩⟩] : List (Hole Double)) := by
  decide +kernel

end Head

end Toolpath
