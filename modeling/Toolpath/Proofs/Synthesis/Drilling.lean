import Toolpath.Proofs.Gcode.Rows
import Toolpath.Proofs.Geometry.Tours
import Toolpath.Proofs.Number.Order
import Toolpath.Proofs.Simulation.Boring
import Toolpath.Proofs.Simulation.ReadBack
import Toolpath.Proofs.Synthesis.Fragments
import Toolpath.Proofs.Synthesis.Traverses

/-!
# Patterns of drilled holes

A pattern of drilled holes is written as one line that defines a cycle and drills the first hole, a
bare pair of coordinates for every other hole, and a line that cancels the cycle. Whoever runs it
knows that a pair of coordinates is a hole only from the lines before. So that every point gets its
hole, and none gets two, is a matter of the planner, of what is printed and of what is read from it,
and of the modes of the head, and it is put together here from what is known of each.

Lines that name neither a preparatory function nor a place are *quiet*. They may be put in anywhere
in a pattern, between its holes above all, or be taken out: what it drills depends on the others
alone. Which height a cycle has whose line gives none is the one thing that depends on where the
tool is, and a line gives no height only where it would be infinite or undefined.

## Main definitions

* `ProgramLine.loud` — the lines of a program but for those that are quiet
* `Simulator.Drills` — a simulator drills some points while it runs a program

## Main results

* `Cutting.linesOf_drill` — the lines of a pattern
* `Simulator.drills_of_loud` — these lines drill the points
* `Document.drills_of_active` — a pattern of drilled holes drills each of its points once
-/

namespace Toolpath

/-- The place that is read where the coordinates of a point are printed, if they can be read. -/
def Vec2.reread? (decimals : Nat) (p : Vec2 Double) : Option (Vec2 Double) :=
  match Decimal.reread? decimals p.x, Decimal.reread? decimals p.y with
  | some x, some y => some ⟨x, y⟩
  | _, _ => none

/-- Whether both coordinates of a point are of finite size. -/
def Vec2.isFinite (p : Vec2 Double) : Bool := p.x.isFinite && p.y.isFinite

theorem Vec2.reread?_isSome (decimals : Nat) {p : Vec2 Double} (h : p.isFinite = true) :
    (p.reread? decimals).isSome = true := by
  obtain ⟨hx, hy⟩ := Bool.and_eq_true_iff.mp h
  obtain ⟨x, hx⟩ := Option.isSome_iff_exists.mp (Decimal.reread?_isSome decimals hx)
  obtain ⟨y, hy⟩ := Option.isSome_iff_exists.mp (Decimal.reread?_isSome decimals hy)
  rw [Vec2.reread?, hx, hy]
  rfl

/-! ### Lines of motions without a feed -/

namespace Command

open Statement

variable (d : Dialect) (decimals : Nat)

/-- The line of a motion that states no feed. -/
def line (c : Command Double) : List Char := Word.row (c.wordsOf decimals none)

/-- What is read from the line of a motion that states no feed. -/
def reading (c : Command Double) : ProgramLine Double :=
  ⟨(c.wordsOf decimals none).filterMap Word.address?, []⟩

theorem read_line (c : Command Double) : ProgramLine.read (c.line decimals) = c.reading decimals :=
  ProgramLine.read_row (proper_wordsOf decimals none c)

/-- A command that asks for no feed leaves the one in effect. -/
theorem linesOf_writeFrom_cons {c : Command Double} (hfeed : c.feed? = none)
    (cs : List (Command Double)) : linesOf d (writeFrom d decimals none (c :: cs)) =
      linesOf d (c.statements d decimals none) ++ linesOf d (writeFrom d decimals none cs) := by
  have hafter : c.feedAfter none = none := by simp only [feedAfter, hfeed]
  rw [writeFrom, linesOf_append, hafter]

/-- **Motions that state no feed** are written line by line. -/
theorem linesOf_writeFrom_append {cs : List (Command Double)}
    (hcs : ∀ c ∈ cs, c.numbers ≠ [] ∧ c.feed? = none) (rest : List (Command Double)) :
    linesOf d (writeFrom d decimals none (cs ++ rest)) =
      cs.map (line decimals) ++ linesOf d (writeFrom d decimals none rest) := by
  induction cs with
  | nil => rfl
  | cons c cs ih =>
    obtain ⟨⟨hnumbers, hfeed⟩, hcs⟩ := List.forall_mem_cons.mp hcs
    have hstated : c.statedFeed? none = none := hfeed
    rw [List.cons_append, linesOf_writeFrom_cons d decimals hfeed,
      linesOf_motion d decimals hnumbers, hstated, ih hcs]
    rfl

/-- The line that cancels a drilling cycle. -/
def cancelLine : List Char := Word.row [Word.g 80]

/-- What is read from the line that cancels a drilling cycle. -/
theorem values_cancelLine :
    (ProgramLine.read cancelLine : ProgramLine Double).values 'G' = [Scalar.ofNat 80] := by
  decide +kernel

/-! ### What is read from the lines -/

theorem nodup_letters (c : Command Double) : ((c.wordsOf decimals none).map Word.letter).Nodup := by
  cases c <;> simp [wordsOf, motionCodes, numbers, Word.ofScalar, Word.g, Word.ofNat]

/-- Under the letter of a number the line of a motion says the number that is printed. -/
theorem value?_reading {c : Command Double} {letter : Char} {x : Double}
    (hx : (letter, x) ∈ c.numbers) :
    (c.reading decimals).value? letter = Decimal.reread? decimals x := by
  have hword : Word.ofScalar decimals letter x ∈ c.wordsOf decimals none := by
    rw [wordsOf, List.mem_append, List.mem_append]
    exact .inl (.inr (List.mem_map_of_mem hx))
  exact ProgramLine.value?_row _ [] hword (nodup_letters decimals c)

/-- The preparatory functions of a motion are those that it begins with. -/
theorem filter_wordsOf (c : Command Double) :
    (c.wordsOf decimals none).filter (·.letter == 'G') = c.motionCodes := by
  cases c <;> simp [wordsOf, motionCodes, numbers, Word.ofScalar, Word.g, Word.ofNat]

theorem values_reading {c : Command Double} {n : Nat} (hcodes : c.motionCodes = [Word.g n])
    (hn : n ∈ [0, 83]) : (c.reading decimals).values 'G' = [Scalar.ofNat n] := by
  have hread : ∀ n ∈ [0, 83], Numeral.read? (Word.g n).number.toList =
      some (Scalar.ofNat n : Double) := by
    decide +kernel
  rw [reading, ProgramLine.values_row, filter_wordsOf, hcodes, List.filterMap_cons, hread n hn]
  rfl

theorem hasG_reading {c : Command Double} (hcodes : c.motionCodes = []) :
    (c.reading decimals).hasG = false := by
  refine Bool.eq_false_iff.mpr fun h => ?_
  obtain ⟨w, hw, hletter, -⟩ := (ProgramLine.hasAny_row_iff _ [] ['G']).mp h
  have hfilter : w ∈ (c.wordsOf decimals none).filter (·.letter == 'G') :=
    List.mem_filter.mpr ⟨hw, beq_iff_eq.mpr (List.mem_singleton.mp hletter)⟩
  rw [filter_wordsOf, hcodes] at hfilter
  cases hfilter

/-- A motion that names a place names the one that is read where its coordinates are printed. -/
theorem names_reading {c : Command Double} {p q : Vec2 Double} (hx : ('X', p.x) ∈ c.numbers)
    (hy : ('Y', p.y) ∈ c.numbers) (hq : p.reread? decimals = some q) :
    (c.reading decimals).Names q := by
  unfold Vec2.reread? at hq
  split at hq
  · rename_i x y hpx hpy
    obtain rfl := Option.some.inj hq
    exact ⟨(value?_reading decimals hx).trans hpx, (value?_reading decimals hy).trans hpy⟩
  · cases hq

end Command

/-! ### Patterns -/

namespace Cutting

open Command Statement

variable (c : Cutting Double) (d : Dialect) (decimals : Nat) (comment : String)

/-- What is read from the lines of a pattern of drilled holes, but for those that are quiet. -/
def drillReadings (depth increment : Double) (p : Vec2 Double) (rest : List (Vec2 Double)) :
    List (ProgramLine Double) :=
  [c.lift.reading decimals, (rapid p).reading decimals] ++
    (peck p (-depth) c.clearance increment c.plunge).reading decimals ::
      (rest.map (fun q => (hole q).reading decimals) ++
        [ProgramLine.read cancelLine, c.lift.reading decimals])

/-- **The lines of a pattern of drilled holes** behind the remark. -/
theorem linesOf_drill (depth increment : Double) (p : Vec2 Double) (rest : List (Vec2 Double)) :
    (linesOf d (writeFrom d decimals none (c.drill depth increment (p :: rest)))).map
      ProgramLine.read = c.drillReadings decimals depth increment p rest := by
  let motions : List (Command Double) :=
    c.lift :: rapid p :: peck p (-depth) c.clearance increment c.plunge :: rest.map hole
  have hlift : ∀ a ∈ [c.lift], a.numbers ≠ [] ∧ a.feed? = none :=
    List.forall_mem_singleton.mpr ⟨List.cons_ne_nil _ _, rfl⟩
  have hmotions : ∀ a ∈ motions, a.numbers ≠ [] ∧ a.feed? = none := by
    simp [motions, lift, numbers, feed?]
  have hcancel : linesOf d [.words [Word.g 80]] = [cancelLine] :=
    linesOf_words d (List.forall_mem_singleton.mpr (Word.proper_ofNat rfl 2 80))
  have hclosing : linesOf d (writeFrom d decimals none [.codes [Word.g 80], c.lift]) =
      [cancelLine, c.lift.line decimals] := by
    have hlast := linesOf_writeFrom_append d decimals hlift []
    rw [linesOf_writeFrom_cons d decimals rfl, statements, hcancel, ← List.append_nil [c.lift],
      hlast]
    rfl
  have hdrill : c.drill depth increment (p :: rest) =
      motions ++ [.codes [Word.g 80], c.lift] := by simp [drill, motions]
  rw [hdrill, linesOf_writeFrom_append d decimals hmotions, hclosing]
  simp [motions, drillReadings, read_line, Function.comp_def]

/-- The lines of a pattern of drilled holes are loud, as far as its points can be read. -/
theorem loud_drillReadings (depth increment : Double) (p : Vec2 Double) {rest : List (Vec2 Double)}
    (hrest : ∀ q ∈ rest, (q.reread? decimals).isSome = true) :
    ∀ l ∈ c.drillReadings decimals depth increment p rest, l.isQuiet = false := by
  have hmotion {a : Command Double} {n : Nat} (hcodes : a.motionCodes = [Word.g n])
      (hn : n ∈ [0, 83]) : (a.reading decimals).isQuiet = false :=
    ProgramLine.isQuiet_of_values_ne_nil
      (by rw [values_reading decimals hcodes hn]; exact List.cons_ne_nil _ _)
  have hcancel : (ProgramLine.read cancelLine : ProgramLine Double).isQuiet = false :=
    ProgramLine.isQuiet_of_values_ne_nil
      (by rw [values_cancelLine]; exact List.cons_ne_nil _ _)
  have hlift : (c.lift.reading decimals).isQuiet = false := hmotion rfl (by decide)
  intro l hl
  simp only [drillReadings, List.mem_append, List.mem_cons, List.mem_map, List.not_mem_nil,
    or_false] at hl
  rcases hl with (rfl | rfl) | rfl | ⟨q, hq, rfl⟩ | rfl | rfl
  · exact hlift
  · exact hmotion rfl (by decide)
  · exact hmotion rfl (by decide)
  · obtain ⟨place, hplace⟩ := Option.isSome_iff_exists.mp (hrest q hq)
    exact (names_reading decimals (by simp [numbers]) (by simp [numbers]) hplace).isQuiet
  · exact hcancel
  · exact hlift

end Cutting

/-! ### Programs that drill -/

/-- The lines of a program, but for those that are quiet. -/
def ProgramLine.loud (program : String) : List (ProgramLine Double) :=
  (ProgramLine.readAll program).filter fun l => !l.isQuiet

namespace Simulator

open Command

/-- A simulator drills some points while it runs a program, one hole for each, at the places and
with the heights that are read where they are printed. A height that cannot be read is that of the
tool. -/
structure Drills (s : Simulator Double) (program : String) (decimals : Nat)
    (bottom retract : Double) (points : List (Vec2 Double)) : Prop where
  /-- The holes of the run are at the points, in their order. -/
  holes : ∃ (z : Double) (places : List (Vec2 Double)),
    places.map some = points.map (Vec2.reread? decimals) ∧
    s.Performs (ProgramLine.readAll program) (places.map fun p =>
      ⟨p, (Decimal.reread? decimals retract).getD z, (Decimal.reread? decimals bottom).getD z⟩)
      (s.run program)
  /-- There is no cycle left. -/
  ended : (s.run program).head.cycle = none

/-- **The lines of a pattern drill its points**, whatever quiet lines stand between them. -/
theorem drills_of_loud {s : Simulator Double} {program : String} {c : Cutting Double}
    {decimals : Nat} {depth increment : Double} {p : Vec2 Double} {rest : List (Vec2 Double)}
    (hs : s.head.Idle) (hpoints : ∀ q ∈ p :: rest, (q.reread? decimals).isSome = true)
    (hprogram : ProgramLine.loud program = c.drillReadings decimals depth increment p rest) :
    s.Drills program decimals (-depth) c.clearance (p :: rest) := by
  obtain ⟨places, hplaces⟩ := exists_map_some hpoints
  cases places with
  | nil => cases hplaces
  | cons q qs =>
    obtain ⟨hq, hqs⟩ := List.cons.inj hplaces
    have hreread : List.Forall₂ (fun a b => a.reread? decimals = some b) rest qs :=
      List.forall₂_map_left_iff.mp (List.forall₂_map_right_iff.mp (List.forall₂_eq_eq_eq ▸ hqs))
    have hholes : List.Forall₂ (fun l b => l.hasG = false ∧ l.Names b)
        (rest.map fun a => (hole a).reading decimals) qs :=
      List.forall₂_map_left_iff.mpr (hreread.imp fun a b hab =>
        ⟨hasG_reading decimals rfl,
          names_reading decimals (by simp [numbers]) (by simp [numbers]) hab⟩)
    let first : Command Double := peck p (-depth) c.clearance increment c.plunge
    have hfirst : (first.reading decimals).Names q :=
      names_reading decimals (by simp [first, numbers]) (by simp [first, numbers]) hq
    have hretract : (first.reading decimals).value? 'R' = Decimal.reread? decimals c.clearance :=
      value?_reading decimals (by simp [first, numbers])
    have hbottom : (first.reading decimals).value? 'Z' = Decimal.reread? decimals (-depth) :=
      value?_reading decimals (by simp [first, numbers])
    have hrapid {a : Command Double} (hcodes : a.motionCodes = [Word.g 0]) :
        Head.Plain (a.reading decimals) :=
      .inr (values_reading decimals hcodes (by decide))
    obtain ⟨⟨z, hdrilled⟩, hidle⟩ := hs.holes_pattern s.step hprogram
      (List.forall_mem_cons.mpr ⟨hrapid rfl, List.forall_mem_singleton.mpr (hrapid rfl)⟩)
      (values_reading decimals rfl (by decide)) hfirst hholes values_cancelLine
      (List.forall_mem_singleton.mpr (hrapid rfl))
    rw [hretract, hbottom] at hdrilled
    have hrun := s.performs_run program
    rw [hdrilled] at hrun
    refine ⟨⟨z, q :: qs, hplaces.symm, hrun⟩, ?_⟩
    rw [head_run]
    exact hidle.cycle

end Simulator

/-! ### Blocks -/

/-- The order in which holes are visited. -/
def DrillHoles.order {R : Type} (data : DrillHoles R) : TourOrder :=
  if data.optimalPath then .nearest else .asListed

namespace Document

open Command Statement

/-- The points that a pattern of drilled holes has. -/
def locations {R S : Type} [Analytic R] (d : Document R S) (x : NodeId) : List (Vec2 R) :=
  (d.childSegments x).filterMap Segment.location?

variable {d : Project} {f : ProgramFormat} {x : NodeId} {b : StoredBlock}
  {data : DrillHoles Double} {t : Tool Double}

/-- What a pattern of drilled holes yields, if nothing is missing. -/
theorem commands_drillHoles (hpayload : b.payload = .drillHoles data)
    (htool : d.findTool? x = some t) (hdepth : ¬ data.depth ≤ Scalar.precision)
    (hpoints : d.locations x ≠ []) : ∃ increment, d.commands f.decimals x b =
      .ok (.remark b.comment :: (⟨d.material.clearance, t⟩ : Cutting Double).drill data.depth
        increment (Tour.route data.order (d.locations x))) := by
  have hsome : ¬ ((d.childSegments x).filterMap Segment.location?).isEmpty = true :=
    mt List.isEmpty_iff.mp hpoints
  refine ⟨if Scalar.precision < data.increment then data.increment else data.depth, ?_⟩
  rw [commands, hpayload]
  show d.drillCommands x b data = _
  rw [drillCommands, cutting, htool]
  simp only [bind, Except.bind, if_neg hsome, if_neg hdepth]
  rfl

/-- The remark before a pattern is quiet, so that the loud lines are those of the pattern. -/
theorem loud_written (hb : d.active? x = some b) (hpayload : b.payload = .drillHoles data)
    {cs : List (Command Double)} (hcs : d.commands f.decimals x b = .ok (.remark b.comment :: cs))
    (ending : LineEnding) : ProgramLine.loud (ending.apply (d.written f x)) =
      ((linesOf f.dialect (writeFrom f.dialect f.decimals none cs)).map ProgramLine.read).filter
        fun l => !l.isQuiet := by
  obtain ⟨hget, hactive⟩ := Option.filter_eq_some_iff.mp hb
  have hgroup : b.kind.isGroup = false := by rw [Block.kind, hpayload]; rfl
  have hactive : ¬ b.flags.suppressed = true := by simpa using hactive
  have hwritten : d.written f x = Statement.program f.dialect
      (write f.dialect f.decimals (.remark b.comment :: cs)) := by
    rw [written, outcome_of_not_isGroup hget hgroup, if_neg hactive]
    exact congrArg _ (d.own_of_commands f (p := (x, b)) hcs)
  have hremark : ((linesOf f.dialect [.remark b.comment]).map ProgramLine.read).filter
      (fun l : ProgramLine Double => !l.isQuiet) = [] := by
    rw [List.filter_eq_nil_iff]
    intro l hl
    obtain ⟨line, hline, rfl⟩ := List.mem_map.mp hl
    rw [linesOf_eq, List.flatMap_singleton] at hline
    obtain ⟨part, -, hpart⟩ := exists_of_mem_lines_remark f.dialect hline
    rw [ProgramLine.isQuiet, ProgramLine.hasAny, ProgramLine.words_remark f.dialect.remarks hpart]
    exact Bool.false_ne_true
  have hlines : Text.lines (d.written f x).toList = linesOf f.dialect [.remark b.comment] ++
      linesOf f.dialect (writeFrom f.dialect f.decimals none cs) := by
    rw [hwritten]
    exact linesOf_writeFrom_cons f.dialect f.decimals rfl cs
  rw [ProgramLine.loud, ProgramLine.readAll, LineEnding.lines_apply, hlines, List.map_append,
    List.filter_append, hremark, List.nil_append]

/-- **A pattern of drilled holes drills each of its points once**, in the order of its tour, in any
dialect and with any number of decimals. So does every program with the same loud lines. -/
theorem drills_of_active (hb : d.active? x = some b) (hpayload : b.payload = .drillHoles data)
    (htool : d.findTool? x = some t) (hdepth : ¬ data.depth ≤ Scalar.precision)
    (hpoints : d.locations x ≠ []) (ending : LineEnding) :
    (Tour.plan data.order (d.locations x)).Perm (List.range (d.locations x).length) ∧
    (Tour.route data.order (d.locations x)).Perm (d.locations x) ∧
    ((∀ p ∈ d.locations x, p.isFinite = true) → ∀ (s : Simulator Double) (program : String),
      s.head.Idle → ProgramLine.loud program = ProgramLine.loud (ending.apply (d.written f x)) →
      s.Drills program f.decimals (-data.depth) d.material.clearance
        (Tour.route data.order (d.locations x))) := by
  have hroute := Tour.route_perm data.order (d.locations x)
  refine ⟨Tour.plan_perm _ _, hroute, fun hfinite s program hs hprogram => ?_⟩
  have hreread : ∀ p ∈ Tour.route data.order (d.locations x),
      (p.reread? f.decimals).isSome = true :=
    fun p hp => Vec2.reread?_isSome f.decimals (hfinite p (hroute.mem_iff.mp hp))
  obtain ⟨increment, hcs⟩ := commands_drillHoles (f := f) hpayload htool hdepth hpoints
  rw [loud_written hb hpayload hcs] at hprogram
  cases hpath : Tour.route data.order (d.locations x) with
  | nil =>
    rw [hpath] at hroute
    exact absurd (List.nil_perm.mp hroute) hpoints
  | cons p rest =>
    rw [hpath] at hreread
    have hloud := Cutting.loud_drillReadings ⟨d.material.clearance, t⟩ f.decimals data.depth
      increment p (List.forall_mem_cons.mp hreread).2
    rw [hpath, Cutting.linesOf_drill, List.filter_eq_self.mpr fun l hl => by rw [hloud l hl]; rfl]
      at hprogram
    exact Simulator.drills_of_loud hs hreread hprogram

/-- A program that changes the tool and drills two holes at program zero. -/
def drilledTwice : Project :=
  let (pattern, d) := ((Document.new "drilled").add { payload := Payload.standard .tool }).2.add
    { payload := Payload.standard .drillHoles }
  let points := (d.children? pattern).getD d.root
  ((d.push points { payload := Payload.standard .point }).2.push points
    { payload := Payload.standard .point }).2

-- The sine and the cosine are those of the machine, which leaves open what they are.
theorem isFinite_of_mem_drilledTwice (hsin : (Analytic.sin (0 : Double)).isFinite = true)
    (hcos : (Analytic.cos (0 : Double)).isFinite = true) :
    ∀ p ∈ drilledTwice.locations ⟨1⟩, p.isFinite = true := by
  have hangle : Analytic.radians (0 : Double) = 0 := by decide +kernel
  have hlocations : drilledTwice.locations ⟨1⟩ =
      List.replicate 2 (Vec2.zero.rotate (0 : Double) + Vec2.zero) := rfl
  intro p hp
  rw [hlocations] at hp
  obtain rfl := List.eq_of_mem_replicate hp
  have hplace : Vec2.zero.rotate (0 : Double) + Vec2.zero =
      ⟨0 * Analytic.cos (0 : Double) - 0 * Analytic.sin (0 : Double) + 0,
        0 * Analytic.sin (0 : Double) + 0 * Analytic.cos (0 : Double) + 0⟩ := by
    rw [Vec2.rotate, hangle]
    rfl
  rw [hplace]
  rcases Double.zero_mul_of_isFinite hsin with hs | hs <;>
    rcases Double.zero_mul_of_isFinite hcos with hc | hc <;>
    rw [hs, hc] <;> decide +kernel

/-- Where the points of a program are is for the sine and the cosine of the machine to say. No more
is asked of them here than that those of zero are finite. -/
theorem drills_of_active_drilledTwice :
    drilledTwice.active? ⟨1⟩ = some { payload := Payload.standard .drillHoles } ∧
    (∃ t, drilledTwice.findTool? ⟨1⟩ = some t) ∧ ¬ (1 / 10 : Double) ≤ Scalar.precision ∧
    drilledTwice.locations ⟨1⟩ ≠ [] ∧
    ((Analytic.sin (0 : Double)).isFinite = true → (Analytic.cos (0 : Double)).isFinite = true →
      ∀ s : Simulator Double, s.head.Idle →
      s.Drills (drilledTwice.written (drilledTwice.format none) ⟨1⟩)
        (drilledTwice.format none).decimals (-(1 / 10)) drilledTwice.material.clearance
        (Tour.route .nearest (drilledTwice.locations ⟨1⟩))) := by
  have hb : drilledTwice.active? ⟨1⟩ = some { payload := Payload.standard .drillHoles } := by
    decide +kernel
  have htool : (drilledTwice.findTool? ⟨1⟩).isSome = true := by decide +kernel
  have hdepth : ¬ (1 / 10 : Double) ≤ Scalar.precision := by decide +kernel
  have htwo : (drilledTwice.locations ⟨1⟩).length = 2 := by decide +kernel
  have hpoints : drilledTwice.locations ⟨1⟩ ≠ [] := List.ne_nil_of_length_eq_add_one htwo
  obtain ⟨t, ht⟩ := Option.isSome_iff_exists.mp htool
  exact ⟨hb, ⟨t, ht⟩, hdepth, hpoints, fun hsin hcos s hs =>
    (drills_of_active (f := drilledTwice.format none) hb rfl ht hdepth hpoints .lf).2.2
      (isFinite_of_mem_drilledTwice hsin hcos) s _ hs rfl⟩

end Document

end Toolpath
