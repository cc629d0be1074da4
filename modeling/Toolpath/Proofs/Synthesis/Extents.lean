import Toolpath.Proofs.Synthesis.Strokes

/-!
# Geometry without extent

A line with equal ends and an arc without a sweep or without a radius have no extent. There is
nothing to cut along them, and an arc whose end is its start would be a full circle for a machine.
A lone line or arc without extent is refused. A sketch leaves out the points among its children and
looks at nothing else, so what has no extent is cut like everything else.

To say what a sketch should do it is enough to say what a block yields along given segments: it
should yield along its own ones what it yields along those of them that have an extent.

## Main definitions

* `Segment.hasExtent` — a segment has a length
* `Document.commandsAlong` — what a line, an arc or a sketch yields along segments
* `Document.SkipsFlat` — a block yields what it would without its segments that have no extent

## Main results

* `Document.skipsFlat_iff` — a line and an arc do, and a sketch does if there is nothing to skip
-/

namespace Toolpath

namespace Segment

variable {R : Type} [Analytic R]

/-- Whether a segment has a length. -/
def hasExtent (s : Segment R) : Bool := decide (0 < s.length)

/-- Whether a segment is an arc that ends at the angle at which it starts. -/
def closes [DecidableEq R] : Segment R → Bool
  | arc _ _ start sweep => decide (start + sweep = start)
  | _ => false

/-- Such an arc is followed by an arc back to its start. -/
theorem follow_of_closes [DecidableEq R] (c : Cutting R) {s : Segment R} (h : s.closes = true) :
    ∃ clockwise center feed, c.follow s = [.arc clockwise s.start center feed] := by
  cases s with
  | arc center r start sweep =>
    have hfinish : (arc center r start sweep).finish = (arc center r start sweep).start :=
      congrArg (center.onCircle r) (of_decide_eq_true h)
    exact ⟨_, _, _, by rw [Cutting.follow, hfinish]⟩
  | line a b => cases h
  | point p => cases h

end Segment

namespace Cutting

open Command (strokes)

variable {R : Type} [Analytic R] {c : Cutting R} {comment : String} {level : R}
  {levels : List R} {segments : List (Segment R)} {cs : List (Command R)}

omit [Analytic R] in
theorem length_paired (previous : Option (Segment R)) (segments : List (Segment R)) :
    (paired previous segments).length = segments.length := by
  rw [paired, List.length_zip, List.length_cons, List.length_map]
  omega

/-- There are as many strokes as segments, at every level. -/
theorem Sketches.length_strokes (h : c.Sketches comment levels segments cs) :
    (strokes cs).1.length = levels.length * segments.length := by
  obtain ⟨groups, hgroups, hcuts⟩ := h.groups
  rw [hgroups]
  clear h hgroups
  induction hcuts with
  | nil => simp
  | cons hgroup _ ih =>
    rw [List.flatten_cons, List.length_append, ih, ← hgroup.length_eq, length_paired,
      List.length_cons, Nat.succ_mul, Nat.add_comm]

/-- The first segment is cut, at the first level. -/
theorem Sketches.exists_first {s : Segment R}
    (h : c.Sketches comment (level :: levels) (s :: segments) cs) :
    ∃ k ∈ (strokes cs).1, c.Engages comment level none s k := by
  obtain ⟨groups, hgroups, hcuts⟩ := h.groups
  obtain ⟨group, rest, hgroup, -, rfl⟩ := List.forall₂_cons_left_iff.mp hcuts
  obtain ⟨k, ks, hk, -, rfl⟩ := List.forall₂_cons_left_iff.mp hgroup
  exact ⟨k, by simp [hgroups], hk⟩

/-- The moves of a contour tell how many segments there are. -/
theorem contour_injective_length {others : List (Segment R)}
    (hsegments : ∀ s ∈ segments, s.isPoint = false) (hothers : ∀ s ∈ others, s.isPoint = false)
    (hlevels : levels ≠ []) (hne : segments ≠ []) (hne' : others ≠ [])
    (h : c.contour levels segments = c.contour levels others) :
    segments.length = others.length := by
  have hsketches : c.Sketches "" levels segments (.remark "" :: c.contour levels segments) :=
    sketches_contour hsegments hne hlevels
  have hcount := hsketches.length_strokes
  rw [h, (sketches_contour hothers hne' hlevels).length_strokes] at hcount
  exact (Nat.eq_of_mul_eq_mul_left (List.length_pos_iff.mpr hlevels) hcount).symm

end Cutting

namespace Document

open Command (strokes)

variable {R S : Type} [Analytic R]

/-- The segments that a line, an arc or a sketch cuts. -/
def outline (d : Document R S) (x : NodeId) (b : Block R S) : List (Segment R) :=
  match b.payload with
  | .line _ | .arc _ => (d.segment? x).toList
  | .sketch _ => d.strands x
  | _ => []

/-- What a line, an arc or a sketch yields along segments. -/
def commandsAlong (d : Document R S) (x : NodeId) (b : Block R S) (segments : List (Segment R)) :
    Except SynthesisError (List (Command R)) := do
  let c ← d.cutting x
  if segments.isEmpty then throw (.noGeometry b.kind)
  else
    match b.payload with
    | .sketch data =>
      let levels := Synthesis.passes data.step data.depth
      if levels.isEmpty then throw (.noDepth b.kind)
      else return .remark b.comment :: c.contour levels segments
    | _ => return .remark b.comment :: segments.flatMap c.follow

variable [Storage R S] [Numeral R]

/-- The block yields what it would without its segments that have no extent. -/
def SkipsFlat (d : Document R S) (f : ProgramFormat) (x : NodeId) (b : Block R S) : Prop :=
  d.commands f.decimals x b = d.commandsAlong x b ((d.outline x b).filter Segment.hasExtent)

variable {d : Document R S} {f : ProgramFormat} {x : NodeId} {b : Block R S}

omit [Storage R S] [Numeral R] in
theorem segmentCommands_eq (d : Document R S) (x : NodeId) (b : Block R S) :
    d.segmentCommands x b = (do
      let c ← d.cutting x
      let sized := (d.segment? x).toList.filter Segment.hasExtent
      if sized.isEmpty then throw (.noGeometry b.kind)
      else return .remark b.comment :: sized.flatMap c.follow) := by
  unfold segmentCommands
  refine congrArg _ (funext fun c => ?_)
  cases hs : d.segment? x with
  | none => rfl
  | some s =>
    cases hextent : s.hasExtent with
    | false =>
      have hlength : ¬ 0 < s.length := of_decide_eq_false hextent
      simp [Option.filter, hextent, hlength]
    | true =>
      have hlength : 0 < s.length := of_decide_eq_true hextent
      simp [Option.filter, hextent, hlength]

/-- A lone line or arc that has no extent is refused. -/
theorem skipsFlat_segment (hkind : b.kind = .line ∨ b.kind = .arc) : d.SkipsFlat f x b := by
  rw [Block.kind] at hkind
  unfold SkipsFlat commands commandsAlong outline
  cases hpayload : b.payload with
  | line l => exact d.segmentCommands_eq x b
  | arc a => exact d.segmentCommands_eq x b
  | _ =>
    rw [hpayload] at hkind
    rcases hkind with hkind | hkind <;> cases hkind

omit [Analytic R] [Storage R S] [Numeral R] in
theorem exists_of_kind_sketch (h : b.kind = .sketch) : ∃ data, b.payload = .sketch data := by
  rw [Block.kind] at h
  cases hpayload : b.payload with
  | sketch data => exact ⟨data, rfl⟩
  | _ => rw [hpayload] at h; cases h

/-- What a sketch yields is what it yields along all of its segments. -/
theorem commands_sketch {data : Sketch R} (hpayload : b.payload = .sketch data) :
    d.commands f.decimals x b = d.commandsAlong x b (d.strands x) := by
  unfold commands commandsAlong
  rw [hpayload]
  rfl

omit [Storage R S] [Numeral R] in
theorem commandsAlong_sketch {data : Sketch R} {tool : Tool R}
    (htool : d.findTool? x = some tool) (hpayload : b.payload = .sketch data)
    (segments : List (Segment R)) : d.commandsAlong x b segments =
      if segments = [] then .error (.noGeometry b.kind)
      else if Synthesis.passes data.step data.depth = [] then .error (.noDepth b.kind)
      else .ok (.remark b.comment :: (⟨d.material.clearance, tool⟩ : Cutting R).contour
        (Synthesis.passes data.step data.depth) segments) := by
  unfold commandsAlong
  rw [cutting, htool, hpayload]
  simp only [bind, Except.bind, List.isEmpty_iff]
  rfl

/-- A sketch skips what has no extent exactly if there is no such segment, or if it is refused
either way for want of a depth. -/
theorem skipsFlat_sketch_iff {data : Sketch R} {tool : Tool R} (htool : d.findTool? x = some tool)
    (hpayload : b.payload = .sketch data) : d.SkipsFlat f x b ↔
      (∀ s ∈ d.strands x, s.hasExtent = true) ∨
        Synthesis.passes data.step data.depth = [] ∧ ∃ s ∈ d.strands x, s.hasExtent = true := by
  have houtline : d.outline x b = d.strands x := by rw [outline, hpayload]
  rw [SkipsFlat, houtline, commands_sketch hpayload, commandsAlong_sketch htool hpayload,
    commandsAlong_sketch htool hpayload]
  have hsized : (d.strands x).filter Segment.hasExtent ≠ [] ↔
      ∃ s ∈ d.strands x, s.hasExtent = true := by
    rw [ne_eq, List.filter_eq_nil_iff]
    push Not
    rfl
  by_cases hnone : d.strands x = []
  · simp [hnone]
  rw [if_neg hnone]
  by_cases hflat : (d.strands x).filter Segment.hasExtent = []
  · -- nothing has an extent: skipping would ask for geometry, and the sketch does not
    rw [if_pos hflat]
    have hnot : ¬ ∃ s ∈ d.strands x, s.hasExtent = true := mt hsized.mpr (not_not.mpr hflat)
    constructor
    · intro h
      split at h <;> cases h
    · rintro (hall | ⟨-, hsome⟩)
      · obtain ⟨s, hs⟩ := List.exists_mem_of_ne_nil _ hnone
        exact absurd ⟨s, hs, hall s hs⟩ hnot
      · exact absurd hsome hnot
  rw [if_neg hflat]
  by_cases hlevels : Synthesis.passes data.step data.depth = []
  · rw [if_pos hlevels, if_pos hlevels]
    exact ⟨fun _ => .inr ⟨hlevels, hsized.mp hflat⟩, fun _ => rfl⟩
  rw [if_neg hlevels, if_neg hlevels]
  constructor
  · intro h
    refine .inl (List.length_filter_eq_length_iff.mp ?_)
    have hcontours := (List.cons.inj (Except.ok.inj h)).2
    exact (Cutting.contour_injective_length (fun s => isPoint_of_mem_strands)
      (fun s hs => isPoint_of_mem_strands (List.mem_of_mem_filter hs)) hlevels hnone hflat
      hcontours).symm
  · rintro (hall | ⟨hempty, -⟩)
    · rw [List.filter_eq_self.mpr hall]
    · exact absurd hempty hlevels

/-- **Geometry without extent is skipped** by lone lines and arcs. A sketch cuts along all of its
segments, whatever their extent: it yields what it would without those that have none exactly if
there are none of these, or if it has no depth and something else to cut. -/
theorem skipsFlat_iff {tool : Tool R} (htool : d.findTool? x = some tool)
    (hkind : b.kind = .line ∨ b.kind = .arc ∨ b.kind = .sketch) :
    (d.SkipsFlat f x b ↔ ∀ data, b.payload = .sketch data →
      (∀ s ∈ d.strands x, s.hasExtent = true) ∨
        Synthesis.passes data.step data.depth = [] ∧ ∃ s ∈ d.strands x, s.hasExtent = true) ∧
    ∀ data cs, b.payload = .sketch data → d.commands f.decimals x b = .ok cs →
      (strokes cs).1.length =
        (Synthesis.passes data.step data.depth).length * (d.strands x).length := by
  refine ⟨?_, fun data cs hpayload hcs => ?_⟩
  · by_cases hsketch : b.kind = .sketch
    · obtain ⟨data, hpayload⟩ := exists_of_kind_sketch hsketch
      rw [skipsFlat_sketch_iff htool hpayload]
      exact ⟨fun h e he => Payload.sketch.inj (hpayload.symm.trans he) ▸ h,
        fun h => h data hpayload⟩
    · refine ⟨fun _ data hpayload => absurd ?_ hsketch, fun _ => skipsFlat_segment ?_⟩
      · rw [Block.kind, hpayload]
        rfl
      · exact (or_assoc.mpr hkind).resolve_right hsketch
  · obtain ⟨_, -, hsketches⟩ := sketches_of_commands hpayload hcs
    exact hsketches.length_strokes

/-- A sketch of an arc without a sweep, and a tool before it. -/
def traced : Project :=
  let d : Project := ((Document.new "traced").add { payload := Payload.standard .tool }).2
  let (sketch, d) := d.add { payload := Payload.standard .sketch }
  (d.push ((d.children? sketch).getD d.root) { payload := .arc ⟨⟨1, 0⟩, 1, 0, 0⟩ }).2

/-- By itself the arc is skipped. -/
theorem skipsFlat_iff_traced : ∃ tool, traced.findTool? ⟨2⟩ = some tool ∧
    traced.SkipsFlat (traced.format none) ⟨2⟩ { payload := .arc ⟨⟨1, 0⟩, 1, 0, 0⟩ } := by
  have hsome : (traced.findTool? ⟨2⟩).isSome = true := by decide +kernel
  obtain ⟨tool, htool⟩ := Option.isSome_iff_exists.mp hsome
  exact ⟨tool, htool, (skipsFlat_iff htool (.inr (.inl rfl))).1.mpr fun data h => by cases h⟩

/-- **A sketch cuts along an arc without a sweep**, and the arc leads from its start to its start,
so that a machine goes through a full circle. -/
theorem traced_not_skipsFlat : ∃ tool s cs k clockwise center feed,
    traced.findTool? ⟨1⟩ = some tool ∧
    traced.get? ⟨1⟩ = some { payload := Payload.standard .sketch } ∧
    traced.strands ⟨1⟩ = [s] ∧ s.hasExtent = false ∧
    traced.commands (traced.format none).decimals ⟨1⟩ { payload := Payload.standard .sketch } =
      .ok cs ∧
    k ∈ (strokes cs).1 ∧ k.stand.place = some s.start ∧
    k.move = .arc clockwise s.start center feed ∧
    ¬ traced.SkipsFlat (traced.format none) ⟨1⟩ { payload := Payload.standard .sketch } := by
  have hone : (traced.strands ⟨1⟩).length = 1 := by decide +kernel
  have hflat : ∀ s ∈ traced.strands ⟨1⟩, s.hasExtent = false ∧ s.closes = true := by decide +kernel
  have hok : (traced.commands (traced.format none).decimals ⟨1⟩
      { payload := Payload.standard .sketch }).isOk = true := by decide +kernel
  have hlevels : Synthesis.passes (1 / 20) (1 / 10 : Double) ≠ [] := by decide +kernel
  obtain ⟨s, hs⟩ := List.length_eq_one_iff.mp hone
  have hmem : s ∈ traced.strands ⟨1⟩ := hs ▸ List.mem_singleton_self s
  obtain ⟨hextent, hcloses⟩ := hflat s hmem
  cases hcs : traced.commands (traced.format none).decimals ⟨1⟩
      { payload := Payload.standard .sketch } with
  | error e =>
    rw [hcs] at hok
    cases hok
  | ok cs =>
    obtain ⟨tool, htool, hsketches⟩ := sketches_of_commands rfl hcs
    have hskips := skipsFlat_sketch_iff (f := traced.format none)
      (b := { payload := Payload.standard .sketch }) htool rfl
    obtain ⟨level, levels, hpasses⟩ := List.exists_cons_of_ne_nil hlevels
    rw [hs, hpasses] at hsketches
    obtain ⟨k, hk, hengages⟩ := hsketches.exists_first
    obtain ⟨clockwise, center, feed, hfollow⟩ := Segment.follow_of_closes _ hcloses
    have hmove := List.singleton_inj.mp (hengages.move.symm.trans hfollow)
    refine ⟨tool, s, cs, k, clockwise, center, feed, htool, by decide +kernel, hs, hextent, rfl, hk,
      (hengages.plunged rfl).1, hmove, fun h => ?_⟩
    rcases hskips.mp h with hall | ⟨-, s', hs', hsome⟩
    · exact Bool.false_ne_true (hextent.symm.trans (hall s hmem))
    · exact Bool.false_ne_true ((hflat s' hs').1.symm.trans hsome)

end Document

end Toolpath
