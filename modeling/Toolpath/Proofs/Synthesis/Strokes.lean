import Toolpath.Project.Record
import Toolpath.Proofs.Synthesis.Fragments

/-!
# Strokes

A stroke is a cutting move in the plane, together with what a machine knows when it comes to it: the
height and the place that were commanded last, and the commands since the stroke before. An arc is
given relative to its start, so it is the right arc only where the tool is at its start.

A contour is cut by two loops, one over the levels and one over the segments. The inner one carries
the place where the tool stands. It is the end of the segment before, and there is none at the
beginning of a level, although the tool has been somewhere then. So the invariant has to say two
things: what the machine was told agrees with what the loop believes, wherever the loop believes
anything, and what was commanded since the last stroke is nothing, a remark or a retraction.

## Main definitions

* `Command.Stand`, `Command.Stroke` — what was commanded last, and cutting moves with it
* `Command.strokes` — the strokes in a run of commands
* `Cutting.Engages` — a stroke cuts a segment from its start, at a level
* `Cutting.Sketches` — every segment is cut at every level, and nothing else

## Main results

* `Command.commands_strokesFrom` — the strokes and what is between them are all commands
* `Cutting.exists_strokes_contour` — the strokes of a contour
* `Document.sketches_of_written` — a sketch cuts every segment from its start, at every level
-/

namespace Toolpath

namespace Command

variable {R : Type}

/-- Where the tool was sent last. -/
structure Stand (R : Type) where
  /-- The height that was commanded last. -/
  height : Option R := none
  /-- The place in the plane that was commanded last. -/
  place : Option (Vec2 R) := none

/-- Where the tool was sent last, behind a command. A drilling cycle leaves the tool at the height
of its retraction. -/
def Stand.after (s : Stand R) : Command R → Stand R
  | .rapidZ z | .feedZ z _ => { s with height := some z }
  | .rapid p | .feed p _ | .arc _ p _ _ | .hole p => { s with place := some p }
  | .feedTo p z _ => ⟨some z, some p⟩
  | .peck p _ retract _ _ => ⟨some retract, some p⟩
  | _ => s

/-- Whether a command is a cutting move in the plane. -/
def isStroke : Command R → Bool
  | .feed _ _ | .feedTo _ _ _ | .arc _ _ _ _ => true
  | _ => false

/-- A cutting move in the plane, and what comes before it. -/
structure Stroke (R : Type) where
  /-- Where the tool was sent last. -/
  stand : Stand R
  /-- The commands since the stroke before. -/
  approach : List (Command R)
  /-- The move. -/
  move : Command R

/-- The commands of a stroke. -/
def Stroke.commands (k : Stroke R) : List (Command R) := k.approach ++ [k.move]

/-- The strokes in commands, and the commands behind the last one. The tool was sent to `s` before
them, and `approach` came since the last stroke. -/
def strokesFrom (s : Stand R) (approach : List (Command R)) :
    List (Command R) → List (Stroke R) × List (Command R)
  | [] => ([], approach)
  | c :: cs =>
    if c.isStroke then
      let later := strokesFrom (s.after c) [] cs
      (⟨s, approach, c⟩ :: later.1, later.2)
    else strokesFrom (s.after c) (approach ++ [c]) cs

/-- The strokes in commands, and the commands behind the last one. -/
def strokes (cs : List (Command R)) : List (Stroke R) × List (Command R) := strokesFrom {} [] cs

/-- **The strokes and what is between them are all commands.** -/
theorem commands_strokesFrom (s : Stand R) (approach cs : List (Command R)) :
    (strokesFrom s approach cs).1.flatMap Stroke.commands ++ (strokesFrom s approach cs).2 =
      approach ++ cs := by
  induction cs generalizing s approach with
  | nil => exact (List.append_nil _).symm
  | cons c cs ih =>
    rw [strokesFrom]
    split
    · rw [List.flatMap_cons, List.append_assoc, ih, Stroke.commands, List.append_assoc]
      rfl
    · rw [ih, List.append_assoc]
      rfl

/-- Commands without strokes come before the next stroke. -/
theorem strokesFrom_append (s : Stand R) (approach rest : List (Command R))
    {cs : List (Command R)} (hcs : ∀ c ∈ cs, c.isStroke = false) :
    strokesFrom s approach (cs ++ rest) =
      strokesFrom (cs.foldl Stand.after s) (approach ++ cs) rest := by
  induction cs generalizing s approach with
  | nil => rw [List.append_nil]; rfl
  | cons c cs ih =>
    rw [List.cons_append, strokesFrom, hcs c List.mem_cons_self, if_neg Bool.false_ne_true,
      ih _ _ fun a ha => hcs a (List.mem_cons_of_mem c ha), List.append_assoc]
    rfl

theorem strokesFrom_stroke (s : Stand R) (approach rest : List (Command R)) {c : Command R}
    (hc : c.isStroke = true) : strokesFrom s approach (c :: rest) =
      (⟨s, approach, c⟩ :: (strokesFrom (s.after c) [] rest).1,
        (strokesFrom (s.after c) [] rest).2) := by
  rw [strokesFrom, if_pos hc]

end Command

namespace Cutting

open Command (Stand Stroke strokesFrom strokes isStroke strokesFrom_append strokesFrom_stroke
  commands_strokesFrom)

variable {R : Type} [Analytic R] (c : Cutting R)

/-- Whether a segment starts where the one before it ended. -/
def joins (previous : Option (Segment R)) (s : Segment R) : Bool :=
  previous.any fun q => q.finish.coincide s.start

/-- A stroke cuts a segment from its start, at a level: the tool was sent to the level and to the
start, unless it ended there with the segment before. Then nothing comes between the two, and
otherwise a retraction and a plunge. -/
structure Engages (comment : String) (level : R) (previous : Option (Segment R)) (s : Segment R)
    (k : Stroke R) : Prop where
  /-- The move is the one along the segment. -/
  move : c.follow s = [k.move]
  /-- The tool is at the level. -/
  height : k.stand.height = some (-level)
  /-- The tool is at the start. -/
  place : ∃ p, k.stand.place = some p ∧ (p = s.start ∨ p.coincide s.start = true)
  /-- A segment that goes on where the one before ended is cut at once. -/
  joined : joins previous s = true → k.approach = []
  /-- Before any other one the tool is retracted to the clearance height, goes to the start and
  plunges there. Ahead of that there is nothing but the remark on the block and the retraction at
  the end of the level before. -/
  plunged : joins previous s = false → k.stand.place = some s.start ∧
    ∃ lead, k.approach =
      lead ++ [.rapidZ c.clearance, .rapid s.start, .feedZ (-level) (Synthesis.plungeFeed c.tool)] ∧
      ∀ a ∈ lead, a = .remark comment ∨ a = .rapidZ c.clearance

/-- The segments, each with the one before it. -/
def paired (previous : Option (Segment R)) (segments : List (Segment R)) :
    List (Option (Segment R) × Segment R) := (previous :: segments.map some).zip segments

/-- Strokes cut segments one after the other at a level, behind another segment if there is one. -/
def EngagesAll (comment : String) (level : R) (previous : Option (Segment R))
    (segments : List (Segment R)) (strokes : List (Stroke R)) : Prop :=
  List.Forall₂ (fun p k => c.Engages comment level p.1 p.2 k) (paired previous segments) strokes

/-- The commands are such as may stand before the first stroke of a level. -/
def Leads (comment : String) (cs : List (Command R)) : Prop :=
  ∀ a ∈ cs, a = .remark comment ∨ a = .rapidZ c.clearance

/-- The tool stands at the start of a segment that goes on where the one before ended. -/
theorem standsAt_eq_joins (previous : Option (Segment R)) (s : Segment R) :
    standsAt (previous.map Segment.finish) s.start = joins previous s := by
  cases previous <;> rfl

/-- There is one move along a segment that is no point, and it ends where the segment does. -/
theorem exists_follow {s : Segment R} (hs : s.isPoint = false) : ∃ move,
    c.follow s = [move] ∧ move.isStroke = true ∧
      ∀ stand : Stand R, stand.after move = { stand with place := s.finish } := by
  cases s with
  | line a b => exact ⟨_, rfl, rfl, fun _ => rfl⟩
  | arc center r start sweep => exact ⟨_, rfl, rfl, fun _ => rfl⟩
  | point p => cases hs

variable {c} {comment : String}

/-- The stroke of one segment. Behind it the tool was sent to the end of the segment, at the
level. -/
theorem exists_stroke {level : R} {s : Segment R} (hs : s.isPoint = false)
    {previous : Option (Segment R)} {stand : Stand R} {lead : List (Command R)}
    (hlead : c.Leads comment lead)
    (hstand : ∀ q, previous = some q → stand = ⟨some (-level), some q.finish⟩ ∧ lead = [])
    (rest : List (Command R)) :
    ∃ k, c.Engages comment level previous s k ∧
      strokesFrom stand lead ((if joins previous s then [] else c.plungeAt level s.start) ++
        c.follow s ++ rest) =
          (k :: (strokesFrom ⟨some (-level), some s.finish⟩ [] rest).1,
            (strokesFrom ⟨some (-level), some s.finish⟩ [] rest).2) := by
  obtain ⟨move, hmove, hstroke, hafter⟩ := c.exists_follow hs
  rw [hmove]
  cases hjoins : joins previous s with
  | true =>
    cases previous with
    | none => cases hjoins
    | some q =>
      obtain ⟨rfl, rfl⟩ := hstand q rfl
      refine ⟨⟨⟨some (-level), some q.finish⟩, [], move⟩, ⟨hmove, rfl, ⟨_, rfl, .inr hjoins⟩,
        fun _ => rfl, fun h => Bool.noConfusion (hjoins.symm.trans h)⟩, ?_⟩
      exact (strokesFrom_stroke _ _ rest hstroke).trans (by rw [hafter])
  | false =>
    have hplunge : ∀ a ∈ c.plungeAt level s.start, a.isStroke = false := by
      simp [plungeAt, lift, isStroke]
    have hsent : (c.plungeAt level s.start).foldl Stand.after stand =
        ⟨some (-level), some s.start⟩ := rfl
    refine ⟨⟨⟨some (-level), some s.start⟩, lead ++ c.plungeAt level s.start, move⟩,
      ⟨hmove, rfl, ⟨_, rfl, .inl rfl⟩, fun h => Bool.noConfusion (hjoins.symm.trans h),
        fun _ => ⟨rfl, lead, rfl, hlead⟩⟩, ?_⟩
    rw [if_neg Bool.false_ne_true, List.append_assoc, strokesFrom_append _ _ _ hplunge, hsent]
    exact (strokesFrom_stroke _ _ rest hstroke).trans (by rw [hafter])

/-- **The strokes of a level.** The invariant is that the tool was sent where the segment before it
ended, at the level, and cut there last, or that it has not cut at this level yet. -/
theorem exists_strokes_level {level : R} {segments : List (Segment R)}
    (hsegments : ∀ s ∈ segments, s.isPoint = false) {previous : Option (Segment R)}
    {stand : Stand R} {lead : List (Command R)} (hlead : c.Leads comment lead)
    (hstand : ∀ q, previous = some q → stand = ⟨some (-level), some q.finish⟩ ∧ lead = [])
    (rest : List (Command R)) :
    ∃ done later behind, c.EngagesAll comment level previous segments done ∧
      c.Leads comment behind ∧ (segments ≠ [] ∨ lead = [] → behind = []) ∧
      strokesFrom stand lead (c.levelFrom level (previous.map Segment.finish) segments ++ rest) =
        (done ++ (strokesFrom later behind rest).1, (strokesFrom later behind rest).2) := by
  induction segments generalizing previous stand lead with
  | nil => exact ⟨[], stand, lead, .nil, hlead, fun h => h.resolve_left (absurd rfl), rfl⟩
  | cons s segments ih =>
    obtain ⟨k, hk, hfirst⟩ := exists_stroke (hsegments s List.mem_cons_self) hlead hstand
      (c.levelFrom level (some s.finish) segments ++ rest)
    have hstands : ∀ q, some s = some q →
        (⟨some (-level), some s.finish⟩ : Stand R) = ⟨some (-level), some q.finish⟩ ∧
          ([] : List (Command R)) = [] := fun q hq => Option.some.inj hq ▸ ⟨rfl, rfl⟩
    obtain ⟨done, later, behind, hdone, hbehind, hnone, hothers⟩ :=
      ih (fun s hs => hsegments s (List.mem_cons_of_mem _ hs)) (List.forall_mem_nil _) hstands
    refine ⟨k :: done, later, behind, .cons hk hdone, hbehind, fun _ => hnone (.inr rfl), ?_⟩
    rw [Option.map_some] at hothers
    rw [hothers] at hfirst
    rw [levelFrom, List.append_assoc, standsAt_eq_joins]
    exact hfirst

/-- **The strokes of a contour**: for every level one group, with one stroke for every segment. The
last one is followed by a retraction. -/
theorem exists_strokes_contour {levels : List R} {segments : List (Segment R)}
    (hsegments : ∀ s ∈ segments, s.isPoint = false) (hne : segments ≠ []) {stand : Stand R}
    {lead : List (Command R)} (hlead : c.Leads comment lead) :
    ∃ groups, List.Forall₂ (fun level => c.EngagesAll comment level none segments) levels groups ∧
      strokesFrom stand lead (c.contour levels segments) =
        (groups.flatten, if levels.isEmpty then lead else [c.lift]) := by
  induction levels generalizing stand lead with
  | nil => exact ⟨[], .nil, rfl⟩
  | cons level levels ih =>
    have hfirst : ∀ q, (none : Option (Segment R)) = some q →
        stand = ⟨some (-level), some q.finish⟩ ∧ lead = [] := nofun
    obtain ⟨group, later, behind, hgroup, -, hnone, hlevel⟩ :=
      exists_strokes_level hsegments hlead hfirst (c.lift :: c.contour levels segments)
    obtain rfl := hnone (.inl hne)
    have hlift : c.Leads comment [c.lift] := fun a ha => .inr (List.mem_singleton.mp ha)
    obtain ⟨groups, hgroups, hothers⟩ := @ih (later.after c.lift) [c.lift] hlift
    refine ⟨group :: groups, .cons hgroup hgroups, ?_⟩
    have hbelow : strokesFrom later [] (c.lift :: c.contour levels segments) =
        (groups.flatten, [c.lift]) := by
      rw [ite_self] at hothers
      exact hothers
    rw [Option.map_none, hbelow] at hlevel
    rw [contour, List.flatMap_cons, List.append_assoc]
    exact hlevel

variable (c comment) in
/-- Commands cut segments at levels: level by level, the segments of each in order, and every one
from its start. Behind the last stroke the tool is retracted, and there are no other commands. -/
structure Sketches (levels : List R) (segments : List (Segment R)) (cs : List (Command R)) :
    Prop where
  /-- The strokes come in groups, one for each level, with one stroke for each segment. -/
  groups : ∃ groups, (strokes cs).1 = groups.flatten ∧
    List.Forall₂ (fun level => c.EngagesAll comment level none segments) levels groups
  /-- The strokes, and behind them a retraction, are all commands. -/
  whole : (strokes cs).1.flatMap Stroke.commands ++ [.rapidZ c.clearance] = cs

theorem sketches_contour {levels : List R} {segments : List (Segment R)}
    (hsegments : ∀ s ∈ segments, s.isPoint = false) (hne : segments ≠ [])
    (hlevels : levels ≠ []) :
    c.Sketches comment levels segments (.remark comment :: c.contour levels segments) := by
  have hlead : c.Leads comment [.remark comment] := fun a ha => .inl (List.mem_singleton.mp ha)
  obtain ⟨groups, hgroups, hstrokes⟩ :=
    @exists_strokes_contour R _ c comment levels segments hsegments hne {} _ hlead
  rw [if_neg (mt List.isEmpty_iff.mp hlevels)] at hstrokes
  have hall : strokes (.remark comment :: c.contour levels segments) =
      (groups.flatten, [c.lift]) := hstrokes
  have hwhole := commands_strokesFrom (R := R) {} [] (.remark comment :: c.contour levels segments)
  rw [← strokes, hall] at hwhole
  exact ⟨⟨groups, by rw [hall], hgroups⟩, by rw [hall]; exact hwhole⟩

end Cutting

/-! ### Sketches -/

namespace Document

variable {R S : Type} [Analytic R]

/-- The segments that a sketch cuts: those of its children that are no points. -/
def strands (d : Document R S) (x : NodeId) : List (Segment R) :=
  (d.childSegments x).filter fun s => !s.isPoint

variable {d : Document R S} {x : NodeId} {b : Block R S}

theorem isPoint_of_mem_strands {s : Segment R} (hs : s ∈ d.strands x) : s.isPoint = false := by
  simpa using (List.mem_filter.mp hs).2

variable [Storage R S] [Numeral R]

theorem sketches_of_commands {decimals : Nat} {data : Sketch R} {cs : List (Command R)}
    (hpayload : b.payload = .sketch data) (h : d.commands decimals x b = .ok cs) :
    ∃ tool, d.findTool? x = some tool ∧
      (⟨d.material.clearance, tool⟩ : Cutting R).Sketches b.comment
        (Synthesis.passes data.step data.depth) (d.strands x) cs := by
  rw [commands, hpayload] at h
  obtain ⟨tool, htool, hchecked⟩ := exists_of_cutting h
  obtain ⟨hsegments, hlevels, rfl⟩ := eq_of_checked hchecked
  exact ⟨tool, htool, Cutting.sketches_contour (fun s => isPoint_of_mem_strands)
    (mt List.isEmpty_iff.mpr hsegments) (mt List.isEmpty_iff.mpr hlevels)⟩

/-- **A sketch cuts every segment from its start, at every level**: whatever is left of its children
in the list, whether they are connected or not. -/
theorem sketches_of_written {f : ProgramFormat} {data : Sketch R} (hb : d.get? x = some b)
    (hpayload : b.payload = .sketch data) (h : d.written f x ≠ "") :
    ∃ tool cs, d.findTool? x = some tool ∧
      d.written f x = Statement.program f.dialect (Command.write f.dialect f.decimals cs) ∧
      (⟨d.material.clearance, tool⟩ : Cutting R).Sketches b.comment
        (Synthesis.passes data.step data.depth) (d.strands x) cs := by
  have hgroup : b.kind.isGroup = false := by rw [Block.kind, hpayload]; rfl
  obtain ⟨cs, hcs, hwritten⟩ := exists_commands_of_written hb hgroup h
  obtain ⟨tool, htool, hsketches⟩ := sketches_of_commands hpayload hcs
  exact ⟨tool, cs, htool, hwritten, hsketches⟩

/-- A sketch of two lines that meet and one apart, and a tool before it. -/
def engraved : Project :=
  let d : Project := ((Document.new "engraved").add { payload := Payload.standard .tool }).2
  let (sketch, d) := d.add { payload := Payload.standard .sketch }
  let lines := (d.children? sketch).getD d.root
  let d := (d.push lines { payload := .line ⟨⟨0, 0⟩, ⟨1, 0⟩⟩ }).2
  let d := (d.push lines { payload := .line ⟨⟨1, 0⟩, ⟨1, 1⟩⟩ }).2
  (d.push lines { payload := .line ⟨⟨3, 0⟩, ⟨3, 1⟩⟩ }).2

theorem sketches_of_written_engraved :
    engraved.written (engraved.format none) ⟨1⟩ ≠ "" ∧
    ∃ tool cs, engraved.findTool? ⟨1⟩ = some tool ∧
      (⟨engraved.material.clearance, tool⟩ : Cutting Double).Sketches ""
        (Synthesis.passes (1 / 20) (1 / 10)) (engraved.strands ⟨1⟩) cs := by
  have hb : engraved.get? ⟨1⟩ = some { payload := Payload.standard .sketch } := by decide +kernel
  have hlift : (engraved.outcome (engraved.format none) ⟨1⟩).statements[1]? =
      some (.words [Word.g 0, ⟨'Z', "0.10000"⟩]) := by decide +kernel
  have hwritten := program_ne_empty (engraved.format none).dialect (List.mem_of_getElem? hlift)
  obtain ⟨tool, cs, htool, -, hsketches⟩ := sketches_of_written hb rfl hwritten
  exact ⟨hwritten, tool, cs, htool, hsketches⟩

end Document

end Toolpath
