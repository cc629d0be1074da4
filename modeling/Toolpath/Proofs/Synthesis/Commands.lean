import Toolpath.Proofs.Document.Muting
import Toolpath.Proofs.Gcode.Remarks
import Toolpath.Synthesis.Blocks

/-!
# Commands without their remarks

The free texts of a document reach a program in remarks and nowhere else. The commands of a block
are the same ones for a mute document, remarks excepted, and they are refused for the same reason.
The moves have no remarks at all, so what a block remarks is its comment, the name of the document,
what is said of a tool and what the operator is told to load.

## Main definitions

* `BlockKind.cuts` — kinds of blocks that need a tool
* `Command.spoken` — commands without their remarks
* `Command.Silent` — commands none of which is a remark
* `Command.Moves` — commands that move the tool and do nothing else
* `Document.Composed` — the forms of what a block contributes

## Main results

* `Command.spoken_write` — remarks are written as remarks, and nothing else is
* `Document.commands_mute` — the commands of a mute document
* `Document.composed_of_commands` — whatever a block contributes has one of these forms
* `Document.remark_of_commands` — what a block remarks
-/

namespace Toolpath

/-- Whether blocks of the kind cut, and so need a tool. -/
def BlockKind.cuts : BlockKind → Bool
  | line | arc | sketch | drillHoles | boltHoles | image | mesh => true
  | _ => false

namespace Command

variable {R : Type}

/-- Whether a command is a remark. -/
def isRemark : Command R → Bool
  | remark _ => true
  | _ => false

theorem exists_of_isRemark {c : Command R} (h : c.isRemark = true) : ∃ t, c = .remark t := by
  cases c with
  | remark t => exact ⟨t, rfl⟩
  | _ => cases h

/-- Commands without their remarks. -/
def spoken (cs : List (Command R)) : List (Command R) := cs.filter fun c => !c.isRemark

/-- None of the commands is a remark. -/
def Silent (cs : List (Command R)) : Prop := ∀ c ∈ cs, c.isRemark = false

/-- Whether a command moves the tool or ends a drilling cycle. -/
def isMove : Command R → Bool
  | rapidZ _ | rapid _ | feedZ _ _ | feed _ _ | feedTo _ _ _ | arc _ _ _ _ | peck _ _ _ _ _
  | hole _ => true
  | codes ws => ws = [Word.g 80]
  | _ => false

/-- The commands move the tool and do nothing else. -/
def Moves (cs : List (Command R)) : Prop := ∀ c ∈ cs, c.isMove = true

theorem Moves.silent {cs : List (Command R)} (h : Moves cs) : Silent cs := by
  intro c hc
  have hmove := h c hc
  cases c with
  | remark t => cases hmove
  | _ => rfl

/-- The commands begin with a remark, and move the tool behind it. -/
def Cuts (text : String) (cs : List (Command R)) : Prop :=
  ∃ rest, cs = .remark text :: rest ∧ Moves rest

/-- The commands begin with a remark, and there is no other. -/
def Commented (text : String) (cs : List (Command R)) : Prop :=
  ∃ rest, cs = .remark text :: rest ∧ Silent rest

theorem Cuts.commented {text : String} {cs : List (Command R)} (h : Cuts text cs) :
    Commented text cs := by
  obtain ⟨rest, hcs, hrest⟩ := h
  exact ⟨rest, hcs, hrest.silent⟩

theorem Commented.eq_of_mem {text t : String} {cs : List (Command R)} (h : Commented text cs)
    (ht : .remark t ∈ cs) : t = text := by
  obtain ⟨rest, rfl, hrest⟩ := h
  rcases List.mem_cons.mp ht with ht | ht
  · exact Command.remark.inj ht
  · cases hrest _ ht

variable [Scalar R] [Numeral R]

theorem isRemark_of_mem_statements {d : Dialect} {decimals : Nat} {modal : Option R}
    {c : Command R} (hc : c.isRemark = false) {s : Statement}
    (hs : s ∈ c.statements d decimals modal) : s.isRemark = false := by
  cases c with
  | remark t => cases hc
  | programStart n =>
    have hopening : ∀ s ∈ d.opening n, s.isRemark = false := by
      unfold Dialect.opening
      split <;> simp [Statement.isRemark]
    exact hopening s hs
  | programEnd =>
    have hclosing : ∀ s ∈ d.closing, s.isRemark = false := by
      unfold Dialect.closing
      split <;> simp [Statement.isRemark]
    exact hclosing s hs
  | toolChange slot =>
    have hchange : ∀ s ∈ d.toolChange slot, s.isRemark = false := by
      unfold Dialect.toolChange
      split <;> simp [Statement.isRemark]
    exact hchange s hs
  | _ =>
    obtain rfl := List.mem_singleton.mp hs
    rfl

theorem spoken_writeFrom (d : Dialect) (decimals : Nat) (modal : Option R)
    (cs : List (Command R)) :
    Statement.spoken (writeFrom d decimals modal cs) = writeFrom d decimals modal (spoken cs) := by
  induction cs generalizing modal with
  | nil => rfl
  | cons c cs ih =>
    have happend : Statement.spoken (writeFrom d decimals modal (c :: cs)) =
        Statement.spoken (c.statements d decimals modal) ++
          writeFrom d decimals (c.feedAfter modal) (spoken cs) := by
      rw [writeFrom, Statement.spoken, List.filter_append]
      exact congrArg (_ ++ ·) (ih _)
    cases hc : c.isRemark with
    | true =>
      have hspoken : spoken (c :: cs) = spoken cs := List.filter_cons_of_neg (by simp [hc])
      obtain ⟨t, rfl⟩ := exists_of_isRemark hc
      rw [happend, hspoken]
      rfl
    | false =>
      have hspoken : spoken (c :: cs) = c :: spoken cs := List.filter_cons_of_pos (by simp [hc])
      have hall : Statement.spoken (c.statements d decimals modal) =
          c.statements d decimals modal :=
        List.filter_eq_self.mpr fun s hs => by simp [isRemark_of_mem_statements hc hs]
      rw [happend, hspoken, hall, writeFrom]

/-- **Remarks are written as remarks, and nothing else is.** -/
theorem spoken_write (d : Dialect) (decimals : Nat) (cs : List (Command R)) :
    Statement.spoken (write d decimals cs) = write d decimals (spoken cs) :=
  spoken_writeFrom d decimals none cs

/-- What is written for commands is written for one of them. -/
theorem exists_of_mem_writeFrom {d : Dialect} {decimals : Nat}
    {modal : Option R} {cs : List (Command R)} {s : Statement}
    (h : s ∈ writeFrom d decimals modal cs) :
    ∃ c ∈ cs, ∃ before : Option R, s ∈ c.statements d decimals before := by
  induction cs generalizing modal with
  | nil => cases h
  | cons c cs ih =>
    rw [writeFrom, List.mem_append] at h
    rcases h with h | h
    · exact ⟨c, List.mem_cons_self, modal, h⟩
    · obtain ⟨c', hc', before, hs⟩ := ih h
      exact ⟨c', List.mem_cons_of_mem c hc', before, hs⟩

theorem remark_of_mem_writeFrom {d : Dialect} {decimals : Nat} {modal : Option R}
    {cs : List (Command R)} {t : String} (h : .remark t ∈ writeFrom d decimals modal cs) :
    .remark t ∈ cs := by
  obtain ⟨c, hc, before, hs⟩ := exists_of_mem_writeFrom h
  cases hremark : c.isRemark with
  | false => cases isRemark_of_mem_statements hremark hs
  | true =>
    obtain ⟨u, rfl⟩ := exists_of_isRemark hremark
    obtain ⟨⟩ := List.mem_singleton.mp hs
    exact hc

end Command

namespace Cutting

open Command

variable {R : Type} [Analytic R]

/-- What the moves depend on, without the label of the tool. -/
def mute (c : Cutting R) : Cutting R := { c with tool := c.tool.mute }

section Mute

variable (c : Cutting R)

theorem follow_mute (s : Segment R) : c.mute.follow s = c.follow s := by cases s <;> rfl

theorem contour_mute (levels : List R) (segments : List (Segment R)) :
    c.mute.contour levels segments = c.contour levels segments := by
  have hlevel (level : R) (place : Option (Vec2 R)) :
      c.mute.levelFrom level place segments = c.levelFrom level place segments := by
    induction segments generalizing place with
    | nil => rfl
    | cons s rest ih =>
      rw [levelFrom, levelFrom, ih, follow_mute]
      rfl
  unfold contour
  simp only [hlevel]
  rfl

theorem drill_mute (depth increment : R) (points : List (Vec2 R)) :
    c.mute.drill depth increment points = c.drill depth increment points := by
  cases points <;> rfl

theorem surface_mute (places : List (Vec2 R × R)) : c.mute.surface places = c.surface places := by
  cases places <;> rfl

end Mute

/-! ### Moves -/

section Moves

variable (c : Cutting R)

theorem moves_follow (s : Segment R) : Moves (c.follow s) := by
  cases s <;> simp [Moves, follow, isMove]

theorem moves_levelFrom (level : R) (place : Option (Vec2 R)) (segments : List (Segment R)) :
    Moves (c.levelFrom level place segments) := by
  induction segments generalizing place with
  | nil => exact nofun
  | cons s rest ih =>
    have hplunge : Moves (c.plungeAt level s.start) := by
      simp [Moves, plungeAt, lift, isMove]
    rw [levelFrom]
    refine List.forall_mem_append.mpr ⟨List.forall_mem_append.mpr ⟨?_, c.moves_follow s⟩, ih _⟩
    split
    · exact nofun
    · exact hplunge

theorem moves_contour (levels : List R) (segments : List (Segment R)) :
    Moves (c.contour levels segments) := by
  refine List.forall_mem_flatMap.mpr fun level _ => ?_
  exact List.forall_mem_append.mpr
    ⟨c.moves_levelFrom level none segments, by simp [lift, isMove]⟩

theorem moves_drill (depth increment : R) (points : List (Vec2 R)) :
    Moves (c.drill depth increment points) := by
  cases points with
  | nil => exact nofun
  | cons p rest =>
    intro x hx
    simp only [drill, List.mem_append, List.mem_cons, List.not_mem_nil, or_false,
      List.mem_map] at hx
    rcases hx with ((rfl | rfl | rfl) | ⟨q, -, rfl⟩) | rfl | rfl <;> rfl

theorem moves_bore (depth : R) (levels : List R) (center : Vec2 R) (radius : R) :
    Moves (c.bore depth levels center radius) := by
  intro x hx
  simp only [bore] at hx
  split at hx
  all_goals
    simp only [List.mem_append, List.mem_cons, List.not_mem_nil, or_false, List.mem_flatMap] at hx
  · rcases hx with rfl | rfl | rfl | rfl <;> rfl
  · rcases hx with ((rfl | rfl) | ⟨level, -, rfl | rfl⟩) | rfl <;> rfl

theorem moves_surface (places : List (Vec2 R × R)) : Moves (c.surface places) := by
  cases places with
  | nil => exact nofun
  | cons p rest =>
    intro x hx
    simp only [surface, List.mem_cons, List.mem_map] at hx
    rcases hx with rfl | rfl | ⟨q, -, rfl⟩ <;> rfl

theorem moves_slice (placed : Vec2 R → Vec2 R) (s : Slice R) : Moves (c.slice placed s) := by
  have hpolyline (points : List (Vec2 R)) : Moves (c.polyline s.z points) := by
    cases points with
    | nil => exact nofun
    | cons p rest =>
      intro x hx
      simp only [polyline, List.mem_append, List.mem_cons, List.not_mem_nil, or_false,
        List.mem_map] at hx
      rcases hx with (rfl | rfl | rfl) | ⟨q, -, rfl⟩ <;> rfl
  exact List.forall_mem_append.mpr
    ⟨List.forall_mem_flatMap.mpr fun chain _ => hpolyline _, by simp [lift, isMove]⟩

end Moves

end Cutting

namespace Document

open Command

variable {R S : Type} (d : Document R S)

/-! ### The commands of a mute document -/

theorem cutting_mute (id : NodeId) : d.mute.cutting id = (d.cutting id).map Cutting.mute := by
  rw [cutting, cutting, findTool?_mute]
  cases d.findTool? id <;> rfl

/-- What cuts is the same for a mute document if the moves do not depend on the label of the
tool. -/
theorem spoken_cutting {id : NodeId}
    {moves muted : Cutting R → Except SynthesisError (List (Command R))}
    (h : ∀ c, (muted c.mute).map spoken = (moves c).map spoken) :
    (d.mute.cutting id >>= muted).map spoken = (d.cutting id >>= moves).map spoken := by
  rw [cutting_mute]
  cases d.cutting id with
  | error e => rfl
  | ok c => exact h c

variable {d} in
/-- What cuts has a tool, and cuts with it. -/
theorem exists_of_cutting {id : NodeId} {cs : List (Command R)}
    {moves : Cutting R → Except SynthesisError (List (Command R))}
    (h : (d.cutting id >>= moves) = .ok cs) :
    ∃ t, d.findTool? id = some t ∧ moves ⟨d.material.clearance, t⟩ = .ok cs := by
  rw [cutting] at h
  cases ht : d.findTool? id with
  | none => rw [ht] at h; cases h
  | some t => exact ⟨t, rfl, by rw [ht] at h; exact h⟩

theorem toolCommands_mute [Numeral R] (decimals : Nat) (comment : String) (t : Tool R) :
    spoken (d.mute.toolCommands decimals "" t.mute) =
      spoken (d.toolCommands decimals comment t) := by
  unfold toolCommands
  simp only [spoken, List.filter_append]
  rfl

variable [Analytic R]

theorem segmentCommands_mute (id : NodeId) (b : Block R S) :
    (d.mute.segmentCommands id b.mute).map spoken = (d.segmentCommands id b).map spoken := by
  refine d.spoken_cutting fun c => ?_
  simp only [segment?_mute, Block.kind_mute, Cutting.follow_mute]
  split <;> rfl

theorem sketchCommands_mute (id : NodeId) (b : Block R S) (data : Sketch R) :
    (d.mute.sketchCommands id b.mute data).map spoken =
      (d.sketchCommands id b data).map spoken := by
  refine d.spoken_cutting fun c => ?_
  simp only [childSegments_mute, Block.kind_mute, Cutting.contour_mute]
  split
  · rfl
  · split <;> rfl

theorem drillCommands_mute (id : NodeId) (b : Block R S) (data : DrillHoles R) :
    (d.mute.drillCommands id b.mute data).map spoken = (d.drillCommands id b data).map spoken := by
  refine d.spoken_cutting fun c => ?_
  simp only [childSegments_mute, Block.kind_mute, Cutting.drill_mute]
  split
  · rfl
  · split <;> rfl

theorem boltCommands_mute (id : NodeId) (b : Block R S) (data : BoltHoles R) :
    (d.mute.boltCommands id b.mute data).map spoken = (d.boltCommands id b data).map spoken := by
  refine d.spoken_cutting fun c => ?_
  simp only [childSegments_mute, Block.kind_mute]
  split
  · rfl
  · split <;> rfl

theorem reliefCommands_mute [Storage R S] (id : NodeId) (b : Block R S) (r : Relief R S) :
    (d.mute.reliefCommands id b.mute r).map spoken = (d.reliefCommands id b r).map spoken := by
  refine d.spoken_cutting fun c => ?_
  simp only [placement_mute, Block.kind_mute, Cutting.surface_mute]
  split <;> rfl

theorem meshCommands_mute (id : NodeId) (b : Block R S) (m : Mesh R S) :
    (d.mute.meshCommands id b.mute m).map spoken = (d.meshCommands id b m).map spoken := by
  refine d.spoken_cutting fun c => ?_
  simp only [placement_mute, Block.kind_mute]
  split <;> rfl

/-- **The commands of a mute document**, remarks excepted, are those of the document. -/
theorem commands_mute [Storage R S] [Numeral R] (decimals : Nat) (id : NodeId) (b : Block R S) :
    (d.mute.commands decimals id b.mute).map spoken = (d.commands decimals id b).map spoken := by
  have hpayload : b.mute.payload = b.payload.mute := rfl
  unfold commands
  rw [hpayload]
  cases b.payload with
  | header h => rfl
  | footer f => cases f; rfl
  | tool t => exact congrArg Except.ok (d.toolCommands_mute decimals b.comment t)
  | code t => rfl
  | line l => exact d.segmentCommands_mute id b
  | arc a => exact d.segmentCommands_mute id b
  | sketch s => exact d.sketchCommands_mute id b s
  | drillHoles h => exact d.drillCommands_mute id b h
  | boltHoles h => exact d.boltCommands_mute id b h
  | image r => exact d.reliefCommands_mute id b r
  | mesh m => exact d.meshCommands_mute id b m
  | point p => rfl
  | template t => rfl
  | svg s => rfl
  | gerber s => rfl
  | excellon s => rfl

/-! ### What a block remarks -/

variable {d} {id : NodeId} {b : Block R S} {cs : List (Command R)}

omit [Analytic R] in
/-- What two checks let through. -/
theorem eq_of_checked {p q : Prop} [Decidable p] [Decidable q] {e e' : SynthesisError}
    {moves : List (Command R)}
    (h : (if p then .error e else if q then .error e' else .ok moves : Except _ _) = .ok cs) :
    ¬ p ∧ ¬ q ∧ moves = cs := by
  split at h
  · cases h
  · rename_i hp
    split at h
    · cases h
    · rename_i hq
      exact ⟨hp, hq, Except.ok.inj h⟩

theorem cuts_segment (h : d.segmentCommands id b = .ok cs) : Cuts b.comment cs := by
  obtain ⟨t, -, h⟩ := exists_of_cutting h
  split at h
  · obtain rfl := Except.ok.inj h
    exact ⟨_, rfl, Cutting.moves_follow _ _⟩
  · cases h

theorem cuts_sketch {data : Sketch R} (h : d.sketchCommands id b data = .ok cs) :
    Cuts b.comment cs := by
  obtain ⟨t, -, h⟩ := exists_of_cutting h
  obtain ⟨-, -, rfl⟩ := eq_of_checked h
  exact ⟨_, rfl, Cutting.moves_contour _ _ _⟩

theorem cuts_drill {data : DrillHoles R} (h : d.drillCommands id b data = .ok cs) :
    Cuts b.comment cs := by
  obtain ⟨t, -, h⟩ := exists_of_cutting h
  obtain ⟨-, -, rfl⟩ := eq_of_checked h
  exact ⟨_, rfl, Cutting.moves_drill _ _ _ _⟩

theorem cuts_bolt {data : BoltHoles R} (h : d.boltCommands id b data = .ok cs) :
    Cuts b.comment cs := by
  obtain ⟨t, -, h⟩ := exists_of_cutting h
  obtain ⟨-, -, rfl⟩ := eq_of_checked h
  exact ⟨_, rfl, List.forall_mem_flatMap.mpr fun hole _ => Cutting.moves_bore _ _ _ _ _⟩

theorem cuts_relief [Storage R S] {r : Relief R S} (h : d.reliefCommands id b r = .ok cs) :
    Cuts b.comment cs := by
  obtain ⟨t, -, h⟩ := exists_of_cutting h
  split at h
  · cases h
  · obtain rfl := Except.ok.inj h
    refine ⟨_, rfl, List.forall_mem_cons.mpr ⟨rfl, List.forall_mem_append.mpr ⟨?_, ?_⟩⟩⟩
    · exact Cutting.moves_surface _ _
    · exact List.forall_mem_singleton.mpr rfl

theorem cuts_mesh {m : Mesh R S} (h : d.meshCommands id b m = .ok cs) :
    Cuts b.comment cs := by
  obtain ⟨t, -, h⟩ := exists_of_cutting h
  split at h
  · cases h
  · obtain rfl := Except.ok.inj h
    exact ⟨_, rfl, List.forall_mem_flatMap.mpr fun slice _ => Cutting.moves_slice _ _ _⟩

variable (d) in
/-- The forms of what a block contributes: the commands of its kind, or a remark and moves. -/
inductive Composed [Numeral R] (decimals : Nat) (b : Block R S) : List (Command R) → Prop where
  /-- What opens a program. -/
  | header {h : Header} (hb : b.payload = .header h) :
    Composed decimals b (d.headerCommands b.comment h)
  /-- What closes a program. -/
  | footer {f : Footer R} (hb : b.payload = .footer f) :
    Composed decimals b (d.footerCommands b.comment f)
  /-- A tool change. -/
  | tool {t : Tool R} (hb : b.payload = .tool t) :
    Composed decimals b (d.toolCommands decimals b.comment t)
  /-- Program text taken over. -/
  | code {t : String} (hb : b.payload = .code t) : Composed decimals b [.verbatim t]
  /-- Moves behind the comment, or the comment alone. -/
  | cuts {cs : List (Command R)} (hcs : Cuts b.comment cs) : Composed decimals b cs
  /-- Nothing. -/
  | nothing : Composed decimals b []

/-- **Whatever a block contributes** has one of these forms. -/
theorem composed_of_commands [Storage R S] [Numeral R] {decimals : Nat}
    (h : d.commands decimals id b = .ok cs) : d.Composed decimals b cs := by
  unfold commands at h
  split at h
  · rename_i hb
    obtain rfl := Except.ok.inj h
    exact .header hb
  · rename_i hb
    obtain rfl := Except.ok.inj h
    exact .footer hb
  · rename_i hb
    obtain rfl := Except.ok.inj h
    exact .tool hb
  · rename_i hb
    obtain rfl := Except.ok.inj h
    exact .code hb
  · exact .cuts (cuts_segment h)
  · exact .cuts (cuts_segment h)
  · exact .cuts (cuts_sketch h)
  · exact .cuts (cuts_drill h)
  · exact .cuts (cuts_bolt h)
  · exact .cuts (cuts_relief h)
  · exact .cuts (cuts_mesh h)
  · obtain rfl := Except.ok.inj h
    exact .nothing
  all_goals
    obtain rfl := Except.ok.inj h
    exact .cuts ⟨[], rfl, nofun⟩

/-- What cuts has a tool. -/
theorem exists_tool_of_cuts [Storage R S] [Numeral R] {decimals : Nat}
    (h : d.commands decimals id b = .ok cs) (hcuts : b.kind.cuts = true) :
    ∃ t, d.findTool? id = some t := by
  have hcutting {moves : Cutting R → Except SynthesisError (List (Command R))}
      (h : (d.cutting id >>= moves) = .ok cs) : ∃ t, d.findTool? id = some t := by
    obtain ⟨t, ht, -⟩ := exists_of_cutting h
    exact ⟨t, ht⟩
  unfold commands at h
  rw [Block.kind] at hcuts
  cases hp : b.payload <;> rw [hp] at h hcuts
  case line | arc | sketch | drillHoles | boltHoles | image | mesh => exact hcutting h
  all_goals cases hcuts

/-- **What a block remarks**: the name of the document, its comment, or something about its tool. -/
inductive Remarks (d : Document R S) [Numeral R] (decimals : Nat) (b : Block R S) : String → Prop
  where
  /-- The name of the document. -/
  | name : Remarks d decimals b d.name
  /-- The comment. -/
  | comment : Remarks d decimals b b.comment
  /-- What is said of a tool that has no comment. -/
  | tool {t : Tool R} (ht : b.tool? = some t) : Remarks d decimals b (toolRemark decimals t)
  /-- What the operator is told to load. -/
  | load {t : Tool R} (ht : b.tool? = some t) :
    Remarks d decimals b ("Load tool " ++ toString t.number.toNat)

omit [Analytic R] in
theorem remark_of_toolCommands [Numeral R] {decimals : Nat} {tool : Tool R} {t : String}
    (htool : b.tool? = some tool) (h : .remark t ∈ d.toolCommands decimals b.comment tool) :
    d.Remarks decimals b t := by
  simp only [toolCommands, List.mem_append, List.mem_cons, List.not_mem_nil, or_false] at h
  rcases h with (((h | h | h | h) | h) | h | h | h | h)
  · obtain rfl := Command.remark.inj h
    split
    · exact .tool htool
    · exact .comment
  · cases h
  · cases h
  · cases h
  · split at h
    · rcases List.mem_cons.mp h with h | h
      · obtain rfl := Command.remark.inj h
        exact .load htool
      · cases List.mem_singleton.mp h
    · cases h
  all_goals cases h

/-- **What a block remarks.** -/
theorem remark_of_commands [Storage R S] [Numeral R] {decimals : Nat} {t : String}
    (h : d.commands decimals id b = .ok cs) (ht : .remark t ∈ cs) : d.Remarks decimals b t := by
  cases composed_of_commands h with
  | header =>
    have hname : t = d.name ∨ t = b.comment := by simpa [headerCommands] using ht
    rcases hname with rfl | rfl
    · exact .name
    · exact .comment
  | footer =>
    have hcomment : t = b.comment := by simpa [footerCommands] using ht
    exact hcomment ▸ .comment
  | tool hb => exact remark_of_toolCommands (by rw [Block.tool?, hb]) ht
  | code => cases List.mem_singleton.mp ht
  | cuts hcs => exact hcs.commented.eq_of_mem ht ▸ .comment
  | nothing => cases ht

end Document

end Toolpath
