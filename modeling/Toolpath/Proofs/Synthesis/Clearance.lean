import Toolpath.Proofs.Geometry.Tours
import Toolpath.Proofs.Synthesis.Statements

/-!
# Rapid traverses at the clearance height

A rapid traverse in the plane and a tool change are safe only where the tool clears everything. So
they find the tool raised: the last command before them that moves it in Z is the rapid move up to
the clearance height. Every pattern of moves raises the tool first, and leaves it raised, whatever
was before; a lone segment traverses nothing. So patterns can stand in any order.

## Main definitions

* `Granted` — in a run everything that asks for a condition finds it
* `Command.Clear` — what traverses finds the tool raised
* `Command.Capped` — moves that begin and end with raising the tool
* `Document.Pattern` — a comment, and moves that are clear and capped

## Main results

* `Document.clear_of_commands` — what a block contributes is clear, whatever stands before it
* `Document.pattern_of_commands` — a pattern raises the tool first and last
-/

namespace Toolpath

/-! ### Runs in which everything finds what it asks for -/

section Granted

variable {α β : Type} {asks : α → Bool} {after : α → Prop → Prop}

/-- Whatever asks for a condition finds it: the condition `holds` in the beginning or not, and
`after` says what becomes of it. -/
def Granted (asks : α → Bool) (after : α → Prop → Prop) : Prop → List α → Prop
  | _, [] => True
  | holds, x :: xs => (asks x = true → holds) ∧ Granted asks after (after x holds) xs

/-- What becomes of a condition never turns on its being false. -/
def Forgiving (after : α → Prop → Prop) : Prop :=
  ∀ x (holds holds' : Prop), (holds → holds') → after x holds → after x holds'

theorem Granted.imp (hafter : Forgiving after) {holds holds' : Prop} {xs : List α}
    (hxs : Granted asks after holds xs) (h : holds → holds') : Granted asks after holds' xs := by
  induction xs generalizing holds holds' with
  | nil => trivial
  | cons x xs ih => exact ⟨fun hx => h (hxs.1 hx), ih hxs.2 (hafter x holds holds' h)⟩

/-- What finds everything by itself can stand behind anything. -/
theorem Granted.append (hafter : Forgiving after) {holds : Prop} {xs ys : List α}
    (hxs : Granted asks after holds xs) (hys : Granted asks after False ys) :
    Granted asks after holds (xs ++ ys) := by
  induction xs generalizing holds with
  | nil => exact hys.imp hafter False.elim
  | cons x xs ih => exact ⟨hxs.1, ih hxs.2⟩

theorem granted_flatMap (hafter : Forgiving after) {xs : List β} {g : β → List α}
    (h : ∀ x ∈ xs, Granted asks after False (g x)) : Granted asks after False (xs.flatMap g) := by
  induction xs with
  | nil => trivial
  | cons x xs ih =>
    obtain ⟨hx, hxs⟩ := List.forall_mem_cons.mp h
    rw [List.flatMap_cons]
    exact hx.append hafter (ih hxs)

/-- What asks for nothing finds everything. -/
theorem granted_of_not_asks {holds : Prop} {xs : List α} (h : ∀ x ∈ xs, asks x = false) :
    Granted asks after holds xs := by
  induction xs generalizing holds with
  | nil => trivial
  | cons x xs ih =>
    obtain ⟨hx, hxs⟩ := List.forall_mem_cons.mp h
    exact ⟨fun ht => absurd ht (Bool.eq_false_iff.mp hx), ih hxs⟩

end Granted

namespace Command

variable {R : Type} {z : R}

/-! ### Commands that find the tool raised -/

/-- Whether the tool is raised to the height `z` after a command, if it was `raised` before. -/
def RaisedAfter (z : R) : Command R → Prop → Prop
  | rapidZ w, _ => w = z
  | feedZ _ _, _ | feedTo _ _ _, _ | peck _ _ _ _ _, _ | verbatim _, _ => False
  | _, raised => raised

/-- Whether a command asks for a raised tool: a rapid traverse in the plane or a tool change. -/
def traverses : Command R → Bool
  | rapid _ | toolChange _ => true
  | _ => false

/-- Every command that asks for a raised tool finds it so, if it is `raised` in the beginning. -/
abbrev Clear (z : R) (raised : Prop) (cs : List (Command R)) : Prop :=
  Granted traverses (RaisedAfter z) raised cs

theorem forgiving_raisedAfter (z : R) : Forgiving (RaisedAfter z) := by
  intro c raised raised' h hc
  cases c <;> first | exact h hc | exact hc

/-- Commands that begin and end with raising the tool. -/
def Capped (z : R) (cs : List (Command R)) : Prop :=
  cs.head? = some (.rapidZ z) ∧ cs.getLast? = some (.rapidZ z)

theorem capped_of_ends (z : R) (between : List (Command R)) :
    Capped z (.rapidZ z :: between ++ [.rapidZ z]) :=
  ⟨rfl, List.getLast?_concat⟩

theorem Capped.append {as bs : List (Command R)} (ha : Capped z as) (hb : Capped z bs) :
    Capped z (as ++ bs) :=
  ⟨by rw [List.head?_append, ha.1]; rfl, by rw [List.getLast?_append, hb.2]; rfl⟩

theorem capped_flatMap {α : Type} {xs : List α} {g : α → List (Command R)} (hne : xs ≠ [])
    (h : ∀ x ∈ xs, Capped z (g x)) : Capped z (xs.flatMap g) := by
  induction xs with
  | nil => exact absurd rfl hne
  | cons x xs ih =>
    obtain ⟨hx, hxs⟩ := List.forall_mem_cons.mp h
    rw [List.flatMap_cons]
    cases xs with
    | nil => simpa using hx
    | cons y ys => exact hx.append (ih (List.cons_ne_nil y ys) hxs)

end Command

/-! ### Moves -/

namespace Cutting

open Command

variable {R : Type} [Analytic R] (c : Cutting R)

theorem clear_follow (s : Segment R) : Clear c.clearance False (c.follow s) := by
  cases s <;> simp [Granted, follow, traverses]

theorem clear_levelFrom (level : R) (place : Option (Vec2 R)) (segments : List (Segment R)) :
    Clear c.clearance False (c.levelFrom level place segments) := by
  induction segments generalizing place with
  | nil => trivial
  | cons s rest ih =>
    have hplunge : Clear c.clearance False (c.plungeAt level s.start) := by
      simp [Granted, plungeAt, lift, traverses, RaisedAfter]
    rw [levelFrom]
    refine Granted.append (forgiving_raisedAfter _)
      (Granted.append (forgiving_raisedAfter _) ?_ (c.clear_follow s)) (ih _)
    split
    · trivial
    · exact hplunge

theorem clear_contour (levels : List R) (segments : List (Segment R)) :
    Clear c.clearance False (c.contour levels segments) := by
  refine granted_flatMap (forgiving_raisedAfter _) fun level _ => ?_
  refine (c.clear_levelFrom level none segments).append (forgiving_raisedAfter _) ?_
  simp [Granted, lift, traverses]

theorem capped_contour {levels : List R} {segments : List (Segment R)} (hlevels : levels ≠ [])
    (hsegments : segments ≠ []) : Capped c.clearance (c.contour levels segments) := by
  obtain ⟨s, rest, rfl⟩ := List.exists_cons_of_ne_nil hsegments
  refine capped_flatMap hlevels fun level _ => ⟨?_, by simp [lift]⟩
  simp [levelFrom, standsAt, plungeAt, lift]

theorem clear_drill (depth increment : R) (points : List (Vec2 R)) :
    Clear c.clearance False (c.drill depth increment points) := by
  cases points with
  | nil => trivial
  | cons p rest =>
    rw [drill]
    refine Granted.append (forgiving_raisedAfter _)
      (Granted.append (forgiving_raisedAfter _) ?_ ?_) ?_
    · simp [Granted, lift, traverses, RaisedAfter]
    · exact granted_of_not_asks (by simp [traverses])
    · simp [Granted, lift, traverses]

theorem capped_drill (depth increment : R) {points : List (Vec2 R)} (hne : points ≠ []) :
    Capped c.clearance (c.drill depth increment points) := by
  obtain ⟨p, rest, rfl⟩ := List.exists_cons_of_ne_nil hne
  have hends := capped_of_ends c.clearance
    ([.rapid p, .peck p (-depth) c.clearance increment c.plunge] ++ rest.map .hole
      ++ [.codes [Word.g 80]])
  simpa [drill, lift] using hends

theorem clear_bore (depth : R) (levels : List R) (center : Vec2 R) (radius : R) :
    Clear c.clearance False (c.bore depth levels center radius) := by
  unfold bore
  dsimp only
  split
  · simp [Granted, lift, traverses, RaisedAfter]
  · refine Granted.append (forgiving_raisedAfter _) (Granted.append (forgiving_raisedAfter _) ?_
      (granted_flatMap (forgiving_raisedAfter _) fun level _ => ?_)) ?_
    · simp [Granted, lift, traverses, RaisedAfter]
    · simp [Granted, traverses]
    · simp [Granted, lift, traverses]

theorem capped_bore (depth : R) (levels : List R) (center : Vec2 R) (radius : R) :
    Capped c.clearance (c.bore depth levels center radius) := by
  unfold bore
  dsimp only
  split
  · exact capped_of_ends c.clearance [.rapid center, .feedZ (-depth) c.plunge]
  · exact capped_of_ends c.clearance (.rapid _ :: levels.flatMap _)

/-- A relief is entered with the tool raised. -/
theorem clear_surface {raised : Prop} (h : raised) (places : List (Vec2 R × R)) :
    Clear c.clearance raised (c.surface places) := by
  cases places with
  | nil => trivial
  | cons p rest =>
    refine ⟨fun _ => h, granted_of_not_asks ?_⟩
    intro x hx
    rcases List.mem_cons.mp hx with rfl | hx
    · rfl
    · obtain ⟨q, -, rfl⟩ := List.mem_map.mp hx
      rfl

theorem clear_slice (placed : Vec2 R → Vec2 R) (s : Slice R) :
    Clear c.clearance False (c.slice placed s) := by
  have hpolyline (points : List (Vec2 R)) : Clear c.clearance False (c.polyline s.z points) := by
    cases points with
    | nil => trivial
    | cons p rest =>
      refine Granted.append (forgiving_raisedAfter _) ?_ (granted_of_not_asks ?_)
      · simp [Granted, lift, traverses, RaisedAfter]
      · simp [traverses]
  refine (granted_flatMap (forgiving_raisedAfter _) fun chain _ => hpolyline _).append
    (forgiving_raisedAfter _) ?_
  simp [Granted, lift, traverses]

theorem capped_slice (placed : Vec2 R → Vec2 R) (s : Slice R) :
    Capped c.clearance (c.slice placed s) := by
  refine ⟨?_, by simp [slice, lift]⟩
  rw [slice]
  cases Chain.all s.segments with
  | nil => rfl
  | cons chain rest => simp [Chain.points, polyline, lift]

end Cutting

/-! ### What blocks contribute -/

namespace Document

open Command

variable {R S : Type} [Analytic R] {d : Document R S} {id : NodeId} {b : Block R S}
  {cs : List (Command R)}

/-- A comment, and moves behind it that begin and end with raising the tool. -/
def Pattern (z : R) (comment : String) (cs : List (Command R)) : Prop :=
  ∃ rest, cs = .remark comment :: rest ∧ Clear z False rest ∧ Capped z rest

omit [Analytic R] in
theorem Pattern.clear {z : R} {comment : String} (h : Pattern z comment cs) :
    Clear z False cs := by
  obtain ⟨rest, rfl, hclear, -⟩ := h
  exact ⟨nofun, hclear⟩

theorem pattern_sketch {data : Sketch R} (h : d.sketchCommands id b data = .ok cs) :
    Pattern d.material.clearance b.comment cs := by
  obtain ⟨t, -, h⟩ := exists_of_cutting h
  obtain ⟨hsegments, hlevels, rfl⟩ := eq_of_checked h
  have hcapped := Cutting.capped_contour ⟨d.material.clearance, t⟩
    (mt List.isEmpty_iff.mpr hlevels) (mt List.isEmpty_iff.mpr hsegments)
  exact ⟨_, rfl, Cutting.clear_contour ⟨_, t⟩ _ _, hcapped⟩

theorem pattern_drill {data : DrillHoles R} (h : d.drillCommands id b data = .ok cs) :
    Pattern d.material.clearance b.comment cs := by
  obtain ⟨t, -, h⟩ := exists_of_cutting h
  obtain ⟨hpoints, -, rfl⟩ := eq_of_checked h
  have hne := mt List.isEmpty_iff.mpr hpoints
  exact ⟨_, rfl, Cutting.clear_drill ⟨_, t⟩ _ _ _,
    Cutting.capped_drill ⟨_, t⟩ _ _ (Tour.along_plan_ne_nil _ hne hne)⟩

theorem pattern_bolt {data : BoltHoles R} (h : d.boltCommands id b data = .ok cs) :
    Pattern d.material.clearance b.comment cs := by
  obtain ⟨t, -, h⟩ := exists_of_cutting h
  obtain ⟨hcircles, -, rfl⟩ := eq_of_checked h
  have hne := mt List.isEmpty_iff.mpr hcircles
  refine ⟨_, rfl, granted_flatMap (forgiving_raisedAfter _) fun hole _ =>
    Cutting.clear_bore ⟨_, t⟩ _ _ _ _, ?_⟩
  refine capped_flatMap ?_ fun hole _ => Cutting.capped_bore ⟨_, t⟩ _ _ _ _
  exact Tour.along_plan_ne_nil _ hne (mt List.map_eq_nil_iff.mp hne)

theorem pattern_relief [Storage R S] {r : Relief R S} (h : d.reliefCommands id b r = .ok cs) :
    Pattern d.material.clearance b.comment cs := by
  obtain ⟨t, -, h⟩ := exists_of_cutting h
  split at h
  · cases h
  · obtain rfl := Except.ok.inj h
    refine ⟨_, rfl, ⟨nofun, ?_⟩, capped_of_ends d.material.clearance _⟩
    exact (Cutting.clear_surface ⟨_, t⟩ rfl _).append (forgiving_raisedAfter _) ⟨nofun, trivial⟩

theorem pattern_mesh {m : Mesh R S} (h : d.meshCommands id b m = .ok cs) :
    Pattern d.material.clearance b.comment cs := by
  obtain ⟨t, -, h⟩ := exists_of_cutting h
  split at h
  · cases h
  · rename_i hcontours
    obtain rfl := Except.ok.inj h
    refine ⟨_, rfl, granted_flatMap (forgiving_raisedAfter _) fun slice _ =>
      Cutting.clear_slice ⟨_, t⟩ _ _, ?_⟩
    refine capped_flatMap ?_ fun slice _ => Cutting.capped_slice ⟨_, t⟩ _ _
    intro hnil
    rw [hnil] at hcontours
    exact hcontours rfl

theorem clear_segment (h : d.segmentCommands id b = .ok cs) :
    Clear d.material.clearance False cs := by
  obtain ⟨t, -, h⟩ := exists_of_cutting h
  split at h
  · obtain rfl := Except.ok.inj h
    exact ⟨nofun, Cutting.clear_follow ⟨d.material.clearance, t⟩ _⟩
  · cases h

omit [Analytic R] in
theorem clear_footerCommands (d : Document R S) (comment : String) (f : Footer R) :
    Clear d.material.clearance False (d.footerCommands comment f) := by
  unfold footerCommands
  cases f.retract <;> simp [Granted, RaisedAfter, traverses]

omit [Analytic R] in
theorem clear_toolCommands [Numeral R] (d : Document R S) (decimals : Nat) (comment : String)
    (t : Tool R) : Clear d.material.clearance False (d.toolCommands decimals comment t) := by
  unfold toolCommands promptCommands
  cases t.prompt || d.machine.prompts <;> simp [Granted, RaisedAfter, traverses]

/-- **What a block contributes is clear**, whatever stands before it. -/
theorem clear_of_commands [Storage R S] [Numeral R] {decimals : Nat}
    (h : d.commands decimals id b = .ok cs) : Clear d.material.clearance False cs := by
  unfold commands at h
  split at h
  · obtain rfl := Except.ok.inj h
    exact granted_of_not_asks (by simp [headerCommands, traverses])
  · obtain rfl := Except.ok.inj h
    exact d.clear_footerCommands _ _
  · obtain rfl := Except.ok.inj h
    exact d.clear_toolCommands _ _ _
  · obtain rfl := Except.ok.inj h
    exact ⟨fun h => Bool.noConfusion h, trivial⟩
  · exact clear_segment h
  · exact clear_segment h
  · exact (pattern_sketch h).clear
  · exact (pattern_drill h).clear
  · exact (pattern_bolt h).clear
  · exact (pattern_relief h).clear
  · exact (pattern_mesh h).clear
  · obtain rfl := Except.ok.inj h
    trivial
  all_goals
    obtain rfl := Except.ok.inj h
    exact ⟨fun h => Bool.noConfusion h, trivial⟩

/-- The kinds whose blocks are patterns of moves. -/
def patternKinds : List BlockKind := [.sketch, .drillHoles, .boltHoles, .image, .mesh]

/-- **A pattern raises the tool first and last.** -/
theorem pattern_of_commands [Storage R S] [Numeral R] {decimals : Nat}
    (h : d.commands decimals id b = .ok cs) (hb : b.kind ∈ patternKinds) :
    Pattern d.material.clearance b.comment cs := by
  rw [Block.kind] at hb
  unfold commands at h
  cases hp : b.payload with
  | sketch s => rw [hp] at h; exact pattern_sketch h
  | drillHoles s => rw [hp] at h; exact pattern_drill h
  | boltHoles s => rw [hp] at h; exact pattern_bolt h
  | image s => rw [hp] at h; exact pattern_relief h
  | mesh s => rw [hp] at h; exact pattern_mesh h
  | _ => rw [hp] at hb; simp [patternKinds, Payload.kind] at hb

end Document

end Toolpath
