import Toolpath.Proofs.Synthesis.Memory

/-!
# Feeds in effect

Every cutting move of a program finds its feed in effect: the last `F` up to the move is that of the
feed it asks for, or of one that differs by less than the precision. What stands before the fragment
of its block does not matter, be it another fragment or text that is taken over.

A fragment could still be wrong about a feed that is told without being remembered, by a tool change
or in a drilling cycle. But a block that has one of these makes no cutting move; and a block that
makes cutting moves asks for the feed of its tool at each of them.

## Main definitions

* `Tool.feedFor?` — the feed at which a tool makes a move
* `Command.PacedBy` — what a command says of feeds is remembered, and comes from the tool
* `Document.FindsFeed` — a cutting move finds its feed in effect
* `Document.TellsFeeds` — every cutting move of a program does

## Main results

* `Document.paced_of_commands` — a block makes no cutting move, or takes its pace from the tool
* `Document.tellsFeeds_generate` — in every program cutting moves find their feed in effect
-/

namespace Toolpath

/-! ### Moves -/

/-- The feed at which a tool makes a cutting move: in Z it plunges. -/
def Tool.feedFor? {R : Type} [Scalar R] (t : Tool R) : Command R → Option R
  | .feedZ _ _ => some (Synthesis.plungeFeed t)
  | .feed _ _ | .feedTo _ _ _ | .arc _ _ _ _ => some t.feed
  | _ => none

/-- A command tells no feed in passing, and a cutting move asks for the feed of the tool. -/
def Command.PacedBy {R : Type} [Scalar R] (t : Tool R) (x : Command R) : Prop :=
  x.tellsAside = false ∧
    (x.isCutting = true → ∃ asked, t.feedFor? x = some asked ∧ x.feed? = some asked)

namespace Cutting

open Command

variable {R : Type} [Analytic R] (c : Cutting R)

theorem paced_follow (s : Segment R) : ∀ x ∈ c.follow s, x.PacedBy c.tool := by
  cases s <;> simp [follow, PacedBy, tellsAside, Tool.feedFor?, feed?]

theorem paced_levelFrom (level : R) (place : Option (Vec2 R)) (segments : List (Segment R)) :
    ∀ x ∈ c.levelFrom level place segments, x.PacedBy c.tool := by
  induction segments generalizing place with
  | nil => exact List.forall_mem_nil _
  | cons s rest ih =>
    have hplunge : ∀ x ∈ c.plungeAt level s.start, x.PacedBy c.tool := by
      simp [plungeAt, lift, plunge, PacedBy, tellsAside, isCutting, Tool.feedFor?, feed?]
    rw [levelFrom]
    refine List.forall_mem_append.mpr ⟨List.forall_mem_append.mpr ⟨?_, c.paced_follow s⟩, ih _⟩
    split
    · exact List.forall_mem_nil _
    · exact hplunge

theorem paced_contour (levels : List R) (segments : List (Segment R)) :
    ∀ x ∈ c.contour levels segments, x.PacedBy c.tool := by
  refine List.forall_mem_flatMap.mpr fun level _ => ?_
  refine List.forall_mem_append.mpr ⟨c.paced_levelFrom level none segments, ?_⟩
  simp [lift, PacedBy, tellsAside, isCutting]

theorem paced_bore (depth : R) (levels : List R) (center : Vec2 R) (radius : R) :
    ∀ x ∈ c.bore depth levels center radius, x.PacedBy c.tool := by
  unfold bore
  dsimp only
  split
  · simp [lift, plunge, PacedBy, tellsAside, isCutting, Tool.feedFor?, feed?]
  · have hlevel (level : R) (start offset : Vec2 R) : ∀ x ∈ [Command.feedZ (-level) c.plunge,
        .arc false start offset (some c.tool.feed)], x.PacedBy c.tool := by
      simp [plunge, PacedBy, tellsAside, Tool.feedFor?, feed?]
    refine List.forall_mem_append.mpr ⟨List.forall_mem_append.mpr
      ⟨?_, List.forall_mem_flatMap.mpr fun level _ => hlevel level _ _⟩, ?_⟩
    · simp [lift, PacedBy, tellsAside, isCutting]
    · simp [lift, PacedBy, tellsAside, isCutting]

theorem paced_surface (places : List (Vec2 R × R)) :
    ∀ x ∈ c.surface places, x.PacedBy c.tool := by
  cases places with
  | nil => exact List.forall_mem_nil _
  | cons p rest =>
    refine List.forall_mem_cons.mpr ⟨⟨rfl, nofun⟩, List.forall_mem_cons.mpr
      ⟨⟨rfl, fun _ => ⟨_, rfl, rfl⟩⟩, List.forall_mem_map.mpr fun q _ => ?_⟩⟩
    exact ⟨rfl, fun _ => ⟨_, rfl, rfl⟩⟩

theorem paced_slice (placed : Vec2 R → Vec2 R) (s : Slice R) :
    ∀ x ∈ c.slice placed s, x.PacedBy c.tool := by
  have hpolyline (points : List (Vec2 R)) : ∀ x ∈ c.polyline s.z points, x.PacedBy c.tool := by
    cases points with
    | nil => exact List.forall_mem_nil _
    | cons p rest =>
      simp [polyline, lift, plunge, PacedBy, tellsAside, isCutting, Tool.feedFor?, feed?]
  refine List.forall_mem_append.mpr
    ⟨List.forall_mem_flatMap.mpr fun chain _ => hpolyline _, ?_⟩
  simp [lift, PacedBy, tellsAside, isCutting]

/-- A drilling cycle makes no cutting move. -/
theorem not_isCutting_drill (depth increment : R) (points : List (Vec2 R)) :
    ∀ x ∈ c.drill depth increment points, x.isCutting = false := by
  cases points with
  | nil => exact List.forall_mem_nil _
  | cons p rest =>
    intro x hx
    simp only [drill, List.mem_append, List.mem_cons, List.not_mem_nil, or_false,
      List.mem_map] at hx
    rcases hx with ((rfl | rfl | rfl) | ⟨q, -, rfl⟩) | rfl | rfl <;> rfl

end Cutting

/-! ### What blocks contribute -/

namespace Document

open Command ProgramLine

section

variable {R S : Type} [Analytic R] {d : Document R S} {id : NodeId} {b : Block R S}
  {cs : List (Command R)}

/-- What a block contributes that takes its pace from a tool. -/
def Paced (d : Document R S) (id : NodeId) (cs : List (Command R)) : Prop :=
  ∃ t, d.findTool? id = some t ∧ ∀ c ∈ cs, c.PacedBy t

theorem paced_segment (h : d.segmentCommands id b = .ok cs) : d.Paced id cs := by
  obtain ⟨t, ht, h⟩ := exists_of_cutting h
  split at h
  · obtain rfl := Except.ok.inj h
    exact ⟨t, ht, List.forall_mem_cons.mpr ⟨⟨rfl, nofun⟩, Cutting.paced_follow ⟨_, t⟩ _⟩⟩
  · cases h

theorem paced_sketch {data : Sketch R} (h : d.sketchCommands id b data = .ok cs) :
    d.Paced id cs := by
  obtain ⟨t, ht, h⟩ := exists_of_cutting h
  obtain ⟨-, -, rfl⟩ := eq_of_checked h
  exact ⟨t, ht, List.forall_mem_cons.mpr ⟨⟨rfl, nofun⟩, Cutting.paced_contour ⟨_, t⟩ _ _⟩⟩

theorem paced_bolt {data : BoltHoles R} (h : d.boltCommands id b data = .ok cs) :
    d.Paced id cs := by
  obtain ⟨t, ht, h⟩ := exists_of_cutting h
  obtain ⟨-, -, rfl⟩ := eq_of_checked h
  exact ⟨t, ht, List.forall_mem_cons.mpr ⟨⟨rfl, nofun⟩,
    List.forall_mem_flatMap.mpr fun hole _ => Cutting.paced_bore ⟨_, t⟩ _ _ _ _⟩⟩

theorem paced_relief [Storage R S] {r : Relief R S} (h : d.reliefCommands id b r = .ok cs) :
    d.Paced id cs := by
  obtain ⟨t, ht, h⟩ := exists_of_cutting h
  split at h
  · cases h
  · obtain rfl := Except.ok.inj h
    refine ⟨t, ht, List.forall_mem_append.mpr ⟨List.forall_mem_append.mpr
      ⟨?_, Cutting.paced_surface ⟨_, t⟩ _⟩, List.forall_mem_singleton.mpr ⟨rfl, nofun⟩⟩⟩
    exact List.forall_mem_cons.mpr ⟨⟨rfl, nofun⟩, List.forall_mem_singleton.mpr ⟨rfl, nofun⟩⟩

theorem paced_mesh {m : Mesh R S} (h : d.meshCommands id b m = .ok cs) : d.Paced id cs := by
  obtain ⟨t, ht, h⟩ := exists_of_cutting h
  split at h
  · cases h
  · obtain rfl := Except.ok.inj h
    exact ⟨t, ht, List.forall_mem_cons.mpr ⟨⟨rfl, nofun⟩,
      List.forall_mem_flatMap.mpr fun slice _ => Cutting.paced_slice ⟨_, t⟩ _ _⟩⟩

theorem not_isCutting_drillCommands {data : DrillHoles R}
    (h : d.drillCommands id b data = .ok cs) : ∀ c ∈ cs, c.isCutting = false := by
  obtain ⟨t, -, h⟩ := exists_of_cutting h
  obtain ⟨-, -, rfl⟩ := eq_of_checked h
  exact List.forall_mem_cons.mpr ⟨rfl, Cutting.not_isCutting_drill ⟨_, t⟩ _ _ _⟩

omit [Analytic R] in
theorem not_isCutting_headerCommands (d : Document R S) (comment : String) (h : Header) :
    ∀ c ∈ d.headerCommands comment h, c.isCutting = false := by
  have hmodes : isCut (Word.row ([17, 40, 49, 80, 90].map Word.g)) = false := by decide
  have hunit : isCut (Word.row [unitCode d.material.units]) = false := by
    cases d.material.units <;> decide
  have hsystem : isCut (Word.row [Word.g (54 + min h.coordinateSystem.toNat 5)]) = false := by
    have hsystems : ∀ k < 6, isCut (Word.row [Word.g (54 + k)]) = false := by decide
    exact hsystems _ (by omega)
  simp only [headerCommands, List.forall_mem_cons, isCutting, hmodes, hunit, hsystem,
    List.not_mem_nil, IsEmpty.forall_iff, implies_true, and_self]

omit [Analytic R] in
theorem not_isCutting_footerCommands (d : Document R S) (comment : String) (f : Footer R) :
    ∀ c ∈ d.footerCommands comment f, c.isCutting = false := by
  have hfive : isCut (Word.row [Word.m 5]) = false := by decide
  have hnine : isCut (Word.row [Word.m 9]) = false := by decide
  unfold footerCommands
  cases f.retract <;> simp [isCutting, hfive, hnine]

omit [Analytic R] in
theorem not_isCutting_toolCommands [Numeral R] (d : Document R S) (decimals : Nat)
    (comment : String) (t : Tool R) :
    ∀ c ∈ d.toolCommands decimals comment t, c.isCutting = false := by
  have hauxiliary (n : Nat) : isCut (Word.row [Word.m n]) = false :=
    isCut_of_head? (by simp [Word.row_cons, Word.chars, Word.m, Word.ofNat])
  have hspindle (speed n : Nat) : isCut (Word.row [Word.ofNat 'S' 1 speed, Word.m n]) = false :=
    isCut_of_head? (by simp [Word.row_cons, Word.chars, Word.ofNat])
  unfold toolCommands promptCommands
  cases t.prompt || d.machine.prompts <;> simp [isCutting, hauxiliary, hspindle]

/-- **What a block contributes makes no cutting move, or takes its pace from the tool**, unless it
is text taken over. -/
theorem paced_of_commands [Storage R S] [Numeral R] {decimals : Nat}
    (h : d.commands decimals id b = .ok cs) (hcode : b.kind ≠ .code) :
    (∀ c ∈ cs, c.isCutting = false) ∨ d.Paced id cs := by
  rw [Block.kind] at hcode
  unfold commands at h
  split at h
  · obtain rfl := Except.ok.inj h
    exact .inl (d.not_isCutting_headerCommands _ _)
  · obtain rfl := Except.ok.inj h
    exact .inl (d.not_isCutting_footerCommands _ _)
  · obtain rfl := Except.ok.inj h
    exact .inl (d.not_isCutting_toolCommands _ _ _)
  · rename_i hpayload
    rw [hpayload] at hcode
    exact absurd rfl hcode
  · exact .inr (paced_segment h)
  · exact .inr (paced_segment h)
  · exact .inr (paced_sketch h)
  · exact .inl (not_isCutting_drillCommands h)
  · exact .inr (paced_bolt h)
  · exact .inr (paced_relief h)
  · exact .inr (paced_mesh h)
  · obtain rfl := Except.ok.inj h
    exact .inl (List.forall_mem_nil _)
  all_goals
    obtain rfl := Except.ok.inj h
    exact .inl (List.forall_mem_singleton.mpr rfl)

end

/-! ### Cutting moves of programs -/

variable {d : Project} {f : ProgramFormat} {p : NodeId × StoredBlock}

variable (d f p) in
/-- A line of a block is that of a command, and what stands before it on the block is written for
the commands before. -/
structure LineOf (front : List (Command Double)) (c : Command Double)
    (before : List (List Char)) (line : List Char) : Prop where
  /-- The command is one of the block. -/
  commands : ∃ back, d.commands f.decimals p.1 p.2 = .ok (front ++ c :: back)
  /-- The lines before. -/
  before : before = Statement.linesOf f.dialect (Command.write f.dialect f.decimals front)
  /-- The line itself. -/
  line : Statement.linesOf f.dialect
    (c.statements f.dialect f.decimals (front.foldl feedAfter none)) = [line]

variable (d f p) in
/-- A cutting move of a block finds its feed in effect: behind `earlier` lines, the feed told last
before the move or on it is the one that its command asks for, or is near to it. The command asks
for the feed of the tool. -/
def FindsFeed (earlier before : List (List Char)) (line : List Char) : Prop :=
  ∃ front c, d.LineOf f p front c before line ∧
    ∃ t asked told, d.findTool? p.1 = some t ∧ t.feedFor? c = some asked ∧ c.feed? = some asked ∧
      lastFeed? (earlier ++ before ++ [line]) =
        some (Decimal.coordinate f.decimals told).toList ∧
      (told = asked ∨ Scalar.abs (told - asked) < Scalar.precision)

/-- **A cutting move of a block finds its feed in effect**, whatever stands before the block. -/
theorem findsFeed_of_isCut (hcode : p.2.kind ≠ .code) (earlier : List (List Char))
    {before after : List (List Char)} {line : List Char}
    (h : d.ownLines f p = before ++ line :: after) (hcut : isCut line = true) :
    d.FindsFeed f p earlier before line := by
  cases hcs : d.commands f.decimals p.1 p.2 with
  | error e =>
    rw [d.ownLines_of_error f hcs] at h
    exact absurd h.symm (List.append_ne_nil_of_right_ne_nil _ (List.cons_ne_nil _ _))
  | ok cs =>
    have htidy := tidy_of_commands hcs hcode
    rw [ownLines, d.own_of_commands f hcs] at h
    obtain ⟨front, c, back, rfl, hbefore, hline, hcutting⟩ :=
      exists_of_isCut f.dialect f.decimals htidy h hcut
    have hmem : c ∈ front ++ c :: back := List.mem_append_right front List.mem_cons_self
    rcases paced_of_commands hcs hcode with hnone | ⟨t, ht, hpaced⟩
    · rw [hnone c hmem] at hcutting
      cases hcutting
    · have hsteady : ∀ x ∈ front ++ c :: back, x.Tidy ∧ x.tellsAside = false := fun x hx =>
        ⟨htidy x hx, (hpaced x hx).1⟩
      obtain ⟨hc, haside⟩ := hsteady c hmem
      obtain ⟨asked, hfor, hasked⟩ := (hpaced c hmem).2 hcutting
      have hfront := (inEffect_none f.decimals earlier).run f.dialect
        (List.forall_mem_append.mp hsteady).1
      obtain ⟨told, htold, hnear⟩ := exists_feedAfter hasked (front.foldl feedAfter none)
      have hlast := hfront.step f.dialect hc haside told htold
      rw [hline] at hlast
      subst hbefore
      exact ⟨front, c, ⟨⟨back, hcs⟩, rfl, hline⟩, t, asked, told, ht, hfor, hasked, hlast, hnear⟩

variable (d) in
/-- Every cutting move of a program finds its feed in effect. -/
structure TellsFeeds (ending : LineEnding) (decimals : Option Nat) : Prop where
  /-- The program is made of the lines of the blocks that are reached. -/
  fragments : Text.lines (d.generate ending decimals).1.toList =
    d.reached.flatMap (d.ownLines (d.format decimals))
  /-- Every cutting move of a block that is not text taken over finds its feed in effect, behind the
  lines of all blocks before, whatever they are. -/
  feeds : ∀ earlier p later before line after, d.reached = earlier ++ p :: later →
    p.2.kind ≠ .code → d.ownLines (d.format decimals) p = before ++ line :: after →
    isCut line = true → d.FindsFeed (d.format decimals) p
      (earlier.flatMap (d.ownLines (d.format decimals))) before line

/-- **In every program cutting moves find their feed in effect**, in any dialect, with any line
ending and any number of decimals, also behind text that is taken over. -/
theorem tellsFeeds_generate (d : Project) (ending : LineEnding) (decimals : Option Nat) :
    d.TellsFeeds ending decimals where
  fragments := d.lines_generate ending decimals
  feeds := fun _ _ _ _ _ _ _ hcode h hcut => findsFeed_of_isCut hcode _ h hcut

end Document

end Toolpath
