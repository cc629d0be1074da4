import Toolpath.Project.Record
import Toolpath.Proofs.Document.Erasing
import Toolpath.Proofs.Document.Loops
import Toolpath.Proofs.Synthesis.Reaching

/-!
# Suppressed blocks

A suppressed block yields nothing, and neither does anything below it; nor has it a segment in the
pattern or the sketch that it belongs to. So a program is the one that there would be without
the block. There is one exception: a tool change that is suppressed is still found by the search for
a tool. A block that it is found for cuts with a tool that is never loaded, where without the tool
change it would cut with another tool or not at all.

## Main definitions

* `Document.Suppressed` — a block is suppressed

## Main results

* `Document.reached_pruned` — synthesis reaches the same blocks
* `Document.commands_pruned`, `Document.statements_pruned` — a block contributes the same
* `Document.generate_suppress` — a program with a suppressed block is the program without it, unless
  a block cuts with the tool of the suppressed block
-/

namespace Toolpath

theorem Block.cuts_of_sketch? {R S : Type} {b : Block R S} {s : Sketch R}
    (h : b.sketch? = some s) : b.kind.cuts = true := by
  unfold Block.sketch? at h
  rw [Block.kind]
  split at h
  · rename_i hp
    rw [hp]
    rfl
  · cases h

theorem Block.sketch?_of_isGroup {R S : Type} {b : Block R S} (h : b.kind.isGroup = true) :
    b.sketch? = none := by
  rw [Block.kind] at h
  unfold Block.sketch?
  split
  · rename_i hp
    rw [hp] at h
    cases h
  · rfl

namespace Document

variable {R S : Type} {d : Document R S} {u : Tree (Block R S)} {n x : NodeId} {b : Block R S}

variable (d n) in
/-- A block is suppressed, if it is there. -/
def Suppressed : Prop := ∀ b, d.get? n = some b → b.flags.suppressed = true

theorem suppressed_suppress (d : Document R S) (n : NodeId) : (d.suppress n).Suppressed n := by
  intro b hb
  have hself : (d.suppress n).get? n = (d.get? n).map Block.suppress :=
    Tree.get?_modify_self d.tree n Block.suppress
  rw [hself] at hb
  obtain ⟨c, -, rfl⟩ := Option.map_eq_some_iff.mp hb
  rfl

/-! ### What is reached -/

/-- From a suppressed block nothing is reached. -/
theorem Suppressed.reachedTo_eq_nil (hn : d.Suppressed n) (fuel : Nat) :
    d.reachedTo fuel n = [] := by
  cases fuel with
  | zero => rfl
  | succ fuel =>
    rw [reachedTo_succ]
    cases hb : d.get? n with
    | none => rfl
    | some b => exact if_pos (hn b hb)

section Reached

variable (h : d.tree.Pruned u n) (hn : d.Suppressed n)

include h hn

/-- From a block that is left the same blocks are reached. -/
theorem reachedTo_pruned (fuel : Nat) (hx : u.contains x) :
    (d.withTree u).reachedTo fuel x = d.reachedTo fuel x := by
  induction fuel generalizing x with
  | zero => rfl
  | succ fuel ih =>
    have hinside : ((d.withTree u).inside x).flatMap ((d.withTree u).reachedTo fuel) =
        (d.inside x).flatMap (d.reachedTo fuel) := by
      rw [inside, inside, children?_pruned h hx]
      cases hl : d.children? x with
      | none => rfl
      | some l =>
        have hrow : u.members l = (d.tree.members l).filter (· != n) :=
          h.members_of_mem_childLists hx (List.mem_of_head? hl)
        show (u.members l).flatMap _ = (d.tree.members l).flatMap _
        rw [hrow]
        refine Tree.flatMap_filter_ne (fun y hy => ?_) (hn.reachedTo_eq_nil fuel)
        exact ih (u.sound.holds.alive l y (hrow.symm ▸ hy : y ∈ u.members l)).1
    rw [reachedTo_succ, reachedTo_succ, get?_pruned h hx, hinside]

/-- **Synthesis reaches the same blocks** without a block that is suppressed. -/
theorem reached_pruned (hroot : d.tree.owner? d.root = none) :
    (d.withTree u).reached = d.reached := by
  have hrow : u.members d.root = (d.tree.members d.root).filter (· != n) := by
    refine h.members d.root fun o ho => ?_
    rw [hroot] at ho
    cases ho
  have hfuel : (d.withTree u).tree.links.nodes.nextKey = d.tree.links.nodes.nextKey := h.counted
  rw [reached_eq_flatMap, reached_eq_flatMap]
  show (u.members d.root).flatMap _ = _
  rw [hrow]
  refine Tree.flatMap_filter_ne (fun y hy => ?_) (hn.reachedTo_eq_nil _)
  have hleft := (u.sound.holds.alive _ y (hrow.symm ▸ hy : y ∈ u.members d.root)).1
  rw [reachedFrom, hfuel, reachedTo_pruned h hn _ hleft]
  rfl

end Reached

/-! ### What it contributes -/

/-- No sketch is around a block that is reached. -/
theorem Reaches.firstSketch?_eq_none (hroot : d.tree.owner? d.root = none) (hx : d.Reaches x) :
    d.firstSketch? (d.tree.ancestors x) = none := by
  refine List.findSome?_eq_none_iff.mpr fun a ha => ?_
  obtain ⟨g, hg, hgroup⟩ := hx.group_of_mem_ancestors hroot ha
  rw [hg, Option.bind_some, Block.sketch?_of_isGroup hgroup]
  rfl

/-- The sketch around a block inside one that is reached can only be that one. -/
theorem Reaches.eq_of_firstSketch? (hroot : d.tree.owner? d.root = none) (hx : d.Reaches x)
    (hb : d.get? x = some b) {c s : NodeId} {data : Sketch R} (hc : c ∈ d.inside x)
    (hs : d.firstSketch? (d.tree.ancestors c) = some (s, data)) :
    s = x ∧ b.sketch? = some data := by
  rw [hx.ancestors_of_inside hroot hc, firstSketch?_cons, hx.firstSketch?_eq_none hroot, hb,
    Option.or_none, Option.bind_some] at hs
  obtain ⟨data', hdata, hs⟩ := Option.map_eq_some_iff.mp hs
  obtain ⟨rfl, rfl⟩ := Prod.mk.inj hs
  exact ⟨rfl, hdata⟩

variable [Analytic R]

/-- A suppressed block has no segment. -/
theorem Suppressed.segment?_eq_none (hn : d.Suppressed n) : d.segment? n = none := by
  rw [segment?, rawSegment?, active?]
  cases hb : d.get? n with
  | none => rfl
  | some b => rw [Option.filter_some, hn b hb]; rfl

/-- What a block contributes depends on the tool that it cuts with, if it cuts, on its placement and
on segments. -/
theorem commands_withTree [Storage R S] [Numeral R]
    (htool : b.kind.cuts = true → (d.withTree u).findTool? x = d.findTool? x)
    (hplace : (d.withTree u).placement x = d.placement x)
    (hsegment : (d.withTree u).segment? x = d.segment? x)
    (hchildren : (d.withTree u).childSegments x = d.childSegments x) (decimals : Nat) :
    (d.withTree u).commands decimals x b = d.commands decimals x b := by
  have hcutting (hb : b.kind.cuts = true) : (d.withTree u).cutting x = d.cutting x := by
    rw [cutting, cutting, htool hb]
    rfl
  rw [Block.kind] at hcutting
  unfold commands
  cases hp : b.payload with
  | line | arc =>
    simp only [segmentCommands, hsegment, hcutting (by rw [hp]; rfl)]
  | sketch | drillHoles | boltHoles =>
    simp only [sketchCommands, drillCommands, boltCommands, hchildren, hcutting (by rw [hp]; rfl)]
  | image => simp only [reliefCommands, hplace, hcutting (by rw [hp]; rfl)]
  | mesh => simp only [meshCommands, hplace, hcutting (by rw [hp]; rfl)]
  | _ => rfl

/-- **A block contributes the same** without a block that is suppressed, unless it cuts with the
tool of that block. -/
theorem commands_pruned [Storage R S] [Numeral R] (h : d.tree.Pruned u n) (hn : d.Suppressed n)
    (hroot : d.tree.owner? d.root = none) (hreaches : d.Reaches x) (hx : u.contains x)
    (hb : d.get? x = some b) (htool : b.kind.cuts = true → d.toolBlock? x ≠ some n)
    (decimals : Nat) : (d.withTree u).commands decimals x b = d.commands decimals x b := by
  have hplace : (d.withTree u).placement x = d.placement x := by
    refine placement_pruned h hx fun s data hs => ?_
    rw [hreaches.firstSketch?_eq_none hroot] at hs
    cases hs
  have hchildren : (d.withTree u).childSegments x = d.childSegments x := by
    refine childSegments_pruned h hx hn.segment?_eq_none fun l hl c hc hleft => ?_
    refine placement_pruned h hleft fun s data hs => ?_
    have hinside : c ∈ d.inside x := by
      rw [inside, hl]
      exact hc
    obtain ⟨rfl, hsketch⟩ := hreaches.eq_of_firstSketch? hroot hb hinside hs
    exact htool (Block.cuts_of_sketch? hsketch)
  exact commands_withTree (fun hcuts => findTool?_pruned h hx (htool hcuts)) hplace
    (segment?_pruned h hx hplace) hchildren decimals

/-! ### Programs -/

section Programs

omit [Analytic R] in
theorem format_erase (d : Document R S) (n : NodeId) (decimals : Option Nat) :
    (d.erase n).format decimals = (d.suppress n).format decimals := by
  obtain ⟨u, hu, -⟩ := d.exists_erase n
  rw [hu]
  rfl

variable [Storage R S] [Numeral R]

/-- **The statements are the same** without a block that is suppressed, unless a block cuts with the
tool of that block. -/
theorem statements_pruned (h : d.tree.Pruned u n) (hn : d.Suppressed n)
    (hroot : d.tree.owner? d.root = none)
    (htool : ∀ p ∈ d.reached, p.2.kind.cuts = true → d.toolBlock? p.1 ≠ some n)
    (f : ProgramFormat) : (d.withTree u).statements f = d.statements f := by
  have hreached := reached_pruned h hn hroot
  rw [statements_eq, statements_eq, hreached]
  refine List.flatMap_congr fun p hp => ?_
  have hleft : u.contains p.1 := by
    rw [← hreached] at hp
    obtain ⟨m, hm, -⟩ := Option.map_eq_some_iff.mp (get?_of_mem_reached hp)
    exact Option.isSome_iff_exists.mpr ⟨m, hm⟩
  rw [own, own, emitBlock, emitBlock, commands_pruned h hn hroot (reaches_of_mem_reached hp) hleft
    (get?_of_mem_reached hp) (htool p hp)]

/-- The statements with a suppressed block are those without the block, unless a block cuts with its
tool. -/
theorem statements_suppress (d : Document R S) (hroot : d.tree.owner? d.root = none) (n : NodeId)
    (htool : ∀ p ∈ (d.suppress n).reached, p.2.kind.cuts = true →
      (d.suppress n).toolBlock? p.1 ≠ some n) (f : ProgramFormat) :
    (d.suppress n).statements f = (d.erase n).statements f := by
  obtain ⟨u, hu, hpruned⟩ := d.exists_erase n
  have hsuppress : (d.suppress n).tree.Pruned u n := hpruned.modify Block.suppress
  have hstatements := statements_pruned hsuppress (d.suppressed_suppress n) hroot htool f
  rw [hu, ← hstatements]
  rfl

/-- **A program with a suppressed block is the program without the block** and everything below it,
unless a block cuts with the tool of the suppressed block. -/
theorem generate_suppress (d : Document R S) (hroot : d.tree.owner? d.root = none) (n : NodeId)
    (htool : ∀ p ∈ (d.suppress n).reached, p.2.kind.cuts = true →
      (d.suppress n).toolBlock? p.1 ≠ some n) (ending : LineEnding) (decimals : Option Nat) :
    ((d.suppress n).generate ending decimals).1 = ((d.erase n).generate ending decimals).1 := by
  rw [generate_eq, generate_eq, format_erase, statements_suppress d hroot n htool]

/-- Some tool changes and behind them a pattern of one drilled hole. -/
def drilledAfter (tools : Nat) : Project :=
  let d : Project := Nat.iterate (fun d => (d.add { payload := Payload.standard .tool }).2) tools
    (Document.new "drilled")
  let (pattern, d) := d.add { payload := Payload.standard .drillHoles }
  (d.push ((d.children? pattern).getD d.root) { payload := Payload.standard .point }).2

/-- The first of two tool changes is suppressed: the hole is drilled with the second. -/
theorem generate_suppress_drilledAfter :
    (drilledAfter 2).tree.owner? (drilledAfter 2).root = none ∧
    (∀ p ∈ ((drilledAfter 2).suppress ⟨0⟩).reached, p.2.kind.cuts = true →
      ((drilledAfter 2).suppress ⟨0⟩).toolBlock? p.1 ≠ some ⟨0⟩) ∧
    (((drilledAfter 2).suppress ⟨0⟩).generate .lf none).1 =
      (((drilledAfter 2).erase ⟨0⟩).generate .lf none).1 := by
  have hroot : (drilledAfter 2).tree.owner? (drilledAfter 2).root = none := by decide +kernel
  have htool : ∀ p ∈ ((drilledAfter 2).suppress ⟨0⟩).reached, p.2.kind.cuts = true →
      ((drilledAfter 2).suppress ⟨0⟩).toolBlock? p.1 ≠ some ⟨0⟩ := by decide +kernel
  exact ⟨hroot, htool, generate_suppress (drilledAfter 2) hroot ⟨0⟩ htool .lf none⟩

/-- **A tool change that is suppressed is not erased**: the hole behind it is drilled with its tool,
and where the tool change is erased there is no program. -/
theorem suppress_ne_erase :
    (((drilledAfter 1).suppress ⟨0⟩).generate .lf none).1 ≠
      (((drilledAfter 1).erase ⟨0⟩).generate .lf none).1 := by
  have herased : (((drilledAfter 1).erase ⟨0⟩).generate .lf none).1 = "" := by decide +kernel
  have hlift : (((drilledAfter 1).suppress ⟨0⟩).statements
      (((drilledAfter 1).suppress ⟨0⟩).format none))[1]? =
        some (.words [Word.g 0, ⟨'Z', "0.10000"⟩]) := by decide +kernel
  rw [herased, generate_eq]
  exact program_ne_empty _ (List.mem_of_getElem? hlift)

end Programs

end Document

end Toolpath
