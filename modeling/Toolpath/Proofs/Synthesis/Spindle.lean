import Toolpath.Project.Record
import Toolpath.Proofs.Document.Scoping
import Toolpath.Proofs.Synthesis.Reaching
import Toolpath.Proofs.Synthesis.Statements

/-!
# The tool in the spindle

A program tells of a tool with a marker for its diameter and with a word `T`, and unless text is
taken over only tool changes do so. The tool in the spindle is that of the last tool change told of,
wherever it stands in the tree. A block is planned with the tool that is found for it, and the
search for that one does not look into the groups that it passes over. So the two are the same
exactly if there is no tool change in any of these groups.

## Main definitions

* `Statement.tellsTool` — statements that tell of a tool
* `Document.Tells` — a block tells of a tool
* `Document.lastChange?` — the last tool change among blocks
* `Document.loaded?` — the last block, before a block, that tells of a tool
* `Document.WrittenInOrder` — the lines of a block in the program, and those before them

## Main results

* `Document.tells_of_tool`, `Document.tellsTool_own` — tool changes tell of their tool, and no
  other block does
* `Document.loaded?_eq` — the last tool change that is told of is the last one in the nearest block
  in scope that has one
* `Document.loaded_iff_of_cuts` — a block that cuts is planned with that one exactly if no group
  that is passed over has a tool change
-/

namespace Toolpath

/-! ### What tells of a tool -/

/-- Whether a statement tells of a tool: a marker for its diameter, or a line with a word `T`. Text
taken over can say anything, and so it counts as well. -/
def Statement.tellsTool : Statement → Bool
  | words ws => ws.any fun w => w.letter == 'T'
  | marker name _ => name == Marker.toolDiameterName
  | verbatim _ => true
  | _ => false

namespace Command

variable {R : Type}

/-- Whether a command is written in statements that tell of a tool. -/
def tellsTool : Command R → Bool
  | codes ws => ws.any fun w => w.letter == 'T'
  | marker name _ => name == Marker.toolDiameterName
  | toolChange _ | verbatim _ => true
  | _ => false

theorem tellsTool_of_isMove {c : Command R} (h : c.isMove = true) : c.tellsTool = false := by
  cases c with
  | codes ws =>
    obtain rfl : ws = [Word.g 80] := of_decide_eq_true h
    rfl
  | toolChange slot => cases h
  | verbatim t => cases h
  | marker name values => cases h
  | _ => rfl

theorem letter_ne_of_motion [Numeral R] {c : Command R} {decimals : Nat} {stated : Option R} :
    ∀ w ∈ c.motionCodes ++ c.numbers.map (fun n => Word.ofScalar decimals n.1 n.2)
      ++ (stated.map (Word.ofScalar decimals 'F')).toList, w.letter ≠ 'T' := by
  intro w hw
  rcases exists_of_mem_motion hw with ⟨n, -, rfl⟩ | ⟨letter, hletter, x, rfl⟩
  · exact (by decide : 'G' ≠ 'T')
  · exact (by simp [letters] : ∀ letter ∈ letters, letter ≠ 'T') letter hletter

section

variable [Scalar R] [Numeral R] {d : Dialect} {decimals : Nat} {modal : Option R}

theorem tellsTool_statements {c : Command R} (h : c.tellsTool = false) :
    ∀ s ∈ c.statements d decimals modal, s.tellsTool = false := by
  have hmotion : (Statement.words (c.motionCodes
      ++ c.numbers.map (fun n => Word.ofScalar decimals n.1 n.2)
      ++ ((c.statedFeed? modal).map (Word.ofScalar decimals 'F')).toList)).tellsTool = false :=
    List.any_eq_false.mpr fun w hw => by simpa using letter_ne_of_motion w hw
  cases c with
  | verbatim t => cases h
  | remark t => exact List.forall_mem_singleton.mpr rfl
  | marker name values => exact List.forall_mem_singleton.mpr h
  | codes ws => exact List.forall_mem_singleton.mpr h
  | programStart n =>
    show ∀ s ∈ d.opening n, s.tellsTool = false
    unfold Dialect.opening
    split
    · exact List.forall_mem_cons.mpr ⟨rfl, List.forall_mem_singleton.mpr rfl⟩
    · exact List.forall_mem_nil _
  | programEnd =>
    show ∀ s ∈ d.closing, s.tellsTool = false
    refine List.forall_mem_cons.mpr ⟨rfl, ?_⟩
    split
    · exact List.forall_mem_singleton.mpr rfl
    · exact List.forall_mem_nil _
  | toolChange slot => cases h
  | _ => exact List.forall_mem_singleton.mpr hmotion

/-- What a command is written as, whatever feed is in effect, is written for a run with it. -/
theorem mem_write {cs : List (Command R)} {c : Command R} {s : Statement} (hc : c ∈ cs)
    (hs : ∀ modal, s ∈ c.statements d decimals modal) : s ∈ write d decimals cs := by
  have hfrom (modal : Option R) : s ∈ writeFrom d decimals modal cs := by
    induction cs generalizing modal with
    | nil => cases hc
    | cons c' cs ih =>
      rw [writeFrom, List.mem_append]
      rcases List.mem_cons.mp hc with rfl | hc
      · exact Or.inl (hs modal)
      · exact Or.inr (ih hc _)
  exact hfrom none

end

end Command

/-! ### What blocks tell -/

namespace Block

variable {R S : Type} {b : Block R S}

theorem tool?_of_isGroup (h : b.kind.isGroup = true) : b.tool? = none :=
  tool?_of_ne fun hkind => by rw [hkind] at h; cases h

theorem tool?_of_cuts (h : b.kind.cuts = true) : b.tool? = none :=
  tool?_of_ne fun hkind => by rw [hkind] at h; cases h

end Block

namespace Document

variable {R S : Type} {d : Document R S} {x t g : NodeId} {b : Block R S} {tool : Tool R}

section Fragments

variable [Analytic R] [Storage R S] [Numeral R] {f : ProgramFormat} {p : NodeId × Block R S}

omit [Analytic R] [Storage R S] in
/-- What a block contributes tells of no tool, unless it is a tool change or text taken over. -/
theorem tellsTool_of_composed {decimals : Nat} {cs : List (Command R)}
    (h : d.Composed decimals b cs) (htool : b.tool? = none) (hcode : b.kind ≠ .code) :
    ∀ c ∈ cs, c.tellsTool = false := by
  cases h with
  | header =>
    simp only [headerCommands, List.forall_mem_cons, List.not_mem_nil, IsEmpty.forall_iff,
      implies_true, and_true]
    refine ⟨rfl, rfl, rfl, rfl, ?_, rfl, rfl, rfl⟩
    cases d.material.units <;> rfl
  | footer =>
    rename_i f hb
    have hretract : ∀ c ∈ (f.retract.map Command.rapid).toList, c.tellsTool = false := by
      cases f.retract with
      | none => exact List.forall_mem_nil _
      | some place => exact List.forall_mem_singleton.mpr rfl
    simp only [footerCommands, List.forall_mem_append, List.forall_mem_cons, List.not_mem_nil,
      IsEmpty.forall_iff, implies_true, and_true]
    exact ⟨⟨⟨rfl, rfl⟩, hretract⟩, rfl, rfl, rfl⟩
  | tool hb =>
    rw [Block.tool?, hb] at htool
    cases htool
  | code hb => exact absurd (congrArg Payload.kind hb) hcode
  | cuts hcs =>
    obtain ⟨rest, rfl, hrest⟩ := hcs
    exact List.forall_mem_cons.mpr ⟨rfl, fun c hc => Command.tellsTool_of_isMove (hrest c hc)⟩
  | nothing => exact List.forall_mem_nil _

/-- The statements of a block tell of a tool: of its diameter, and of the slot that it is in. -/
def Tells (d : Document R S) (f : ProgramFormat) (p : NodeId × Block R S) (tool : Tool R) : Prop :=
  .marker Marker.toolDiameterName [Numeral.coordinate f.decimals tool.diameter] ∈ d.own f p ∧
    .words [Word.ofNat 'T' 1 tool.number.toNat, Word.m 6] ∈ d.own f p

/-- **A tool change tells of its tool.** -/
theorem tells_of_tool (htool : p.2.tool? = some tool) : d.Tells f p tool := by
  have hcommands : d.commands f.decimals p.1 p.2 =
      .ok (d.toolCommands f.decimals p.2.comment tool) := by
    rw [commands, Block.payload_of_tool? htool]
  have hmarker : Command.marker Marker.toolDiameterName [tool.diameter] ∈
      d.toolCommands f.decimals p.2.comment tool := by
    simp [toolCommands]
  have hchange : Command.toolChange tool.number.toNat ∈
      d.toolCommands f.decimals p.2.comment tool := by
    simp [toolCommands]
  rw [Tells, own_of_commands d f hcommands]
  exact ⟨Command.mem_write hmarker fun modal => List.mem_singleton.mpr rfl,
    Command.mem_write hchange fun modal => List.mem_cons_self⟩

/-- **Tool changes tell of a tool, and no other block does**, unless it is text taken over. -/
theorem tellsTool_own (hcode : p.2.kind ≠ .code) :
    (d.own f p).any Statement.tellsTool = p.2.tool?.isSome := by
  cases htool : p.2.tool? with
  | some tool => exact List.any_eq_true.mpr ⟨_, (tells_of_tool htool).1, rfl⟩
  | none =>
    refine List.any_eq_false.mpr fun s hs => ?_
    obtain ⟨cs, hcs⟩ := d.exists_commands_of_own f (List.ne_nil_of_mem hs)
    rw [own_of_commands d f hcs] at hs
    obtain ⟨c, hc, modal, hs⟩ := Command.exists_of_mem_writeFrom hs
    have hquiet := tellsTool_of_composed (composed_of_commands hcs) htool hcode c hc
    simpa using Command.tellsTool_statements hquiet s hs

end Fragments

/-! ### The last tool change -/

/-- The last tool change among blocks. -/
def lastChange? (ps : List (NodeId × Block R S)) : Option NodeId :=
  (ps.filter fun p => p.2.tool?.isSome).getLast?.map Prod.fst

theorem lastChange?_append (ps qs : List (NodeId × Block R S)) :
    lastChange? (ps ++ qs) = (lastChange? qs).or (lastChange? ps) := by
  rw [lastChange?, List.filter_append, List.getLast?_append, Option.map_or]
  rfl

theorem lastChange?_flatMap {α : Type} (branch : α → List (NodeId × Block R S)) (xs : List α) :
    lastChange? (xs.flatMap branch) = xs.reverse.findSome? fun y => lastChange? (branch y) := by
  induction xs with
  | nil => rfl
  | cons y ys ih =>
    rw [List.flatMap_cons, lastChange?_append, ih, List.reverse_cons, List.findSome?_append]
    simp

/-- There is none exactly if none of the blocks is a tool change. -/
theorem lastChange?_eq_none_iff {ps : List (NodeId × Block R S)} :
    lastChange? ps = none ↔ ∀ p ∈ ps, p.2.tool? = none := by
  rw [lastChange?, Option.map_eq_none_iff, List.getLast?_eq_none_iff, List.filter_eq_nil_iff]
  simp

theorem mem_of_lastChange? {ps : List (NodeId × Block R S)} (h : lastChange? ps = some t) :
    t ∈ ps.map Prod.fst := by
  obtain ⟨p, hp, rfl⟩ := Option.map_eq_some_iff.mp h
  exact List.mem_map_of_mem (List.mem_filter.mp (List.mem_of_getLast? hp)).1

/-- From a tool change on only the tool change is reached. -/
theorem reachedFrom_of_tool (hb : d.get? t = some b) (htool : b.tool? = some tool)
    (hactive : b.flags.suppressed = false) : d.reachedFrom t = [(t, b)] := by
  have hfuel : d.tree.links.nodes.nextKey ≠ 0 := by
    obtain ⟨n, hn, -⟩ := Option.map_eq_some_iff.mp hb
    exact Nat.ne_of_gt (Nat.zero_lt_of_lt (Arena.lt_nextKey_of_get? hn))
  obtain ⟨fuel, hfuel⟩ := Nat.exists_eq_succ_of_ne_zero hfuel
  have hgroup : b.kind.isGroup = false := congrArg BlockKind.isGroup (Block.kind_of_tool? htool)
  rw [reachedFrom, hfuel, Nat.succ_eq_add_one, reachedTo_succ, hb]
  simp [hactive, hgroup]

/-! ### The tool in the spindle -/

/-- What is reached up to a block. -/
def reachedBefore (d : Document R S) (x : NodeId) : List (NodeId × Block R S) :=
  d.reached.takeWhile fun p => p.1 != x

section Rooted

variable (hroot : d.tree.owner? d.root = none)

include hroot

/-- What is reached from the blocks in scope is reached in the opposite order. -/
theorem scope_sublist (hx : (x, b) ∈ d.reached) :
    ((d.scope x).reverse.flatMap d.reachedFrom).Sublist d.reached := by
  obtain ⟨later, hlater⟩ := (reaches_of_mem_reached hx).exists_reached_eq hroot
  have hscope : (d.scope x).reverse =
      (d.tree.ancestors x).reverse.flatMap d.tree.preceding ++ d.tree.preceding x := by
    simp [scope, List.reverse_flatMap, Function.comp_def]
  have hearlier : ((d.scope x).reverse.flatMap d.reachedFrom).Sublist (d.earlier x) := by
    rw [hscope, List.flatMap_append, List.flatMap_assoc, earlier]
    exact (List.Sublist.flatMap_right _ fun a _ => List.sublist_append_left _ _).append
      (List.Sublist.refl _)
  rw [hlater, List.append_assoc]
  exact hearlier.trans (List.sublist_append_left _ _)

/-- **The last tool change before a block** is the last one in the nearest block in scope that has
one. -/
theorem lastChange?_earlier (hx : d.Reaches x) :
    lastChange? (d.earlier x) = (d.scope x).findSome? fun g => lastChange? (d.reachedFrom g) := by
  rw [earlier, lastChange?_append, lastChange?_flatMap, lastChange?_flatMap, List.reverse_reverse,
    scope, List.flatMap_cons, List.findSome?_append, findSome?_flatMap]
  refine congrArg _ (findSome?_congr fun a ha => ?_)
  -- the blocks around a block are groups, and so no tool changes
  obtain ⟨c, hc, hgroup⟩ := hx.group_of_mem_ancestors hroot ha
  have hentry : lastChange? (d.entry a) = none := by
    rw [entry, hc]
    exact lastChange?_eq_none_iff.mpr
      (List.forall_mem_singleton.mpr (Block.tool?_of_isGroup hgroup))
  rw [lastChange?_append, hentry, Option.none_or, lastChange?_flatMap]

/-- What is reached up to a block are the earlier blocks. -/
theorem reachedBefore_eq (hx : (x, b) ∈ d.reached) : d.reachedBefore x = d.earlier x := by
  obtain ⟨before, after, hreached⟩ := List.append_of_mem hx
  have hnodup := d.nodup_reached hroot
  rw [hreached, List.map_append, List.map_cons, List.nodup_middle, List.nodup_cons] at hnodup
  have hbefore : ∀ p ∈ before, (p.1 != x) = true := by
    intro p hp
    have hname : p.1 ∈ before.map Prod.fst := List.mem_map_of_mem hp
    have hne : p.1 ≠ x := fun he => hnodup.1 (List.mem_append_left _ (he ▸ hname))
    simpa using hne
  rw [← reached_eq hroot hreached, reachedBefore, hreached, List.takeWhile_append_of_pos hbefore]
  simp

/-- What is reached is what is reached up to a block, the block, and what is reached later. -/
theorem exists_reachedBefore (hx : (x, b) ∈ d.reached) :
    ∃ later, d.reached = d.reachedBefore x ++ (x, b) :: later := by
  obtain ⟨before, later, hreached⟩ := List.append_of_mem hx
  refine ⟨later, ?_⟩
  rw [reachedBefore_eq hroot hx, ← reached_eq hroot hreached]
  exact hreached

/-- A tool change in scope is reached once: not from a block that is passed over. -/
theorem notMem_reachedFrom_of_passed (hx : (x, b) ∈ d.reached) (ht : d.toolBlock? x = some t)
    {c : Block R S} (hself : d.reachedFrom t = [(t, c)]) (hg : g ∈ d.passed x) :
    t ∉ (d.reachedFrom g).map Prod.fst := by
  have hnodup := (d.nodup_reached hroot).sublist ((scope_sublist hroot hx).map Prod.fst)
  rw [List.map_flatMap, List.nodup_flatMap, List.pairwise_reverse] at hnodup
  obtain ⟨rest, hscope⟩ := exists_scope_eq ht
  rw [hscope, List.pairwise_append] at hnodup
  have hdisjoint : List.Disjoint ((d.reachedFrom t).map Prod.fst)
      ((d.reachedFrom g).map Prod.fst) := hnodup.2.2.2 g hg t List.mem_cons_self
  rw [hself] at hdisjoint
  exact fun hmem => hdisjoint (List.mem_singleton.mpr rfl) hmem

section Programs

variable [Analytic R] [Storage R S] [Numeral R] (f : ProgramFormat)

/-- The last block before a block whose statements tell of a tool. -/
def loaded? (d : Document R S) (f : ProgramFormat) (x : NodeId) : Option NodeId :=
  ((d.reachedBefore x).filter fun p =>
    (d.own f p).any Statement.tellsTool).getLast?.map Prod.fst

/-- In every program of a document the lines of a block stand behind those of what is reached up to
it, and there are only lines of blocks that are reached. -/
def WrittenInOrder (d : Document R S) (p : NodeId × Block R S) : Prop :=
  ∃ later : List (NodeId × Block R S), d.reached = d.reachedBefore p.1 ++ p :: later ∧
    ∀ ending decimals, Text.lines (d.generate ending decimals).1.toList =
      (d.reachedBefore p.1).flatMap (d.ownLines (d.format decimals)) ++
        (d.ownLines (d.format decimals) p ++ later.flatMap (d.ownLines (d.format decimals)))

/-- **The last tool change that is told of** before a block is the last one in the nearest block in
scope that has one. -/
theorem loaded?_eq (hcode : ∀ p ∈ d.reached, p.2.kind ≠ .code) (hx : (x, b) ∈ d.reached) :
    d.loaded? f x = (d.scope x).findSome? fun g => lastChange? (d.reachedFrom g) := by
  have htells : (d.earlier x).filter (fun p => (d.own f p).any Statement.tellsTool) =
      (d.earlier x).filter fun p => p.2.tool?.isSome := by
    refine List.filter_congr fun p hp => ?_
    rw [← reachedBefore_eq hroot hx] at hp
    exact tellsTool_own (hcode p ((List.takeWhile_sublist _).subset hp))
  rw [loaded?, reachedBefore_eq hroot hx, htells,
    ← lastChange?_earlier hroot (reaches_of_mem_reached hx), lastChange?]

/-- The tool change that the search finds is the last that is told of exactly if there is none in
the blocks that the search passes over. -/
theorem loaded?_eq_some_iff (hcode : ∀ p ∈ d.reached, p.2.kind ≠ .code) (hx : (x, b) ∈ d.reached)
    (ht : d.toolBlock? x = some t) {c : Block R S} (hself : d.reachedFrom t = [(t, c)])
    (htool : c.tool? = some tool) :
    d.loaded? f x = some t ↔ ∀ g ∈ d.passed x, ∀ p ∈ d.reachedFrom g, p.2.tool? = none := by
  have hlast : lastChange? (d.reachedFrom t) = some t := by
    rw [hself, lastChange?]
    simp [htool]
  obtain ⟨rest, hscope⟩ := exists_scope_eq ht
  rw [loaded?_eq hroot f hcode hx, hscope, List.findSome?_append, List.findSome?_cons, hlast]
  constructor
  · intro hloaded g hg
    cases hpassed : (d.passed x).findSome? fun g => lastChange? (d.reachedFrom g) with
    | none => exact lastChange?_eq_none_iff.mp (List.findSome?_eq_none_iff.mp hpassed g hg)
    | some t' =>
      -- the tool change would be reached from a block that is passed over, and on its own again
      rw [hpassed] at hloaded
      obtain rfl := Option.some.inj hloaded
      obtain ⟨g', hg', hmem⟩ := List.exists_of_findSome?_eq_some hpassed
      exact absurd (mem_of_lastChange? hmem)
        (notMem_reachedFrom_of_passed hroot hx ht hself hg')
  · intro hnone
    rw [List.findSome?_eq_none_iff.mpr fun g hg => lastChange?_eq_none_iff.mpr (hnone g hg)]
    rfl

theorem writtenInOrder_of_mem_reached (hx : (x, b) ∈ d.reached) : d.WrittenInOrder (x, b) := by
  obtain ⟨later, hlater⟩ := exists_reachedBefore hroot hx
  refine ⟨later, hlater, fun ending decimals => ?_⟩
  rw [← List.flatMap_cons, ← List.flatMap_append, ← hlater, lines_generate]

/-- **The tool that a block is planned with is in the spindle** exactly if no group that the search
for it passes over has a tool change: behind the tool change that is found, up to the moves of the
block, nothing tells of a tool. In the program the lines of the block stand behind those of what is
reached up to it. -/
theorem loaded_iff_of_cuts (hplain : ∀ y c, d.get? y = some c →
      c.flags.suppressed = false ∧ c.kind ≠ .code)
    (hx : (x, b) ∈ d.reached) (hcuts : b.kind.cuts = true) (hown : d.own f (x, b) ≠ []) :
    ∃ t c tool, d.toolBlock? x = some t ∧ d.findTool? x = some tool ∧
      (t, c) ∈ d.reached ∧ c.tool? = some tool ∧ d.Tells f (t, c) tool ∧
      (∀ s ∈ d.own f (x, b), s.tellsTool = false) ∧
      (d.loaded? f x = some t ↔ ∀ g ∈ d.passed x, ∀ p ∈ d.reachedFrom g, p.2.tool? = none) ∧
      d.WrittenInOrder (x, b) := by
  have hcode : ∀ p ∈ d.reached, p.2.kind ≠ .code := fun p hp =>
    (hplain p.1 p.2 (get?_of_mem_reached hp)).2
  obtain ⟨cs, hcs⟩ := d.exists_commands_of_own f hown
  obtain ⟨tool, hfound⟩ := exists_tool_of_cuts hcs hcuts
  obtain ⟨t, ht, htool⟩ := exists_of_findTool? hfound
  obtain ⟨c, hc, htool⟩ := Option.bind_eq_some_iff.mp htool
  have hself := reachedFrom_of_tool hc htool (hplain t c hc).1
  have hreached : (t, c) ∈ d.reached := by
    refine (scope_sublist hroot hx).subset (List.mem_flatMap.mpr ⟨t, ?_, ?_⟩)
    · exact List.mem_reverse.mpr (List.mem_of_find?_eq_some ht)
    · exact hself ▸ List.mem_singleton.mpr rfl
  have hquiet : ∀ s ∈ d.own f (x, b), s.tellsTool = false := by
    have htells := tellsTool_own (d := d) (f := f) (hcode (x, b) hx)
    rw [Block.tool?_of_cuts hcuts] at htells
    simpa using List.any_eq_false.mp htells
  exact ⟨t, c, tool, ht, hfound, hreached, htool, tells_of_tool htool, hquiet,
    loaded?_eq_some_iff hroot f hcode hx ht hself htool,
    writtenInOrder_of_mem_reached hroot hx⟩

end Programs

end Rooted

/-- What can be told of every block is decided block by block. -/
theorem forall_get?_iff {P : Block R S → Prop} : (∀ y c, d.get? y = some c → P c) ↔
    ∀ k < d.tree.links.nodes.nextKey, ∀ c ∈ d.get? ⟨k⟩, P c := by
  refine ⟨fun h k _ c hc => h ⟨k⟩ c hc, fun h y c hc => ?_⟩
  obtain ⟨n, hn, -⟩ := Option.map_eq_some_iff.mp hc
  exact h y.key (Arena.lt_nextKey_of_get? hn) c hc

/-- A change to tool 1, a template with some changes to tool 2 in it, and behind it a pattern of one
drilled hole. -/
def drilledBehind (tools : Nat) : Project :=
  let d : Project := ((Document.new "drilled").add { payload := Payload.standard .tool }).2
  let (group, d) := d.add { payload := Payload.standard .template }
  let second : StoredBlock := { payload := .tool { Tool.standard with number := 2 } }
  let d := Nat.iterate (fun d => (d.push ((d.children? group).getD d.root) second).2) tools d
  let (pattern, d) := d.add { payload := Payload.standard .drillHoles }
  (d.push ((d.children? pattern).getD d.root) { payload := Payload.standard .point }).2

/-- The hole behind a template without tool changes is drilled with the tool in the spindle. -/
theorem loaded_iff_of_cuts_drilledBehind :
    (drilledBehind 0).tree.owner? (drilledBehind 0).root = none ∧
    (∀ y c, (drilledBehind 0).get? y = some c →
      c.flags.suppressed = false ∧ c.kind ≠ .code) ∧
    (⟨2⟩, { payload := Payload.standard .drillHoles }) ∈ (drilledBehind 0).reached ∧
    (drilledBehind 0).own ((drilledBehind 0).format none)
      (⟨2⟩, { payload := Payload.standard .drillHoles }) ≠ [] ∧
    (drilledBehind 0).toolBlock? ⟨2⟩ = some ⟨0⟩ ∧
    (drilledBehind 0).loaded? ((drilledBehind 0).format none) ⟨2⟩ = some ⟨0⟩ ∧
    (drilledBehind 0).WrittenInOrder (⟨2⟩, { payload := Payload.standard .drillHoles }) := by
  have hroot : (drilledBehind 0).tree.owner? (drilledBehind 0).root = none := by decide +kernel
  have hplain : ∀ y c, (drilledBehind 0).get? y = some c →
      c.flags.suppressed = false ∧ c.kind ≠ .code := forall_get?_iff.mpr (by decide +kernel)
  have hx : (⟨2⟩, { payload := Payload.standard .drillHoles }) ∈ (drilledBehind 0).reached := by
    decide +kernel
  have hown : (drilledBehind 0).own ((drilledBehind 0).format none)
      (⟨2⟩, { payload := Payload.standard .drillHoles }) ≠ [] := by decide +kernel
  have htool : (drilledBehind 0).toolBlock? ⟨2⟩ = some ⟨0⟩ := by decide +kernel
  obtain ⟨t, -, -, ht, -, -, -, -, -, hiff, hwritten⟩ :=
    loaded_iff_of_cuts hroot _ hplain hx rfl hown
  obtain rfl := Option.some.inj (htool.symm.trans ht)
  exact ⟨hroot, hplain, hx, hown, htool, hiff.mpr (by decide +kernel), hwritten⟩

/-- **A template changes the tool for what is behind it**: the hole is planned with tool 1, from
before the template, and tool 2, from inside it, is in the spindle. -/
theorem loaded_ne_toolBlock :
    (drilledBehind 1).tree.owner? (drilledBehind 1).root = none ∧
    (∀ y c, (drilledBehind 1).get? y = some c →
      c.flags.suppressed = false ∧ c.kind ≠ .code) ∧
    (⟨3⟩, { payload := Payload.standard .drillHoles }) ∈ (drilledBehind 1).reached ∧
    (drilledBehind 1).own ((drilledBehind 1).format none)
      (⟨3⟩, { payload := Payload.standard .drillHoles }) ≠ [] ∧
    (drilledBehind 1).toolBlock? ⟨3⟩ = some ⟨0⟩ ∧
    ((drilledBehind 1).findTool? ⟨3⟩).map Tool.number = some 1 ∧
    (drilledBehind 1).loaded? ((drilledBehind 1).format none) ⟨3⟩ = some ⟨2⟩ ∧
    ((drilledBehind 1).tool? ⟨2⟩).map Tool.number = some 2 ∧
    (drilledBehind 1).WrittenInOrder (⟨3⟩, { payload := Payload.standard .drillHoles }) := by
  have hroot : (drilledBehind 1).tree.owner? (drilledBehind 1).root = none := by decide +kernel
  have hx : (⟨3⟩, { payload := Payload.standard .drillHoles }) ∈ (drilledBehind 1).reached := by
    decide +kernel
  have hplain : ∀ y c, (drilledBehind 1).get? y = some c →
      c.flags.suppressed = false ∧ c.kind ≠ .code := forall_get?_iff.mpr (by decide +kernel)
  exact ⟨hroot, hplain, hx, by decide +kernel, by decide +kernel, by decide +kernel,
    by decide +kernel, by decide +kernel, writtenInOrder_of_mem_reached hroot hx⟩

end Document

end Toolpath
