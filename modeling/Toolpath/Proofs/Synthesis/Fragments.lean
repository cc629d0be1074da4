import Toolpath.Proofs.Synthesis.Programs

/-!
# Fragments

A program is made of the fragments of the blocks that synthesis reaches: those of the top level and,
behind a group, those in its list of children, as far as they are not suppressed. They stand in the
order in which the blocks are walked, so what is said of a program block by block is said of all its
lines.

## Main definitions

* `Branch.reached`, `Document.reached` — the blocks that synthesis reaches, in order
* `Document.own` — the statements of a block itself
* `Document.ownLines` — the lines of a block itself

## Main results

* `Document.statements_eq` — the statements of a program, block by block
* `Document.lines_generate` — the lines of a program, block by block
* `Document.get?_of_mem_reached` — what is reached is a block of the document
-/

namespace Toolpath

namespace Branch

variable {R S : Type}

mutual

/-- The blocks of a branch that synthesis reaches, in the order of their statements. -/
def reached : Branch (NodeId × Block R S) → List (NodeId × Block R S)
  | node (id, b) lists =>
    if b.flags.suppressed then []
    else (id, b) :: if b.kind.isGroup then reachedOfLists lists else []

/-- `reached` over the first of some lists. -/
def reachedOfLists : List (List (Branch (NodeId × Block R S))) → List (NodeId × Block R S)
  | [] => []
  | l :: _ => reachedOfForest l

/-- `reached` over a list. -/
def reachedOfForest : List (Branch (NodeId × Block R S)) → List (NodeId × Block R S)
  | [] => []
  | b :: bs => reached b ++ reachedOfForest bs

end

@[simp] theorem reachedOfForest_eq_flatMap (bs : List (Branch (NodeId × Block R S))) :
    reachedOfForest bs = bs.flatMap reached := by
  induction bs with
  | nil => rfl
  | cons b bs ih => rw [reachedOfForest, ih, List.flatMap_cons]

@[simp] theorem reachedOfLists_eq_flatMap (ls : List (List (Branch (NodeId × Block R S)))) :
    reachedOfLists ls = (ls.headD []).flatMap reached := by
  cases ls with
  | nil => rfl
  | cons l ls => rw [reachedOfLists, reachedOfForest_eq_flatMap, List.headD_cons]

theorem reached_node (id : NodeId) (b : Block R S)
    (ls : List (List (Branch (NodeId × Block R S)))) :
    reached (node (id, b) ls) =
      if b.flags.suppressed then []
      else (id, b) :: if b.kind.isGroup then (ls.headD []).flatMap reached else [] := by
  rw [reached, reachedOfLists_eq_flatMap]

/-- What is reached is in the branch, in the same order. -/
theorem reached_sublist (br : Branch (NodeId × Block R S)) : br.reached.Sublist br.labels := by
  induction br using Branch.forall_of_step with
  | h label lists ih =>
    obtain ⟨id, b⟩ := label
    rw [reached_node, labels_node]
    split
    · exact List.nil_sublist _
    · refine List.Sublist.cons_cons _ ?_
      split
      · cases lists with
        | nil => exact List.nil_sublist _
        | cons l rest =>
          have hfirst : (l.flatMap reached).Sublist (l.flatMap labels) :=
            List.Sublist.flatMap_right l (ih l List.mem_cons_self)
          rw [List.headD_cons, List.flatMap_cons]
          exact hfirst.trans (List.sublist_append_left _ _)
      · exact List.nil_sublist _

end Branch

namespace Document

variable {R S : Type}

/-- The blocks that synthesis reaches, in the order of their statements. -/
def reached (d : Document R S) : List (NodeId × Block R S) :=
  (d.tree.forest d.root).flatMap Branch.reached

theorem get?_of_mem_reached {d : Document R S} {p : NodeId × Block R S} (h : p ∈ d.reached) :
    d.get? p.1 = some p.2 := by
  obtain ⟨br, hbr, hp⟩ := List.mem_flatMap.mp h
  obtain ⟨x, -, hx⟩ := List.mem_filterMap.mp hbr
  exact Tree.get?_of_mem_labels hx (br.reached_sublist.subset hp)

variable [Analytic R] [Storage R S] [Numeral R] (d : Document R S) (f : ProgramFormat)

/-- The statements of a block itself, without those of its children. -/
def own (p : NodeId × Block R S) : List Statement := (d.emitBlock f p.1 p.2).statements

/-- The lines of a block itself, without those of its children. -/
def ownLines (p : NodeId × Block R S) : List (List Char) :=
  Text.lines (Statement.program f.dialect (d.own f p)).toList

theorem own_of_commands {p : NodeId × Block R S} {cs : List (Command R)}
    (h : d.commands f.decimals p.1 p.2 = .ok cs) :
    d.own f p = Command.write f.dialect f.decimals cs := by
  rw [own, emitBlock, h]

/-- A block that is refused has no lines of its own. -/
theorem ownLines_of_error {p : NodeId × Block R S} {e : SynthesisError}
    (h : d.commands f.decimals p.1 p.2 = .error e) : d.ownLines f p = [] := by
  rw [ownLines, own, emitBlock, h]
  rfl

/-- Only a block that is not refused has statements of its own. -/
theorem exists_commands_of_own {p : NodeId × Block R S} (h : d.own f p ≠ []) :
    ∃ cs, d.commands f.decimals p.1 p.2 = .ok cs := by
  cases hc : d.commands f.decimals p.1 p.2 with
  | ok cs => exact ⟨cs, rfl⟩
  | error e =>
    rw [own, emitBlock, hc] at h
    exact absurd rfl h

/-- A program with a line of words is not empty. -/
theorem program_ne_empty (dialect : Dialect) {ws : List Word} {ss : List Statement}
    (h : .words ws ∈ ss) : Statement.program dialect ss ≠ "" := by
  intro hempty
  have hfeed : '\n' ∈ (Statement.program dialect ss).toList := by
    rw [Statement.program, String.toList_join]
    refine List.mem_flatMap.mpr ⟨_, List.mem_map_of_mem h, ?_⟩
    simp [Statement.text, Statement.wordsLine]
  rw [hempty] at hfeed
  cases hfeed

variable {d f} in
/-- What a block yields that is no group. -/
theorem outcome_of_not_isGroup {x : NodeId} {b : Block R S} (hb : d.get? x = some b)
    (hgroup : b.kind.isGroup = false) :
    d.outcome f x = if b.flags.suppressed then ⟨[], [(x, none)]⟩ else d.emitBlock f x b := by
  obtain ⟨n, hn, rfl⟩ := Option.map_eq_some_iff.mp hb
  have hnode : d.tree.node? x = some n := hn
  obtain ⟨fuel, hfuel⟩ : ∃ fuel, d.tree.links.nodes.nextKey = fuel + 1 :=
    Nat.exists_eq_succ_of_ne_zero (Nat.ne_zero_of_lt (Arena.lt_nextKey_of_get? hn))
  rw [outcome, Tree.branch?, hfuel, Tree.branchTo, hnode, Option.map_some]
  dsimp only
  rw [emit, if_neg (Bool.eq_false_iff.mp hgroup)]

variable {d f} in
/-- A fragment that is not empty is that of a block that is not refused. -/
theorem exists_commands_of_written {x : NodeId} {b : Block R S} (hb : d.get? x = some b)
    (hgroup : b.kind.isGroup = false) (h : d.written f x ≠ "") :
    ∃ cs, d.commands f.decimals x b = .ok cs ∧
      d.written f x = Statement.program f.dialect (Command.write f.dialect f.decimals cs) := by
  rw [written, outcome_of_not_isGroup hb hgroup] at h ⊢
  split
  · rename_i hsuppressed
    rw [if_pos hsuppressed] at h
    exact absurd rfl h
  · rename_i hactive
    rw [if_neg hactive] at h
    obtain ⟨cs, hcs⟩ := d.exists_commands_of_own f (p := (x, b)) fun hnone => by
      rw [own] at hnone
      rw [hnone] at h
      exact h rfl
    exact ⟨cs, hcs, congrArg _ (d.own_of_commands f (p := (x, b)) hcs)⟩

theorem statements_emit (br : Branch (NodeId × Block R S)) :
    (d.emit f br).statements = br.reached.flatMap (d.own f) := by
  induction br using Branch.forall_of_step with
  | h label lists ih =>
    obtain ⟨id, b⟩ := label
    rw [Branch.reached_node, emit]
    split
    · rfl
    · split
      · have hbelow : (d.emitLists f lists).statements =
            ((lists.headD []).flatMap Branch.reached).flatMap (d.own f) := by
          cases lists with
          | nil => rfl
          | cons l rest =>
            rw [emitLists, statements_emitForest, List.headD_cons, List.flatMap_assoc]
            exact List.flatMap_congr fun c hc => ih l List.mem_cons_self c hc
        rw [List.flatMap_cons, ← hbelow]
        rfl
      · rw [List.flatMap_cons, List.flatMap_nil, List.append_nil]
        rfl

/-- **The statements of a program**, block by block. -/
theorem statements_eq : d.statements f = d.reached.flatMap (d.own f) := by
  rw [statements, emissions, List.flatMap_map, reached, List.flatMap_assoc]
  exact List.flatMap_congr fun br _ => d.statements_emit f br

/-- **The lines of a program**, block by block, however they end. -/
theorem lines_generate (ending : LineEnding) (decimals : Option Nat) :
    Text.lines (d.generate ending decimals).1.toList =
      d.reached.flatMap (d.ownLines (d.format decimals)) := by
  have hfound := d.found_generate (fun l => [l]) ending decimals
  rw [Statement.found, List.flatMap_singleton', Statement.found_program, statements_eq,
    List.flatMap_assoc] at hfound
  rw [hfound]
  refine List.flatMap_congr fun p _ => ?_
  rw [← Statement.found_program, Statement.found, List.flatMap_singleton']
  rfl

end Document

end Toolpath
