import Toolpath.Proofs.Synthesis.Commands
import Toolpath.Proofs.Synthesis.Composition
import Toolpath.Proofs.Tree.Subtrees
import Toolpath.Synthesis.Program

/-!
# Programs without their remarks

A program is the statements of its blocks, and whoever reads it line by line finds in it what there
is in the statements, however its lines end. The statements of a mute document are those of the
document, remarks excepted. So two documents that differ in free texts have programs that differ in
remarks, and a reader who finds nothing in remarks finds the same in both.

## Main definitions

* `Document.statements` — the statements of a program

## Main results

* `Document.generate_eq` — a program is the text of its statements
* `Document.found_generate` — what is found in a program is found in its statements
* `Document.spoken_statements_mute` — the statements of a mute document
* `Document.remark_of_statements` — what is remarked in a program
-/

namespace Toolpath

namespace Emission

/-- The outcome without the remarks. -/
def spoken (e : Emission) : Emission := ⟨Statement.spoken e.statements, e.verdicts⟩

end Emission

namespace Document

variable {R S : Type} [Analytic R] [Storage R S] [Numeral R] (d : Document R S)
  (f : ProgramFormat)

/-- The blocks of the top level with their outcomes. -/
def emissions (d : Document R S) (f : ProgramFormat) : List (NodeId × Emission) :=
  (d.tree.forest d.root).map fun b => (b.label.1, d.emit f b)

/-- The statements of the program of a document. -/
def statements : List Statement := (d.emissions f).flatMap fun o => o.2.statements

/-- The statements of a program are those of its blocks. -/
theorem statements_eq_flatMap :
    d.statements f = (d.tree.members d.root).flatMap fun id => (d.outcome f id).statements := by
  rw [statements, emissions, List.flatMap_map, Tree.forest, Tree.flatMap_filterMap]
  refine List.flatMap_congr fun id _ => ?_
  rw [outcome]
  cases d.tree.branch? id <;> rfl

/-- **A program is the text of its statements**, with its lines ended. -/
theorem generate_eq (ending : LineEnding) (decimals : Option Nat) :
    (d.generate ending decimals).1 = ending.apply (Statement.program
      (d.format decimals).dialect (d.statements (d.format decimals))) := by
  let ids := d.tree.members d.root
  have hjoin : Statement.program (d.format decimals).dialect (d.statements (d.format decimals)) =
      String.join (ids.map (d.written (d.format decimals))) := by
    refine String.toList_inj.mp ?_
    simp only [Statement.program, statements_eq_flatMap, ids, written, String.toList_join,
      List.flatMap_map, List.flatMap_assoc]
  have hwhole : ∀ t ∈ ids.map (d.written (d.format decimals)), Text.Whole t.toList := by
    intro t ht
    obtain ⟨id, -, rfl⟩ := List.mem_map.mp ht
    exact Statement.whole_program _ _
  rw [hjoin, ending.apply_join hwhole, generate_fst, List.map_map]
  rfl

/-- **What is found in a program** is found in its statements, however its lines end. -/
theorem found_generate {γ : Type} (φ : List Char → List γ) (ending : LineEnding)
    (decimals : Option Nat) :
    Statement.found φ (d.generate ending decimals).1 =
      Statement.found φ (Statement.program (d.format decimals).dialect
        (d.statements (d.format decimals))) := by
  rw [generate_eq, Statement.found, LineEnding.lines_apply]
  rfl

/-! ### The statements of a mute document -/

theorem emitBlock_mute (id : NodeId) (b : Block R S) :
    (d.mute.emitBlock f id b.mute).spoken = (d.emitBlock f id b).spoken := by
  have hcommands := d.commands_mute f.decimals id b
  unfold emitBlock
  cases hm : d.mute.commands f.decimals id b.mute with
  | error e =>
    cases hc : d.commands f.decimals id b with
    | error e' =>
      rw [hm, hc] at hcommands
      cases hcommands
      rfl
    | ok cs => rw [hm, hc] at hcommands; cases hcommands
  | ok cs =>
    cases hc : d.commands f.decimals id b with
    | error e => rw [hm, hc] at hcommands; cases hcommands
    | ok cs' =>
      rw [hm, hc] at hcommands
      have hspoken : Command.spoken cs = Command.spoken cs' := Except.ok.inj hcommands
      simp only [Emission.spoken, Command.spoken_write, hspoken]

/-- **The outcome for a mute document**, remarks excepted, is that for the document. -/
theorem emit_mute (br : Branch (NodeId × Block R S)) :
    (d.mute.emit f (br.map (Prod.map id Block.mute))).spoken = (d.emit f br).spoken :=
  emit_relabel Block.flags_mute Block.kind_mute (d.emitBlock_mute f) br

/-- **The statements of a mute document** are those of the document, remarks excepted. -/
theorem spoken_statements_mute :
    Statement.spoken (d.mute.statements f) = Statement.spoken (d.statements f) := by
  have hforest : d.mute.tree.forest d.mute.root = (d.tree.forest d.root).map _ :=
    Tree.forest_relabel Block.mute d.tree d.root
  unfold statements emissions
  rw [hforest]
  simp only [Statement.spoken, List.filter_flatMap, List.flatMap_map]
  refine List.flatMap_congr fun br _ => ?_
  exact congrArg Emission.statements (d.emit_mute f br)

/-! ### What is remarked in a program -/

variable {d} {f}

theorem statements_emitForest (bs : List (Branch (NodeId × Block R S))) :
    (d.emitForest f bs).statements = bs.flatMap fun br => (d.emit f br).statements := by
  induction bs with
  | nil => rfl
  | cons br rest ih => rw [emitForest, Emission.statements_append, ih, List.flatMap_cons]

theorem exists_of_mem_emit {br : Branch (NodeId × Block R S)} {s : Statement}
    (h : s ∈ (d.emit f br).statements) :
    ∃ x b, (x, b) ∈ br.labels ∧ s ∈ (d.emitBlock f x b).statements := by
  induction br using Branch.forall_of_step with
  | h label lists ih =>
    obtain ⟨x, b⟩ := label
    have hself : (x, b) ∈ (Branch.node (x, b) lists).labels := Branch.self_mem_labels ..
    rw [emit] at h
    split at h
    · cases h
    · split at h
      · rcases List.mem_append.mp h with h | h
        · exact ⟨x, b, hself, h⟩
        · cases lists with
          | nil => cases h
          | cons l rest =>
            rw [emitLists, statements_emitForest] at h
            obtain ⟨c, hc, hs⟩ := List.mem_flatMap.mp h
            obtain ⟨y, a, hy, hs⟩ := ih l List.mem_cons_self c hc hs
            exact ⟨y, a, Branch.mem_labels_of_mem List.mem_cons_self hc hy, hs⟩
      · exact ⟨x, b, hself, h⟩

/-- **What is remarked in a program** is remarked by a block of the document. -/
theorem remark_of_statements {t : String} (h : .remark t ∈ d.statements f) :
    ∃ id b, d.get? id = some b ∧ d.Remarks f.decimals b t := by
  obtain ⟨o, ho, ht⟩ := List.mem_flatMap.mp h
  obtain ⟨br, hbr, rfl⟩ := List.mem_map.mp ho
  obtain ⟨x, b, hx, ht⟩ := exists_of_mem_emit ht
  obtain ⟨y, -, hy⟩ := List.mem_filterMap.mp hbr
  refine ⟨x, b, Tree.get?_of_mem_labels hy hx, ?_⟩
  unfold emitBlock at ht
  split at ht
  · rename_i cs hcs
    exact remark_of_commands hcs (Command.remark_of_mem_writeFrom ht)
  · cases ht

end Document

end Toolpath
