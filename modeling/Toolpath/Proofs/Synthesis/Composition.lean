import Toolpath.Proofs.Document.Freshness
import Toolpath.Proofs.Tree.Subtrees
import Toolpath.Synthesis.Program

/-!
# Programs, block by block

A synthesis visits the blocks of the top level and changes the document between two visits. No
command depends on what it leaves there, so a block yields in the document as it is being changed
what it yields in the document as it was. A whole synthesis is then two sequences of changes that
are known beforehand: the program texts and the statuses.

Whoever synthesizes once more makes the same changes again, and finds them made: every block of the
top level bears its own program text, and the verdicts on a block agree, since they depend on the
block alone.

## Main definitions

* `Emission.keeping` — an outcome with some of its statements
* `Document.texts`, `Document.verdicts` — the changes that a synthesis makes
* `Document.verdictOn` — the verdict on a block
* `Document.Compositional` — a program comes from its blocks, one by one

## Main results

* `Document.emit_relabel` — outcomes agree if those of the blocks themselves do
* `Document.outcome_of_fresh_eq` — what a synthesis left has no part in what a block yields
* `Document.Underway.foldl_visit` — visiting blocks one after the other
* `Document.eq_of_mem_verdicts` — the verdicts on a block agree
* `Document.compositional_generate` — a synthesis is compositional and may be repeated
-/

namespace Toolpath

namespace Emission

/-- The outcome with some of its statements only. -/
def keeping (p : Statement → Bool) (e : Emission) : Emission := ⟨e.statements.filter p, e.verdicts⟩

variable (p : Statement → Bool)

theorem keeping_append (a b : Emission) : (a ++ b).keeping p = a.keeping p ++ b.keeping p :=
  congrArg (mk · (a.verdicts ++ b.verdicts)) (List.filter_append ..)

/-- The outcome for a group, from its own and that for what is below it. -/
theorem keeping_group (own below : Emission) :
    keeping p ⟨own.statements ++ below.statements, below.verdicts ++ own.verdicts⟩ =
      ⟨(own.keeping p).statements ++ (below.keeping p).statements,
        (below.keeping p).verdicts ++ (own.keeping p).verdicts⟩ :=
  congrArg (mk · (below.verdicts ++ own.verdicts)) (List.filter_append ..)

end Emission

namespace Document

variable {R S : Type}

/-! ### What is left on a block -/

section Leaving

variable (d : Document R S)

theorem fresh_leaveCode (c : NodeId × String) : (d.leaveCode c).fresh = d.fresh := by
  rw [leaveCode, fresh_modify]
  exact fun _ => rfl

theorem fresh_leaveStatus (v : NodeId × Option SynthesisError) :
    (d.leaveStatus v).fresh = d.fresh := by
  rw [leaveStatus, fresh_modify]
  exact fun _ => rfl

theorem bears_leaveCode (x : NodeId) (code : String) :
    (d.leaveCode (x, code)).Bears x fun b => b.code = code :=
  d.bears_modify fun _ => rfl

theorem bears_leaveStatus (x : NodeId) (v : Option SynthesisError) :
    (d.leaveStatus (x, v)).Bears x fun b => b.status = statusOf v :=
  d.bears_modify fun _ => rfl

variable {d}

theorem leaveCode_eq_self {x : NodeId} {code : String}
    (h : d.Bears x fun b => b.code = code) : d.leaveCode (x, code) = d := by
  refine modify_eq_self fun b hb => ?_
  exact congrArg (fun code => { b with code }) (h b hb).symm

theorem leaveStatus_eq_self {x : NodeId} {v : Option SynthesisError}
    (h : d.Bears x fun b => b.status = statusOf v) : d.leaveStatus (x, v) = d := by
  refine modify_eq_self fun b hb => ?_
  exact congrArg (fun status => { b with status }) (h b hb).symm

theorem format_of_fresh_eq {e : Document R S} (h : e.fresh = d.fresh) (decimals : Option Nat) :
    e.format decimals = d.format decimals :=
  congrArg (fun d => d.format decimals) h

end Leaving

/-! ### Outcomes in trees with other blocks -/

section Relabel

variable [Analytic R] [Storage R S] [Numeral R] {d e : Document R S} {f : ProgramFormat}

/-- **Outcomes agree** on some of the statements if those of the blocks themselves do. -/
theorem emit_relabel {g : Block R S → Block R S} {p : Statement → Bool}
    (hflags : ∀ b, (g b).flags = b.flags) (hkind : ∀ b, (g b).kind = b.kind)
    (hblock : ∀ x b, (e.emitBlock f x (g b)).keeping p = (d.emitBlock f x b).keeping p)
    (br : Branch (NodeId × Block R S)) :
    (e.emit f (br.map (Prod.map id g))).keeping p = (d.emit f br).keeping p := by
  induction br using Branch.forall_of_step with
  | h label lists ih =>
    obtain ⟨x, b⟩ := label
    have hforest (l : List (Branch (NodeId × Block R S))) (hl : l ∈ lists) :
        (e.emitForest f (l.map (Branch.map (Prod.map id g)))).keeping p =
          (d.emitForest f l).keeping p := by
      have hbranches := ih l hl
      clear hl
      induction l with
      | nil => rfl
      | cons br rest ihrest =>
        rw [List.map_cons, emitForest, emitForest, Emission.keeping_append, Emission.keeping_append,
          hbranches br List.mem_cons_self,
          ihrest fun c hc => hbranches c (List.mem_cons_of_mem br hc)]
    have hlists : (e.emitLists f
        (lists.map (·.map (Branch.map (Prod.map id g))))).keeping p =
          (d.emitLists f lists).keeping p := by
      cases lists with
      | nil => rfl
      | cons l rest => exact hforest l List.mem_cons_self
    rw [Branch.map_node, Prod.map_apply, emit, emit, hflags, hkind]
    split
    · rfl
    · split
      · dsimp only
        rw [Emission.keeping_group, Emission.keeping_group, id_eq, hblock, hlists]
      · exact hblock x b

end Relabel

/-! ### What a block yields in a fresh document -/

section Fresh

variable (d : Document R S)

theorem cutting_fresh (id : NodeId) : d.fresh.cutting id = d.cutting id := by
  rw [cutting, cutting, findTool?_fresh]
  rfl

variable [Analytic R] [Storage R S] [Numeral R]

theorem commands_fresh (decimals : Nat) (id : NodeId) (b : Block R S) :
    d.fresh.commands decimals id b.fresh = d.commands decimals id b := by
  have hpayload : b.fresh.payload = b.payload := rfl
  unfold commands
  rw [hpayload]
  cases b.payload with
  | line l =>
    simp only [segmentCommands, cutting_fresh, segment?_fresh]
    rfl
  | arc a =>
    simp only [segmentCommands, cutting_fresh, segment?_fresh]
    rfl
  | sketch s =>
    simp only [sketchCommands, cutting_fresh, childSegments_fresh]
    rfl
  | drillHoles h =>
    simp only [drillCommands, cutting_fresh, childSegments_fresh]
    rfl
  | boltHoles h =>
    simp only [boltCommands, cutting_fresh, childSegments_fresh]
    rfl
  | image r =>
    simp only [reliefCommands, cutting_fresh, placement_fresh]
    rfl
  | mesh m =>
    simp only [meshCommands, cutting_fresh, placement_fresh]
    rfl
  | _ => rfl

variable (f : ProgramFormat)

/-- **The outcome for a fresh document** is that for the document. -/
theorem emit_fresh (br : Branch (NodeId × Block R S)) :
    d.fresh.emit f (br.map (Prod.map id Block.fresh)) = d.emit f br := by
  have hall (e : Emission) : e.keeping (fun _ => true) = e :=
    congrArg (Emission.mk · e.verdicts) (List.filter_true e.statements)
  have hblock (x : NodeId) (b : Block R S) :
      d.fresh.emitBlock f x b.fresh = d.emitBlock f x b := by
    rw [emitBlock, emitBlock, commands_fresh]
  have hkept := emit_relabel Block.flags_fresh Block.kind_fresh
    (fun x b => congrArg (Emission.keeping fun _ => true) (hblock x b)) br
  rwa [hall, hall] at hkept

theorem outcome_fresh (id : NodeId) : d.fresh.outcome f id = d.outcome f id := by
  have hbranch : d.fresh.tree.branch? id = (d.tree.branch? id).map _ :=
    Tree.branch?_relabel Block.fresh d.tree id
  rw [outcome, outcome, hbranch]
  cases d.tree.branch? id with
  | none => rfl
  | some b => exact d.emit_fresh f b

end Fresh

variable [Analytic R] [Storage R S] [Numeral R] {d e : Document R S}

/-- **What a synthesis left** has no part in what a block yields. -/
theorem outcome_of_fresh_eq (h : e.fresh = d.fresh) : e.outcome = d.outcome := by
  funext f id
  rw [← outcome_fresh, h, outcome_fresh]

theorem written_of_fresh_eq (h : e.fresh = d.fresh) : e.written = d.written := by
  funext f id
  rw [written, written, outcome_of_fresh_eq h]

/-! ### The changes that a synthesis makes -/

section Changes

variable (d) (f : ProgramFormat) (ending : LineEnding)

/-- **Visiting blocks one after the other** leaves on each what it yields in the document as it was
before. -/
theorem Underway.foldl_visit (ids : List NodeId) (s : Underway R S) :
    ids.foldl (Underway.visit f ending) s =
      ⟨(ids.map fun id => (id, ending.apply (s.document.written f id))).foldl leaveCode s.document,
        s.verdicts ++ ids.flatMap fun id => (s.document.outcome f id).verdicts⟩ := by
  induction ids generalizing s with
  | nil => rw [List.flatMap_nil, List.append_nil]; rfl
  | cons id rest ih =>
    have hfresh : (s.visit f ending id).document.fresh = s.document.fresh :=
      s.document.fresh_leaveCode _
    rw [List.foldl_cons, ih, written_of_fresh_eq hfresh, outcome_of_fresh_eq hfresh,
      List.flatMap_cons, ← List.append_assoc]
    rfl

/-- The program texts that a synthesis leaves on blocks. -/
def texts : List (NodeId × String) :=
  (d.tree.members d.root).map fun id => (id, ending.apply (d.written f id))

variable {d f ending} in
theorem eq_of_mem_texts {c : NodeId × String} {code : String} (hc : c ∈ d.texts f ending)
    (hcode : (c.1, code) ∈ d.texts f ending) : c.2 = code := by
  obtain ⟨x, -, rfl⟩ := List.mem_map.mp hc
  obtain ⟨y, -, hy⟩ := List.mem_map.mp hcode
  obtain ⟨rfl, rfl⟩ := Prod.mk.inj hy
  rfl

/-- The verdicts of a synthesis. -/
def verdicts : List (NodeId × Option SynthesisError) :=
  (d.tree.members d.root).flatMap fun id => (d.outcome f id).verdicts

/-- The document with what a synthesis leaves on it. -/
def synthesized : Document R S :=
  (d.verdicts f).foldl leaveStatus ((d.texts f ending).foldl leaveCode d)

theorem generate_snd (decimals : Option Nat) :
    (d.generate ending decimals).2 = d.synthesized (d.format decimals) ending := by
  rw [generate, Underway.foldl_visit]
  rfl

/-- **Nothing but program text and statuses** is changed. -/
theorem fresh_synthesized : (d.synthesized f ending).fresh = d.fresh := by
  have htexts : ((d.texts f ending).foldl leaveCode d).fresh = d.fresh :=
    List.foldlRecOn (d.texts f ending) leaveCode (motive := fun e => e.fresh = d.fresh) rfl
      fun e he c _ => (e.fresh_leaveCode c).trans he
  exact List.foldlRecOn (d.verdicts f) leaveStatus (motive := fun e => e.fresh = d.fresh) htexts
    fun e he v _ => (e.fresh_leaveStatus v).trans he

end Changes

/-! ### The verdicts on a block -/

section Verdicts

variable {f : ProgramFormat}

variable (d f) in
/-- The verdict on a block that is reached. -/
def verdictOn (id : NodeId) (b : Block R S) : Option SynthesisError :=
  if b.flags.suppressed then none
  else
    match d.commands f.decimals id b with
    | .ok _ => none
    | .error e => some e

theorem verdicts_emitBlock {id : NodeId} {b : Block R S} (hb : ¬ b.flags.suppressed) :
    (d.emitBlock f id b).verdicts = [(id, d.verdictOn f id b)] := by
  rw [verdictOn, if_neg hb, emitBlock]
  cases d.commands f.decimals id b <;> rfl

theorem verdicts_emitForest (bs : List (Branch (NodeId × Block R S))) :
    (d.emitForest f bs).verdicts = bs.flatMap fun br => (d.emit f br).verdicts := by
  induction bs with
  | nil => rfl
  | cons br rest ih => rw [emitForest, Emission.verdicts_append, ih, List.flatMap_cons]

theorem verdict_of_mem_emit {br : Branch (NodeId × Block R S)}
    {v : NodeId × Option SynthesisError} (h : v ∈ (d.emit f br).verdicts) :
    ∃ b, (v.1, b) ∈ br.labels ∧ v.2 = d.verdictOn f v.1 b := by
  induction br using Branch.forall_of_step with
  | h label lists ih =>
    obtain ⟨x, b⟩ := label
    have hself {v : NodeId × Option SynthesisError} (hv : v ∈ [(x, d.verdictOn f x b)]) :
        ∃ b', (v.1, b') ∈ (Branch.node (x, b) lists).labels ∧ v.2 = d.verdictOn f v.1 b' := by
      obtain rfl := List.mem_singleton.mp hv
      exact ⟨b, Branch.self_mem_labels .., rfl⟩
    rw [emit] at h
    split at h
    · rename_i hb
      refine hself ?_
      rwa [verdictOn, if_pos hb]
    · rename_i hb
      split at h
      · rcases List.mem_append.mp h with h | h
        · cases lists with
          | nil => cases h
          | cons l rest =>
            rw [emitLists, verdicts_emitForest] at h
            obtain ⟨c, hc, hv⟩ := List.mem_flatMap.mp h
            obtain ⟨a, ha, hv⟩ := ih l List.mem_cons_self c hc hv
            exact ⟨a, Branch.mem_labels_of_mem List.mem_cons_self hc ha, hv⟩
        · exact hself (verdicts_emitBlock hb ▸ h)
      · exact hself (verdicts_emitBlock hb ▸ h)

theorem verdict_of_mem_verdicts {v : NodeId × Option SynthesisError} (h : v ∈ d.verdicts f) :
    ∃ b, d.get? v.1 = some b ∧ v.2 = d.verdictOn f v.1 b := by
  obtain ⟨x, -, hv⟩ := List.mem_flatMap.mp h
  rw [outcome] at hv
  split at hv
  · rename_i br hbr
    obtain ⟨b, hb, hv⟩ := verdict_of_mem_emit hv
    exact ⟨b, Tree.get?_of_mem_labels hbr hb, hv⟩
  · cases hv

/-- **The verdicts on a block agree**, since they depend on the block alone. -/
theorem eq_of_mem_verdicts {id : NodeId} {v w : Option SynthesisError}
    (hv : (id, v) ∈ d.verdicts f) (hw : (id, w) ∈ d.verdicts f) : v = w := by
  obtain ⟨b, hb, hv⟩ := verdict_of_mem_verdicts hv
  obtain ⟨c, hc, hw⟩ := verdict_of_mem_verdicts hw
  obtain rfl := Option.some.inj (hb.symm.trans hc)
  exact hv.trans hw.symm

end Verdicts

/-! ### What blocks bear afterwards -/

section Borne

variable {f : ProgramFormat} {ending : LineEnding}

/-- A block of the top level bears its own program text. -/
theorem bears_code {x : NodeId} (hx : x ∈ d.tree.members d.root) :
    (d.synthesized f ending).Bears x fun b => b.code = ending.apply (d.written f x) := by
  have hmem : (x, ending.apply (d.written f x)) ∈ d.texts f ending := List.mem_map.mpr ⟨x, hx, rfl⟩
  generalize ending.apply (d.written f x) = code at hmem ⊢
  have hkeep (c : NodeId × String) (hc : c ∈ d.texts f ending) (e : Document R S)
      (he : e.Bears x fun b => b.code = code) : (e.leaveCode c).Bears x fun b => b.code = code := by
    refine he.modify ?_
    rintro rfl b -
    exact eq_of_mem_texts hc hmem
  have htexts : ((d.texts f ending).foldl leaveCode d).Bears x fun b => b.code = code :=
    bears_foldl hmem (fun e => e.bears_leaveCode x code) hkeep d
  exact htexts.foldl fun v _ e he => he.modify fun _ _ hb => hb

/-- A block that was reached bears the status of the verdict on it. -/
theorem bears_status {x : NodeId} {v : Option SynthesisError} (h : (x, v) ∈ d.verdicts f) :
    (d.synthesized f ending).Bears x fun b => b.status = statusOf v := by
  have hkeep (w : NodeId × Option SynthesisError) (hw : w ∈ d.verdicts f) (e : Document R S)
      (he : e.Bears x fun b => b.status = statusOf v) :
      (e.leaveStatus w).Bears x fun b => b.status = statusOf v := by
    refine he.modify ?_
    rintro rfl b -
    exact congrArg statusOf (eq_of_mem_verdicts hw h)
  exact bears_foldl h (fun e => e.bears_leaveStatus x v) hkeep _

theorem code_synthesized {x : NodeId} (hx : x ∈ d.tree.members d.root) :
    ((d.synthesized f ending).get? x).map (·.code) = some (ending.apply (d.written f x)) := by
  have hfresh : (d.synthesized f ending).fresh = d.fresh := d.fresh_synthesized f ending
  have hmem : x ∈ (d.synthesized f ending).tree.members d.root := by
    rwa [members_of_fresh_eq hfresh]
  have halive := ((d.synthesized f ending).tree.sound.holds.alive d.root x hmem).1
  obtain ⟨n, hn⟩ := Option.isSome_iff_exists.mp halive
  have hget : (d.synthesized f ending).get? x = some n.item :=
    Tree.get?_of_node? hn
  rw [hget]
  exact congrArg some (bears_code hx n.item hget)

/-- **The program text left on the blocks** is what they yield in the document as it was. -/
theorem programText_synthesized : (d.synthesized f ending).programText =
    String.join ((d.tree.members d.root).map fun id => ending.apply (d.written f id)) := by
  have hfresh : (d.synthesized f ending).fresh = d.fresh := d.fresh_synthesized f ending
  rw [programText, members_of_fresh_eq hfresh, root_of_fresh_eq hfresh,
    List.filterMap_congr fun x hx => code_synthesized hx, List.filterMap_eq_map']

theorem texts_synthesized : (d.synthesized f ending).texts f ending = d.texts f ending := by
  have hfresh : (d.synthesized f ending).fresh = d.fresh := d.fresh_synthesized f ending
  rw [texts, texts, members_of_fresh_eq hfresh, root_of_fresh_eq hfresh,
    written_of_fresh_eq hfresh]

theorem verdicts_synthesized : (d.synthesized f ending).verdicts f = d.verdicts f := by
  have hfresh : (d.synthesized f ending).fresh = d.fresh := d.fresh_synthesized f ending
  rw [verdicts, verdicts, members_of_fresh_eq hfresh, root_of_fresh_eq hfresh,
    outcome_of_fresh_eq hfresh]

/-- **A second synthesis** changes nothing. -/
theorem synthesized_synthesized :
    (d.synthesized f ending).synthesized f ending = d.synthesized f ending := by
  generalize hs : d.synthesized f ending = s
  rw [synthesized, ← hs, texts_synthesized, verdicts_synthesized, hs]
  have htexts : (d.texts f ending).foldl leaveCode s = s :=
    List.foldlRecOn (d.texts f ending) leaveCode (motive := fun e => e = s) rfl
      fun e he c hc => by
        obtain ⟨x, hx, rfl⟩ := List.mem_map.mp hc
        rw [he, ← hs, leaveCode_eq_self (bears_code hx)]
  rw [htexts]
  exact List.foldlRecOn (d.verdicts f) leaveStatus (motive := fun e => e = s) rfl
    fun e he v hv => by
      rw [he, ← hs, leaveStatus_eq_self (bears_status hv)]

end Borne

/-! ### Whole programs -/

section Programs

variable (d) (ending : LineEnding) (decimals : Option Nat)

theorem stored_generate :
    (d.generate ending decimals).1 = (d.generate ending decimals).2.programText := rfl

/-- A program is the program texts of its blocks, each as the document was before. -/
theorem generate_fst : (d.generate ending decimals).1 = String.join ((d.tree.members d.root).map
    fun id => ending.apply (d.written (d.format decimals) id)) := by
  rw [stored_generate, generate_snd, programText_synthesized]

/-- A program comes from its blocks, one by one, and synthesis writes fragments and statuses
only. -/
structure Compositional : Prop where
  /-- The program is the program texts of the blocks of the top level, each with its lines ended and
  as the document was before. -/
  program : (d.generate ending decimals).1 = String.join ((d.tree.members d.root).map fun id =>
    ending.apply (d.written (d.format decimals) id))
  /-- Written with line feeds and as the document says, these are the fragments. -/
  fragments : (d.generate .lf none).1 = String.join ((d.tree.members d.root).map d.fragment)
  /-- Each block of the top level bears its program text afterwards. -/
  borne : ∀ id ∈ d.tree.members d.root, ((d.generate ending decimals).2.get? id).map (·.code) =
    some (ending.apply (d.written (d.format decimals) id))
  /-- The program is what the blocks of the top level bear afterwards. -/
  stored : (d.generate ending decimals).1 = (d.generate ending decimals).2.programText
  /-- But for program text and statuses the document is what it was. -/
  untouched : (d.generate ending decimals).2.fresh = d.fresh
  /-- The next synthesis yields the same program and leaves the document as it is. -/
  repeated : (d.generate ending decimals).2.generate ending decimals = d.generate ending decimals

/-- **A synthesis is compositional**, touches nothing but fragments and statuses, and may be
repeated. -/
theorem compositional_generate : d.Compositional ending decimals where
  program := d.generate_fst ending decimals
  fragments := d.generate_fst .lf none
  borne := fun id hid => by
    rw [generate_snd]
    exact code_synthesized hid
  stored := d.stored_generate ending decimals
  untouched := by
    rw [generate_snd]
    exact d.fresh_synthesized _ _
  repeated := by
    have hfresh : (d.generate ending decimals).2.fresh = d.fresh := by
      rw [generate_snd]
      exact d.fresh_synthesized _ _
    have hdocument : ((d.generate ending decimals).2.generate ending decimals).2 =
        (d.generate ending decimals).2 := by
      rw [generate_snd, format_of_fresh_eq hfresh, generate_snd, synthesized_synthesized]
    refine Prod.ext ?_ hdocument
    rw [stored_generate, hdocument, ← stored_generate]

end Programs

end Document

end Toolpath
