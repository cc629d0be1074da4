import Toolpath.Proofs.Project.Made
import Toolpath.Proofs.Synthesis.Visits

/-!
# What earlier syntheses left

Between two syntheses a document is edited. A synthesis writes a status on the blocks that it visits
and program text on the blocks of the top level, and clears nothing. A block that one synthesis
wrote on and the next one does not come by, because it was moved below another block, or because
what is around it was suppressed in the meantime, keeps what it had.

So what a block carries is told by the whole history: its program text is that of the last synthesis
in which it was at the top level, and its status that of the last one that visited it. Behind a
synthesis a block carries the results of this synthesis only, exactly if this synthesis came by, or
if there was nothing to keep.

## Main definitions

* `Document.Edit` — an edit of a document
* `Document.Pass` — a synthesis of a document
* `Document.Worked` — a document with the syntheses that were made of it on the way
* `Document.Pass.Owns` — a block carries results of the synthesis only

## Main results

* `Document.Edit.spares` — edits neither make nor change results
* `Document.Worked.carries` — what a block carries at any time
* `Document.Worked.owns_iff` — when a block carries results of the last synthesis only
-/

namespace Toolpath

namespace Document

/-! ### Edits -/

/-- The second document comes from the first one by one operation of documents. -/
inductive Edit (d : Project) : Project → Prop where
  /-- Other settings, another stock or another voxel field. -/
  | settings {e : Project} (ht : e.tree = d.tree) (hr : e.root = d.root) : Edit d e
  /-- A further block outside every list, without results. -/
  | create {b : StoredBlock} (hb : b.Bare) : Edit d (d.create b).2
  /-- A block moved. -/
  | move (m : Move) : Edit d (d.withTree (d.tree.move m).2)
  /-- A block edited: its payload, its comment or its flags. -/
  | modify (id : NodeId) {f : StoredBlock → StoredBlock} (hkind : ∀ b, (f b).kind = b.kind)
    (hresults : ∀ b, (f b).results = b.results) : Edit d (d.modify id f)
  /-- A block removed with everything below it. -/
  | remove {e : Project} {id : NodeId} {b : StoredBlock} (he : d.remove? id = some (b, e)) :
    Edit d e
  /-- The blocks in a list destroyed. -/
  | destroyList (l : ListId) : Edit d (d.withTree (d.tree.destroyList l))
  /-- A block copied with everything below it. -/
  | duplicate {e : Project} {id copy : NodeId} (he : d.duplicate? id = some (copy, e)) : Edit d e
  /-- Records pasted. -/
  | paste (l : ListId) (bytes : Bytes) : Edit d (d.paste l bytes).2

theorem Edit.made {d e : Project} (h : Edit d e) (hd : Made d) : Made e := by
  cases h with
  | settings ht hr => exact hd.settings ht hr
  | create _ => exact hd.create _
  | move m => exact hd.move m
  | modify id hkind _ => exact hd.modify id hkind
  | remove he => exact hd.remove he
  | destroyList l => exact hd.destroyList l
  | duplicate he => exact hd.duplicate he
  | paste l bytes => exact hd.paste l bytes

/-- **Edits neither make nor change results.** -/
theorem Edit.spares {d e : Project} (h : Edit d e) : d.Spares e := by
  cases h with
  | settings ht _ => exact .of_tree_eq ht
  | create hb => exact spares_create hb
  | move m => exact d.spares_move m
  | modify id _ hresults => exact d.spares_modify id hresults
  | remove he => exact spares_remove he
  | destroyList l => exact d.spares_destroyList l
  | duplicate he => exact spares_duplicate he
  | paste l bytes =>
    rw [paste_eq]
    refine d.spares_attachAll l fun br hbr => ?_
    have hyields :=
      Record.yields_readAll (RawChunk.split bytes).broken (RawChunk.split bytes).chunks
    refine (hyields.canonical br hbr).imp fun b _ hb => ?_
    rw [← hb.2]
    rfl

/-! ### Syntheses -/

/-- A synthesis: the document that it was made of, and how its program was written. -/
structure Pass where
  /-- The document before. -/
  document : Project
  /-- The line ending. -/
  ending : LineEnding
  /-- The number of decimal places, if it is not the document's own. -/
  decimals : Option Nat

namespace Pass

variable (p : Pass) (x : NodeId)

/-- The document afterwards. -/
def result : Project := (p.document.generate p.ending p.decimals).2

/-- How the program was written. -/
def format : ProgramFormat := p.document.format p.decimals

/-- The fragment of a block, if it was at the top level. -/
def fragment? : Option String :=
  if x ∈ p.document.tree.members p.document.root then
    some (p.ending.apply (p.document.written p.format x))
  else none

/-- The message recorded for a block, if it was visited. It is empty for a block that yielded its
statements. -/
def message? : Option String := ((p.document.verdicts p.format).lookup x).map statusOf

/-- The block carries results of the synthesis and nothing else: the message recorded for it and its
fragment, each empty if there is none. -/
def Owns (b : StoredBlock) : Prop := b.results = ((p.fragment? x).getD "", (p.message? x).getD "")

end Pass

/-- The program text that the last synthesis with a fragment for the block made of it. The latest
synthesis comes first. -/
def lastFragment (ps : List Pass) (x : NodeId) : String :=
  (ps.findSome? fun p => p.fragment? x).getD ""

/-- The message that the last synthesis that visited the block recorded for it. -/
def lastMessage (ps : List Pass) (x : NodeId) : String :=
  (ps.findSome? fun p => p.message? x).getD ""

/-- The document comes from a new one by edits and syntheses, in any order. The syntheses are
listed, the latest one first. -/
inductive Worked : List Pass → Project → Prop where
  /-- A new document. -/
  | new (name : String) : Worked [] (new name)
  /-- A document edited. -/
  | edit {ps : List Pass} {d e : Project} (h : Worked ps d) (he : Edit d e) : Worked ps e
  /-- A program synthesized. -/
  | generate {ps : List Pass} {d : Project} (h : Worked ps d) (ending : LineEnding)
    (decimals : Option Nat) : Worked (⟨d, ending, decimals⟩ :: ps) (d.generate ending decimals).2

/-! ### What one synthesis leaves -/

namespace Pass

variable {p : Pass} {x : NodeId} {a b : StoredBlock}

theorem fragment?_of_mem (hx : x ∈ p.document.tree.members p.document.root) :
    p.fragment? x = some (p.ending.apply (p.document.written p.format x)) := if_pos hx

theorem fragment?_eq_none_iff :
    p.fragment? x = none ↔ x ∉ p.document.tree.members p.document.root := by
  rw [fragment?]
  split
  · rename_i hx
    exact ⟨nofun, fun hout => absurd hx hout⟩
  · rename_i hx
    exact ⟨fun _ => hx, fun _ => rfl⟩

theorem exists_of_message? {message : String} (h : p.message? x = some message) :
    ∃ v, (x, v) ∈ p.document.verdicts p.format ∧ message = statusOf v := by
  obtain ⟨v, hv, rfl⟩ := Option.map_eq_some_iff.mp h
  obtain ⟨before, behind, hlist, -⟩ := List.lookup_eq_some_iff.mp hv
  exact ⟨v, by simp [hlist], rfl⟩

theorem message?_eq_none_iff :
    p.message? x = none ↔ ∀ v, (x, v) ∉ p.document.verdicts p.format := by
  rw [message?, Option.map_eq_none_iff, List.lookup_eq_none_iff]
  constructor
  · intro h v hv
    have hne := h _ hv
    rw [bne_self_eq_false] at hne
    cases hne
  · intro h v hv
    rw [bne_iff_ne]
    rintro rfl
    exact h v.2 hv

/-- A message is there for the blocks that are visited. -/
theorem isSome_message?_iff (h : Made p.document) :
    (p.message? x).isSome ↔ p.document.Visits x := by
  obtain ⟨r, hr, ho⟩ := h.regular.root
  have hroot : p.document.tree.owner? p.document.root = none := by
    rw [Tree.owner?, Tree.list?, hr]
    exact ho
  rw [Option.isSome_iff_ne_none, ne_eq, message?_eq_none_iff]
  constructor
  · intro hsome
    obtain ⟨v, hv⟩ := not_forall_not.mp hsome
    exact ((mem_verdicts_iff hroot).mp hv).1
  · intro hx hnone
    obtain ⟨b, hb⟩ := exists_get?_of_contains hx.contains
    exact hnone _ ((mem_verdicts_iff hroot).mpr ⟨hx, b, hb, rfl⟩)

theorem fresh_result (p : Pass) : p.result.fresh = p.document.fresh := by
  rw [result, generate_snd]
  exact p.document.fresh_synthesized _ _

/-- The same blocks are there. -/
theorem exists_get?_of_result (hb : p.result.get? x = some b) :
    ∃ a, p.document.get? x = some a := by
  have hget : p.result.fresh.get? x = p.document.fresh.get? x := by rw [fresh_result]
  have hfresh : (p.result.get? x).map Block.fresh = (p.document.get? x).map Block.fresh :=
    (Tree.get?_relabel _ _ _).symm.trans (hget.trans (Tree.get?_relabel _ _ _))
  rw [hb] at hfresh
  obtain ⟨a, ha, -⟩ := Option.map_eq_some_iff.mp hfresh.symm
  exact ⟨a, ha⟩

/-- **A synthesis leaves a fragment** at the top level, and the program text elsewhere as it was. -/
theorem code_result (ha : p.document.get? x = some a) (hb : p.result.get? x = some b) :
    b.code = (p.fragment? x).getD a.code := by
  rw [result, generate_snd] at hb
  by_cases hx : x ∈ p.document.tree.members p.document.root
  · rw [fragment?_of_mem hx]
    exact bears_code hx b hb
  · rw [fragment?_eq_none_iff.mpr hx]
    have hbefore : p.document.Bears x fun b => b.code = a.code := fun c hc =>
      congrArg Block.code (Option.some.inj (hc.symm.trans ha))
    have htexts : ((p.document.texts p.format p.ending).foldl leaveCode p.document).Bears x
        fun b => b.code = a.code := hbefore.foldl fun c hc e he => he.modify fun hself => by
      obtain ⟨y, hy, rfl⟩ := List.mem_map.mp hc
      exact absurd (hself ▸ hy) hx
    have hstatuses : (p.document.synthesized p.format p.ending).Bears x
        fun b => b.code = a.code := htexts.foldl fun v _ e he => he.modify fun _ _ hc => hc
    exact hstatuses b hb

/-- **A synthesis leaves a message** on the blocks that it visits, and the status of others as it
was. -/
theorem status_result (ha : p.document.get? x = some a) (hb : p.result.get? x = some b) :
    b.status = (p.message? x).getD a.status := by
  rw [result, generate_snd] at hb
  cases hm : p.message? x with
  | some message =>
    obtain ⟨v, hv, rfl⟩ := exists_of_message? hm
    exact bears_status hv b hb
  | none =>
    rw [message?_eq_none_iff] at hm
    have hbefore : p.document.Bears x fun b => b.status = a.status := fun c hc =>
      congrArg Block.status (Option.some.inj (hc.symm.trans ha))
    have htexts : ((p.document.texts p.format p.ending).foldl leaveCode p.document).Bears x
        fun b => b.status = a.status :=
      hbefore.foldl fun c _ e he => he.modify fun _ _ hc => hc
    have hstatuses : (p.document.synthesized p.format p.ending).Bears x
        fun b => b.status = a.status := htexts.foldl fun v hv e he => he.modify fun hself => by
      subst hself
      exact absurd hv (hm v.2)
    exact hstatuses b hb

end Pass

/-! ### What blocks carry -/

section Carrying

variable {ps : List Pass} {d e : Project} {p : Pass} {x : NodeId}

theorem lastFragment_cons (p : Pass) (ps : List Pass) (x : NodeId) :
    lastFragment (p :: ps) x = (p.fragment? x).getD (lastFragment ps x) := by
  rw [lastFragment, List.findSome?_cons]
  cases p.fragment? x <;> rfl

theorem lastMessage_cons (p : Pass) (ps : List Pass) (x : NodeId) :
    lastMessage (p :: ps) x = (p.message? x).getD (lastMessage ps x) := by
  rw [lastMessage, List.findSome?_cons]
  cases p.message? x <;> rfl

/-- Every block carries what the last syntheses that came by made of it, and there is nothing yet
for the names that were not given out. -/
structure Carries (ps : List Pass) (d : Project) : Prop where
  /-- What a block carries. -/
  results : ∀ {x b}, d.get? x = some b → b.results = (lastFragment ps x, lastMessage ps x)
  /-- Nothing for a name that was not given out. -/
  unborn : ∀ {x : NodeId}, d.tree.links.nodes.nextKey ≤ x.key →
    lastFragment ps x = "" ∧ lastMessage ps x = ""

theorem Carries.edit (h : Carries ps d) (he : d.Spares e) : Carries ps e where
  results := fun {x b} hb => by
    cases ha : d.get? x with
    | some a => exact (he.kept ha hb).trans (h.results ha)
    | none =>
      rcases he.made x (contains_of_get? hb) with hx | hx
      · obtain ⟨a, ha'⟩ := exists_get?_of_contains hx
        rw [ha] at ha'
        cases ha'
      · obtain ⟨hfragment, hmessage⟩ := h.unborn hx
        rw [hfragment, hmessage]
        exact he.bare ha hb
  unborn := fun hx => h.unborn (he.next.trans hx)

theorem Carries.generate (h : Carries ps p.document) : Carries (p :: ps) p.result where
  results := fun {x b} hb => by
    obtain ⟨a, ha⟩ := Pass.exists_get?_of_result hb
    obtain ⟨hcode, hstatus⟩ := Prod.mk.inj (h.results ha)
    rw [lastFragment_cons, lastMessage_cons, Block.results, Pass.code_result ha hb,
      Pass.status_result ha hb, hcode, hstatus]
  unborn := fun {x} hx => by
    have hkeys : p.result.fresh.tree.links.nodes.nextKey =
        p.document.fresh.tree.links.nodes.nextKey := by rw [Pass.fresh_result]
    have hnext : p.document.tree.links.nodes.nextKey ≤ x.key :=
      (((Arena.nextKey_map _ _).symm.trans hkeys).trans (Arena.nextKey_map _ _)) ▸ hx
    have hdead (hx : p.document.tree.links.contains x) : False := by
      have hlt := Links.key_lt_of_contains hx
      omega
    have hfragment : p.fragment? x = none :=
      Pass.fragment?_eq_none_iff.mpr fun hmem =>
        hdead (p.document.tree.sound.holds.alive _ x hmem).1
    have hmessage : p.message? x = none := Pass.message?_eq_none_iff.mpr fun v hv => by
      obtain ⟨b, hb, -⟩ := verdict_of_mem_verdicts hv
      exact hdead (contains_of_get? hb)
    rw [lastFragment_cons, lastMessage_cons, hfragment, hmessage]
    exact h.unborn hnext

theorem Worked.made (h : Worked ps d) : Made d := by
  induction h with
  | new name => exact .new name
  | edit _ he ih => exact he.made ih
  | @generate ps d _ ending decimals ih =>
    rw [generate_snd]
    have htexts : Made ((d.texts (d.format decimals) ending).foldl leaveCode d) :=
      List.foldlRecOn _ _ ih fun _ hd c _ => hd.modify c.1 fun _ => rfl
    exact List.foldlRecOn _ _ htexts fun _ hd v _ => hd.modify v.1 fun _ => rfl

/-- **What a block carries at any time**, over every history of edits and syntheses. -/
theorem Worked.carries (h : Worked ps d) : Carries ps d := by
  induction h with
  | new name =>
    refine ⟨fun {x b} hb => ?_, fun _ => ⟨rfl, rfl⟩⟩
    have hnone : (Document.new name : Project).get? x = none :=
      congrArg (Option.map TreeNode.item) (node?_new name x)
    rw [hnone] at hb
    cases hb
  | edit _ he ih => exact ih.edit he.spares
  | generate _ ending decimals ih => exact Carries.generate (p := ⟨_, ending, decimals⟩) ih

variable {b : StoredBlock}

theorem Pass.owns_iff_of_carries (h : Carries ps p.document) (hmade : Made p.document)
    (hb : p.result.get? x = some b) : p.Owns x b ↔
      (x ∈ p.document.tree.members p.document.root ∨ lastFragment ps x = "") ∧
        (p.document.Visits x ∨ lastMessage ps x = "") := by
  have hlast {last : String} (result : Option String) :
      result.getD last = result.getD "" ↔ result.isSome ∨ last = "" := by
    cases result <;> simp
  have htop : (p.fragment? x).isSome ↔ x ∈ p.document.tree.members p.document.root := by
    rw [Option.isSome_iff_ne_none, ne_eq, fragment?_eq_none_iff, not_not]
  rw [Owns, h.generate.results hb, lastFragment_cons, lastMessage_cons, Prod.mk.injEq, hlast, hlast,
    htop, isSome_message?_iff hmade]

/-- **Behind a synthesis a block carries** its fragment and its message from the last synthesis that
came by. These are results of this synthesis only, exactly if it came by itself or there was nothing
to keep. -/
theorem Worked.owns_iff (h : Worked ps d) (ending : LineEnding) (decimals : Option Nat)
    (hb : (d.generate ending decimals).2.get? x = some b) :
    b.results = (lastFragment (⟨d, ending, decimals⟩ :: ps) x,
      lastMessage (⟨d, ending, decimals⟩ :: ps) x) ∧
    ((⟨d, ending, decimals⟩ : Pass).Owns x b ↔
      (x ∈ d.tree.members d.root ∨ lastFragment ps x = "") ∧
        (d.Visits x ∨ lastMessage ps x = "")) :=
  ⟨(h.generate ending decimals).carries.results hb,
    Pass.owns_iff_of_carries (p := ⟨d, ending, decimals⟩) h.carries h.made hb⟩

end Carrying

theorem Worked.push {ps : List Pass} {d : Project} (h : Worked ps d) (l : ListId) {b : StoredBlock}
    (hb : b.Bare) : Worked ps (d.push l b).2 :=
  (h.edit (.create hb)).edit (.move (.pushBack l (d.create b).1))

/-- A template with a line in it, and behind it program text that turns the coolant on. -/
def cooled : Project :=
  let (group, d) : NodeId × Project :=
    (Document.new "cooled").add { payload := Payload.standard .template }
  let d := (d.push ((d.children? group).getD d.root) { payload := Payload.standard .line }).2
  (d.add { payload := .code "M08" }).2

theorem worked_cooled : Worked [] cooled := by
  refine (((Worked.new "cooled").push _ ?_).push _ ?_).push _ ?_ <;> rfl

/-- The first synthesis of a document leaves its own results only. -/
theorem Worked.owns_iff_cooled :
    (cooled.generate .lf none).2.get? ⟨1⟩ =
      some { payload := Payload.standard .line, status := "no tool selected" } ∧
    (⟨cooled, .lf, none⟩ : Pass).Owns ⟨1⟩
      { payload := Payload.standard .line, status := "no tool selected" } := by
  have hb : (cooled.generate .lf none).2.get? ⟨1⟩ =
      some { payload := Payload.standard .line, status := "no tool selected" } := by decide +kernel
  exact ⟨hb, (worked_cooled.owns_iff .lf none hb).2.mpr ⟨.inr rfl, .inr rfl⟩⟩

/-- Behind a synthesis the program text is moved into the template, and the template is
suppressed. -/
def cooledInside : Project :=
  let d := (cooled.generate .lf none).2
  let d := d.withTree (d.tree.move (.pushBack ((d.children? ⟨0⟩).getD d.root) ⟨2⟩)).2
  d.modify ⟨0⟩ fun b => { b with flags := { b.flags with suppressed := true } }

instance (p : Pass) (x : NodeId) (b : StoredBlock) : Decidable (p.Owns x b) :=
  inferInstanceAs (Decidable (_ = _))

/-- **What a synthesis does not come by keeps what it had**: inside the suppressed template the line
still bears the message of the synthesis before, and the program text the fragment that it was. -/
theorem exists_not_owns :
    Worked [⟨cooled, .lf, none⟩] cooledInside ∧
    cooledInside.tree.members cooledInside.root = [⟨0⟩] ∧
    cooledInside.inside ⟨0⟩ = [⟨1⟩, ⟨2⟩] ∧
    ((cooledInside.generate .lf none).2.get? ⟨1⟩).map Block.results =
      some ("", "no tool selected") ∧
    ((cooledInside.generate .lf none).2.get? ⟨2⟩).map Block.results = some ("M08\n", "") ∧
    ∀ x ∈ cooledInside.inside ⟨0⟩, ∀ b ∈ (cooledInside.generate .lf none).2.get? x,
      ¬ (⟨cooledInside, .lf, none⟩ : Pass).Owns x b := by
  have hworked : Worked [⟨cooled, .lf, none⟩] cooledInside :=
    ((worked_cooled.generate .lf none).edit (.move _)).edit
      (.modify ⟨0⟩ (fun _ => rfl) fun _ => rfl)
  exact ⟨hworked, by decide +kernel, by decide +kernel, by decide +kernel, by decide +kernel,
    by decide +kernel⟩

end Document

end Toolpath
