import Toolpath.Proofs.Project.RoundTrip
import Toolpath.Proofs.Tree.Duplicates

/-!
# Two ways to copy a block

A block is copied with everything below it either inside the document, by duplicating it, or through
a clipboard, by writing its record and pasting that somewhere. The first way walks over a store that
it is adding to, the second one goes through bytes and a reader that trusts nothing. Both plant a
branch, and it is the same one: what the block shows, each block of it as it was before any
synthesis.

The second way has the conditions of the reader. A block that is too deep, a mesh with too many
slices or an image with too few pixels is not read back, and the contours of a mesh are derived
anew. The list that is pasted into may be anywhere, also below the block that was copied: the record
was taken before.

## Main results

* `Document.duplicate_copies` — duplicating makes a deep copy
* `Record.harvest_chunk` — the record of a block is read back from its bytes
* `Document.paste_agrees` — a paste makes the copy that duplicating makes
-/

namespace Toolpath

namespace Document

variable {R S : Type} {id : NodeId}

/-! ### Inside the document -/

/-- **Duplicating makes a deep copy** that shares nothing with its original and is put directly
behind it. Each block has its payload, its comment and its flags, and neither code nor a status.
Everything else stays as it is. -/
theorem duplicate_copies {d : Document R S} (hid : d.tree.contains id)
    (hself : ¬ d.tree.links.BelowItself id) :
    ∃ copy t, d.duplicate? id = some (copy, d.withTree t) ∧
      d.tree.Duplicated t id copy fun b =>
        { payload := b.payload, comment := b.comment, flags := b.flags
          code := "", status := "" } := by
  obtain ⟨copy, v, hv, b, hb, hplanted⟩ := Tree.exists_duplicateWith Block.fresh hid hself
  exact ⟨copy, _, Option.map_eq_some_iff.mpr ⟨_, hv, rfl⟩, Tree.duplicated_of_planted hb hplanted⟩

/-- A template in a template, with a mesh and an image in the inner one. -/
def nested : Project :=
  let d : Project := (Document.new "nested").push ⟨0⟩ { payload := Payload.standard .template } |>.2
  let d := (d.push ⟨1⟩ { payload := Payload.standard .template }).2
  let d := (d.push ⟨2⟩ { payload := Payload.standard .mesh }).2
  (d.push ⟨2⟩ { payload := Payload.standard .image }).2

theorem not_belowItself_nested : ¬ nested.tree.links.BelowItself ⟨0⟩ := by
  have htop : nested.tree.parent? ⟨0⟩ = none := by decide +kernel
  exact Tree.not_belowItself_of_outermost htop
    (show nested.tree.links.Descends 0 ⟨0⟩ ⟨0⟩ from rfl)

theorem duplicate_copies_nested :
    (nested.tree.subtree ⟨0⟩).length = 4 ∧
      ∃ copy t, nested.duplicate? ⟨0⟩ = some (copy, nested.withTree t) ∧
        nested.tree.Duplicated t ⟨0⟩ copy fun b =>
          { payload := b.payload, comment := b.comment, flags := b.flags
            code := "", status := "" } :=
  ⟨by decide +kernel, duplicate_copies (by decide +kernel) not_belowItself_nested⟩

end Document

/-! ### Through a clipboard -/

/-- A payload that the reader has nothing against and that is saved as it is. -/
theorem Payload.inLimits_and_derived {p : StoredPayload}
    (hmesh : ∀ m, p = .mesh m → m.slices.toNat ≤ Mesh.maxSlices ∧ m.contours = m.slicesOf)
    (himage : ∀ r, p = .image r → r.columns.toNat * r.rows.toNat ≤ r.pixels.size) :
    p.InLimits ∧ p.derived = p := by
  cases p with
  | mesh m =>
    obtain ⟨hslices, hcontours⟩ := hmesh m rfl
    refine ⟨hslices, congrArg Payload.mesh ?_⟩
    rw [Mesh.rebuild, ← hcontours]
  | image r => exact ⟨himage r rfl, rfl⟩
  | _ => exact ⟨trivial, rfl⟩

theorem Block.saved_eq_fresh {b : StoredBlock} (h : b.payload.derived = b.payload) :
    b.saved = b.fresh := by
  rw [Block.saved, h]
  rfl

/-- **The record of a block is read back from its bytes.** -/
theorem Record.harvest_chunk {b : Branch StoredBlock} (hfits : (chunk b).Fits)
    (hstorable : b.Every Block.Storable) (hheight : b.height ≤ maxDepth) :
    harvest (chunk b).bytes = ⟨[b.map Block.saved], none⟩ := by
  have hbytes : (chunk b).bytes = Chunk.bytesOfAll [chunk b] := (List.append_nil _).symm
  have hread : read (chunk b).raw = ⟨[b.map Block.saved], none⟩ :=
    readTo_chunk hfits hstorable (Nat.lt_succ_of_le hheight)
  have hfitsAll : Chunk.FitsAll [chunk b] := ⟨hfits, trivial⟩
  rw [harvest, hbytes, RawChunk.split_bytesOfAll hfitsAll]
  simp only [List.map_cons, List.map_nil, readAll, hread, List.append_nil]

namespace Document

variable {d : Project} {id : NodeId} {l : ListId} {bytes : Bytes} {b : Branch StoredBlock}

/-- What is written of a block is the record of what it shows. -/
theorem encodeSubtree_spec (hb : d.tree.links.Shows id b) (h : d.encodeSubtree id = .ok bytes) :
    bytes = (Record.chunk b).bytes ∧ (Record.chunk b).Fits := by
  obtain ⟨c, hc, rfl⟩ := Tree.exists_branch?_of_shows hb
  simp only [encodeSubtree, hc] at h
  cases hw : ChunkWriter.empty.write (Record.chunk (c.map Prod.snd)) with
  | error e => rw [hw] at h; cases h
  | ok w =>
    rw [hw] at h
    obtain rfl := Except.ok.inj h
    obtain ⟨hout, hfits⟩ := ChunkWriter.write_spec hw
    have hempty := ChunkWriter.parted_empty
    rw [hempty.front_eq, hempty.back_eq, List.drop_nil] at hout
    exact ⟨hout.bytes.trans (List.append_nil _), hfits⟩

/-- What is read from the record of a block is attached. -/
theorem paste_of_harvest (hl : (d.tree.list? l).isSome) {b : Branch StoredBlock}
    (h : Record.harvest bytes = ⟨[b], none⟩) :
    ∃ pasted t, d.paste l bytes = (.ok [pasted], d.withTree t) ∧
      d.tree.Adds t l [pasted] [b] := by
  have hadds := d.adds_attachAll hl [b]
  rw [paste_eq, h]
  exact ⟨_, _, rfl, hadds⟩

/-- **A paste makes the copy that duplicating makes**, and puts it at the tail of the list. -/
theorem paste_agrees (hd : Made d) (hid : d.tree.contains id) (hl : (d.tree.list? l).isSome)
    (hdepth : ∀ levels x, d.tree.links.Descends levels id x → levels ≤ Record.maxDepth)
    (hmesh : ∀ levels x, d.tree.links.Descends levels id x → ∀ m, d.payload? x = some (.mesh m) →
      m.slices.toNat ≤ Mesh.maxSlices ∧ m.contours = m.slicesOf)
    (himage : ∀ levels x, d.tree.links.Descends levels id x → ∀ r, d.payload? x = some (.image r) →
      r.columns.toNat * r.rows.toNat ≤ r.pixels.size)
    (h : d.encodeSubtree id = .ok bytes) :
    ∃ pasted t copy u b, d.paste l bytes = (.ok [pasted], d.withTree t) ∧
      d.duplicate? id = some (copy, d.withTree u) ∧ t.links.Shows pasted b ∧
      u.links.Shows copy b ∧ t.tail? l = some pasted ∧ d.tree.Adds t l [pasted] [b] := by
  have hshallow : ¬ ∃ y, d.tree.links.Descends (Record.maxDepth + 1) id y :=
    fun ⟨y, hy⟩ => Nat.not_succ_le_self _ (hdepth _ y hy)
  obtain ⟨_, hfinite⟩ := d.tree.sound.exists_shows_of_shallow hid hshallow
  obtain ⟨copy, v, hv, _, hplain, hplanted⟩ :=
    Tree.exists_duplicateWith Block.fresh hid hfinite.not_belowItself
  obtain ⟨b, hb, -, hcopy⟩ := (Tree.duplicated_of_planted hplain hplanted).shows
  have hheight : b.height ≤ Record.maxDepth := by
    obtain ⟨y, hy⟩ := hb.exists_descends
    exact hdepth _ y hy
  have hevery : b.Every fun a n => a.Storable n ∧ a.payload.derived = a.payload := by
    refine hb.every_of_descends fun levels x n hx hn => ?_
    have hblock : d.get? x = some n.item := congrArg (Option.map TreeNode.item) hn
    have hpayload : d.payload? x = some n.item.payload := by rw [payload?, hblock, Option.map_some]
    obtain ⟨hlimits, hderived⟩ := Payload.inLimits_and_derived
      (fun m hm => hmesh levels x hx m (hm ▸ hpayload))
      fun r hr => himage levels x hx r (hr ▸ hpayload)
    exact ⟨⟨hd.regular.shaped x n hn, hlimits⟩, hderived⟩
  have hsame : b.map Block.saved = b.map Block.fresh :=
    hevery.map_congr fun _ _ h => Block.saved_eq_fresh h.2
  obtain ⟨rfl, hfits⟩ := encodeSubtree_spec hb h
  obtain ⟨pasted, t, hpaste, hadds⟩ :=
    paste_of_harvest hl (Record.harvest_chunk hfits (hevery.imp fun _ _ h => h.1) hheight)
  refine ⟨pasted, t, copy, _, b.map Block.saved, hpaste, Option.map_eq_some_iff.mpr ⟨_, hv, rfl⟩,
    (List.forall₂_cons.mp hadds.shows).1, hsame ▸ hcopy, ?_, hadds⟩
  have hmember : pasted ∈ t.members l :=
    hadds.members ▸ List.mem_append_right _ List.mem_cons_self
  have htail := t.sound.holds.tail?_eq (t.sound.holds.alive l pasted hmember).2
  rw [Tree.tail?, htail]
  exact (congrArg List.getLast? hadds.members).trans List.getLast?_concat

/-- The outer template is pasted into the inner one. -/
theorem paste_agrees_nested :
    ∃ bytes pasted t copy u b, nested.encodeSubtree ⟨0⟩ = .ok bytes ∧
      nested.paste ⟨2⟩ bytes = (.ok [pasted], nested.withTree t) ∧
      nested.duplicate? ⟨0⟩ = some (copy, nested.withTree u) ∧ t.links.Shows pasted b ∧
      u.links.Shows copy b ∧ nested.tree.Adds t ⟨2⟩ [pasted] [b] := by
  have hid : nested.tree.contains ⟨0⟩ := by decide +kernel
  have hmade : Made nested := ((((Made.new _).push _ _).push _ _).push _ _).push _ _
  obtain ⟨b, hb, hheight⟩ := nested.tree.sound.exists_shows hid not_belowItself_nested
  have hdepth (levels x) (hx : nested.tree.links.Descends levels ⟨0⟩ x) :
      levels ≤ Record.maxDepth := by
    obtain ⟨c, -, hlevels, -⟩ := hb.descends hx
    have hcount : nested.tree.links.nodes.nextKey ≤ Record.maxDepth := by decide +kernel
    omega
  have hall : ∀ x ∈ nested.tree.subtree ⟨0⟩, ∀ p ∈ nested.payload? x,
      p.InLimits ∧ p.derived = p := by
    decide +kernel
  have hkept {levels x p} (hx : nested.tree.links.Descends levels ⟨0⟩ x)
      (hp : nested.payload? x = some p) : p.InLimits ∧ p.derived = p :=
    hall x (((Tree.comprises_subtree hb).mem_iff x).mpr ⟨levels, hx⟩) p hp
  obtain ⟨bytes, hbytes⟩ : ∃ bytes, nested.encodeSubtree ⟨0⟩ = .ok bytes := by
    have hok : (nested.encodeSubtree ⟨0⟩).isOk = true := by decide +kernel
    cases h : nested.encodeSubtree ⟨0⟩ with
    | error e => rw [h] at hok; cases hok
    | ok bytes => exact ⟨bytes, rfl⟩
  obtain ⟨pasted, t, copy, u, c, hpaste, hcopy, hc, hc', -, hadds⟩ :=
    paste_agrees hmade hid (l := ⟨2⟩) (by decide +kernel) hdepth
      (fun levels x hx m hm => by
        obtain ⟨hslices, hderived⟩ := hkept hx hm
        have hrebuild : m.rebuild = m := Payload.mesh.inj hderived
        exact ⟨hslices, (congrArg Mesh.contours hrebuild).symm⟩)
      (fun levels x hx r hr => (hkept hx hr).1) hbytes
  exact ⟨bytes, pasted, t, copy, u, c, hbytes, hpaste, hcopy, hc, hc', hadds⟩

end Document

end Toolpath
