import Toolpath.Project.Record
import Toolpath.Proofs.Document.Forest

/-!
# What a paste leaves behind

Records are pasted one after the other, and each block is there as soon as it is read. An error ends
the paste and takes nothing back. So a paste that fails has attached what was read until then, and
the document is as it was exactly if that is nothing. The names of the blocks are lost, since the
answer is the error.

## Main definitions

* `Record.harvest` — what is read from bytes without a file header
* `Document.Same` — the same blocks in the same lists

## Main results

* `Document.adds_paste` — a paste attaches what is read, whether it fails or not
* `Document.failed_paste` — what a paste that fails leaves behind
-/

namespace Toolpath

/-- What is read from bytes without a file header. -/
def Record.harvest (bytes : Bytes) : Record.Harvest :=
  readAll (RawChunk.split bytes).broken (RawChunk.split bytes).chunks

namespace Document

section

variable {R S : Type}

/-- The second document has the blocks of the first one, and its lists have the same members. -/
structure Same (d e : Document R S) : Prop where
  /-- The same blocks are alive, and they are as they were. -/
  blocks : ∀ id, e.get? id = d.get? id
  /-- The lists have their members. -/
  members : ∀ l, e.tree.members l = d.tree.members l

/-- Where a branch is attached, the document is not the same any more. -/
theorem same_iff_of_adds {d e : Document R S} {l : ListId} {ids : List NodeId}
    {bs : List (Branch (Block R S))} (h : d.tree.Adds e.tree l ids bs)
    (hnone : bs = [] → d.Same e) : d.Same e ↔ bs = [] := by
  refine ⟨fun hsame => ?_, hnone⟩
  cases h.shows with
  | nil => rfl
  | @cons top b _ _ hshows _ =>
    have halive : (e.get? top).isSome := by
      obtain ⟨n, hn⟩ := Option.isSome_iff_exists.mp hshows.contains
      exact Option.isSome_iff_exists.mpr ⟨n.item, Tree.get?_of_node? hn⟩
    have hdead := h.fresh top List.mem_cons_self
    rw [hsame.blocks] at halive
    have hcontains : d.tree.contains top := by
      obtain ⟨a, ha⟩ := Option.isSome_iff_exists.mp halive
      obtain ⟨n, hn, -⟩ := Option.map_eq_some_iff.mp ha
      exact Option.isSome_iff_exists.mpr ⟨n, hn⟩
    exact absurd (hdead.symm.trans hcontains) Bool.false_ne_true

end

/-- A paste attaches what is read, and answers with the error if there is one. -/
theorem paste_eq (d : Project) (l : ListId) (bytes : Bytes) :
    d.paste l bytes =
      (match (Record.harvest bytes).fault with
        | some e => .error e
        | none => .ok (d.attachAll l (Record.harvest bytes).blocks).1,
        (d.attachAll l (Record.harvest bytes).blocks).2) := by
  simp only [paste, Record.harvest]
  cases (Record.readAll (RawChunk.split bytes).broken (RawChunk.split bytes).chunks).fault <;> rfl

/-- **What a paste that fails leaves behind**: the blocks that were read before the error, at the
tail of the list. If that is none, the document is the same, and otherwise it is not. -/
theorem failed_paste {d : Project} {l : ListId} {bytes : Bytes} {error : CodecError}
    (hl : (d.tree.list? l).isSome) (h : (d.paste l bytes).1 = .error error) :
    (Record.harvest bytes).fault = some error ∧
      (∃ t, (d.paste l bytes).2 = d.withTree t) ∧
      (∃ ids, d.tree.Adds (d.paste l bytes).2.tree l ids (Record.harvest bytes).blocks) ∧
      (d.Same (d.paste l bytes).2 ↔ (Record.harvest bytes).blocks = []) := by
  have hadds := d.adds_attachAll hl (Record.harvest bytes).blocks
  rw [paste_eq] at h ⊢
  refine ⟨?_, exists_attachAll d l _, ⟨_, hadds⟩, same_iff_of_adds hadds fun hnone => ?_⟩
  · dsimp only at h
    split at h
    · rename_i e he
      obtain rfl := Except.error.inj h
      exact he
    · cases h
  · rw [hnone]
    exact ⟨fun _ => rfl, fun _ => rfl⟩

/-- The bytes of a template that claims two children, with a point for the first one only. -/
def childMissing : Bytes :=
  Chunk.frame BlockKind.template.tag
    (Chunk.frame Record.countTag (littleEndian 4 2) ++ Chunk.frame BlockKind.point.tag [])

theorem failed_paste_childMissing :
    let d : Project := Document.new "paste"
    (d.tree.list? d.root).isSome ∧ (d.paste d.root childMissing).1 = .error (.truncated 1 0) ∧
      (∃ ids, d.tree.Adds (d.paste d.root childMissing).2.tree d.root ids
        (Record.harvest childMissing).blocks) ∧
      (Record.harvest childMissing).blocks.map Branch.size = [2] := by
  intro d
  have herror : (d.paste d.root childMissing).1 = .error (.truncated 1 0) := by decide +kernel
  obtain ⟨-, -, hadds, -⟩ := failed_paste (d := d) (l := d.root) rfl herror
  exact ⟨by decide +kernel, herror, hadds, by decide +kernel⟩

/-- **A paste that fails does not leave the document as it was**: behind the record of a point there
is one byte more, and the point is there although the paste failed. -/
theorem failed_paste_not_same :
    let d : Project := Document.new "paste"
    let bytes := Chunk.frame BlockKind.point.tag [] ++ [0]
    (d.paste d.root bytes).1 = .error (.truncated 4 0) ∧ d.blockCount = 0 ∧
      (d.paste d.root bytes).2.blockCount = 1 ∧ ¬ d.Same (d.paste d.root bytes).2 := by
  intro d bytes
  refine ⟨by decide +kernel, by decide +kernel, by decide +kernel, fun hsame => ?_⟩
  have hnew : ((d.paste d.root bytes).2.get? ⟨0⟩).isSome = true := by decide +kernel
  have hold : (d.get? ⟨0⟩).isSome = false := by decide +kernel
  rw [hsame.blocks, hold] at hnew
  cases hnew

end Document

end Toolpath
