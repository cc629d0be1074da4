import Toolpath.Project.File
import Toolpath.Proofs.Document.Forest
import Toolpath.Proofs.Project.Harvests

/-!
# Drafts

A draft is all that the reader hands over. What a file may say is settled when its draft is there:
whatever the bytes were, the resolution is in range and the blocks are in canonical form. The
project that is made of a draft has its settings and holds its blocks, and nothing else.

## Main definitions

* `ProjectFile.Draft.Canonical` — a draft as reading makes it

## Main results

* `ProjectFile.holdsForest_finish` — the project of a draft holds its blocks
* `ProjectFile.decode_eq_ok` — a project that was decoded is that of such a draft
-/

namespace Toolpath

namespace ProjectFile

/-! ### The project of a draft -/

/-- The project of a draft has the settings of the draft. -/
theorem exists_finish (e : Draft) : ∃ t root, e.finish =
    { name := e.name, notes := e.notes, number := e.number, machine := e.machine,
      material := e.material, voxels := VoxelField.solid e.resolution e.material.size,
      tree := t, root } := by
  obtain ⟨t, ht⟩ := Document.exists_attachAll
    { (Document.new e.name : Project) with
      notes := e.notes, number := e.number, machine := e.machine, material := e.material }
    (Document.new e.name : Project).root e.blocks
  refine ⟨t, (Document.new e.name : Project).root, ?_⟩
  exact congrArg (fun d : Project => d.setResolution e.resolution) ht

/-- **The project of a draft holds its blocks.** -/
theorem holdsForest_finish (e : Draft) : e.finish.HoldsForest e.blocks := by
  have hnew := Document.holdsForest_new (R := Double) (S := Single) e.name
  have hempty : Document.HoldsForest
      { (Document.new e.name : Project) with
        notes := e.notes, number := e.number, machine := e.machine, material := e.material } [] :=
    hnew.of_eq rfl rfl
  exact (hempty.attachAll e.blocks).of_eq rfl rfl

/-! ### Reading a draft -/

/-- A draft as reading makes it from so many bytes. -/
structure Draft.Canonical (e : Draft) (size : Nat) : Prop where
  /-- The resolution is one that a field can have. -/
  resolution : e.resolution ≠ 0 ∧ e.resolution ≤ VoxelField.maxResolution
  /-- The blocks are those of records. -/
  blocks : Record.Yields (Record.maxDepth + 1) size e.blocks

theorem within_eq_ok {α : Type} {body : Bytes} {step : Read α} {a : α} :
    Read.within body step = .ok a ↔ ∃ rest, step.on body = (.ok a, rest) := by
  rw [Read.within]
  constructor
  · intro h
    exact ⟨(step.on body).2, Prod.ext h rfl⟩
  · rintro ⟨rest, h⟩
    rw [h]

section Fields

variable {d e : Draft} {size : Nat} {body rest : Bytes}

/-- A field that replaces neither the resolution nor the blocks. -/
theorem Draft.Canonical.of_setting {α : Type} {step : Read α} {f : α → Draft}
    (hd : d.Canonical size) (h : (step >>= fun a => pure (f a)).on body = (.ok e, rest))
    (hf : ∀ a, (f a).resolution = d.resolution ∧ (f a).blocks = d.blocks) : e.Canonical size := by
  obtain ⟨a, left, -, hpure⟩ := Read.on_bind_eq_ok h
  obtain rfl := Except.ok.inj (Prod.mk.inj hpure).1
  obtain ⟨hresolution, hblocks⟩ := hf a
  exact ⟨hresolution ▸ hd.resolution, hblocks ▸ hd.blocks⟩

theorem resolution_of_readResolution {r : UInt32} (h : readResolution.on body = (.ok r, rest)) :
    r ≠ 0 ∧ r ≤ VoxelField.maxResolution := by
  obtain ⟨r', left, -, h⟩ := Read.on_bind_eq_ok h
  split at h
  · cases h
  · rename_i hrange
    obtain rfl := Except.ok.inj (Prod.mk.inj h).1
    obtain ⟨hzero, hmax⟩ := not_or.mp hrange
    exact ⟨hzero, UInt32.not_lt.mp hmax⟩

theorem canonical_documentField {tag : UInt8} (hd : d.Canonical size)
    (h : Read.within body (readDocumentField d tag) = .ok e) : e.Canonical size := by
  obtain ⟨rest, h⟩ := within_eq_ok.mp h
  unfold readDocumentField at h
  split at h
  case h_9 =>
    obtain ⟨r, left, hr, hpure⟩ := Read.on_bind_eq_ok h
    obtain rfl := Except.ok.inj (Prod.mk.inj hpure).1
    exact ⟨resolution_of_readResolution hr, hd.blocks⟩
  case h_10 =>
    obtain rfl := Except.ok.inj (Prod.mk.inj h).1
    exact hd
  all_goals exact hd.of_setting h fun _ => ⟨rfl, rfl⟩

theorem canonical_machineField {tag : UInt8} (hd : d.Canonical size)
    (h : Read.within body (readMachineField d tag) = .ok e) : e.Canonical size := by
  obtain ⟨rest, h⟩ := within_eq_ok.mp h
  unfold readMachineField at h
  split at h
  case h_5 =>
    obtain rfl := Except.ok.inj (Prod.mk.inj h).1
    exact hd
  all_goals exact hd.of_setting h fun _ => ⟨rfl, rfl⟩

theorem canonical_readFields {field : Draft → UInt8 → Read Draft} {broken : Option CodecError}
    (hfield : ∀ {d e : Draft} {tag : UInt8} {body : Bytes}, d.Canonical size →
      Read.within body (field d tag) = .ok e → e.Canonical size)
    {cs : List RawChunk} (hd : d.Canonical size) (h : readFields field broken d cs = .ok e) :
    e.Canonical size := by
  induction cs generalizing d with
  | nil => exact (readFields_nil_eq_ok_iff.mp h).2 ▸ hd
  | cons c cs ih =>
    obtain ⟨d', hd', h⟩ := readFields_cons_eq_ok_iff.mp h
    exact ih (hfield hd hd') h

end Fields

/-! ### Reading a file -/

theorem Draft.Canonical.mono {e : Draft} {size size' : Nat} (h : e.Canonical size)
    (hsize : size ≤ size') : e.Canonical size' :=
  ⟨h.resolution, h.blocks.mono hsize⟩

theorem canonical_readChunk {d e : Draft} {size : Nat} {c : RawChunk} (hd : d.Canonical size)
    (h : readChunk d c = .ok e) : e.Canonical (size + c.size) := by
  simp only [readChunk] at h
  split at h
  · exact (canonical_readFields canonical_documentField hd h).mono (Nat.le_add_right _ _)
  · split at h
    · exact (canonical_readFields canonical_machineField hd h).mono (Nat.le_add_right _ _)
    · split at h
      · cases h
      · obtain rfl := Except.ok.inj h
        exact ⟨hd.resolution, hd.blocks.append (Record.yields_readTo _ c)⟩

theorem canonical_readChunks {broken : Option CodecError} {cs : List RawChunk} {d e : Draft}
    {size : Nat} (hd : d.Canonical size) (h : readChunks broken d cs = .ok e) :
    e.Canonical (size + RawChunk.sizes cs) := by
  induction cs generalizing d size with
  | nil => exact (readChunks_nil_eq_ok_iff.mp h).2 ▸ hd
  | cons c cs ih =>
    obtain ⟨d', hd', h⟩ := readChunks_cons_eq_ok_iff.mp h
    rw [RawChunk.sizes_cons, ← Nat.add_assoc]
    exact ih (canonical_readChunk hd hd') h

theorem length_readHeader {bytes body : Bytes} (h : readHeader bytes = .ok body) :
    headerSize + body.length ≤ bytes.length := by
  obtain ⟨-, -, hfrom, hto, rfl⟩ := readHeader_eq_ok_iff.mp h
  rw [List.length_drop, List.length_take_of_le hto, Nat.add_sub_cancel' hfrom]
  exact hto

/-- **A project that was decoded is that of a draft in canonical form.** -/
theorem decode_eq_ok {bytes : Bytes} {d : Project} (h : decode bytes = .ok d) :
    ∃ e : Draft, d = e.finish ∧ e.Canonical (bytes.length - headerSize) := by
  obtain ⟨body, e, hbody, he, rfl⟩ := decode_eq_ok_iff.mp h
  have hstart : ({} : Draft).Canonical 0 := ⟨⟨by decide, by decide⟩, .nil _ _⟩
  refine ⟨e, rfl, (canonical_readChunks hstart he).mono ?_⟩
  have hlength := length_readHeader hbody
  have hsizes := RawChunk.sizes_split body
  omega

end ProjectFile

end Toolpath
