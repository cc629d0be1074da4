import Toolpath.Project.File
import Toolpath.Proofs.Project.Records

/-!
# Files written and read

A file that a project was written to is read as a draft of that project: its metadata, and the
branches of its top level as they are saved. What the reader makes of a draft is another matter;
here it is only taken off the bytes.

The resolution is the one number that the reader refuses to take as it is written.

## Main definitions

* `ProjectFile.draft` — the draft of a project
* `ProjectFile.file` — a file with a body

## Main results

* `ProjectFile.encode_spec` — what is written, and that it fits
* `ProjectFile.exists_encode` — a project has a file if that is not too long
* `ProjectFile.decode_encoded` — what is written is read as the draft
-/

namespace Toolpath

namespace ProjectFile

/-- What a file keeps of a project. -/
def draft (d : Project) : Draft where
  name := d.name
  notes := d.notes
  number := d.number
  machine := d.machine
  material := d.material
  resolution := d.voxels.resolution
  blocks := (d.forest d.root).map (Branch.map Block.saved)

/-! ### The header -/

/-- A file with a body. -/
def file (body : Bytes) : Bytes :=
  CodecError.magic ++ littleEndian 4 (headerSize + body.length) ++ (Leaf.wordBytes version ++ body)

theorem length_file (body : Bytes) : (file body).length = headerSize + body.length := by
  simp only [file, List.length_append, length_littleEndian, Leaf.wordBytes, headerSize,
    CodecError.magic, List.length_cons, List.length_nil]
  omega

/-- What is written behind the magic before the total length is filled in. -/
theorem unpatched_spec {w₀ w : ChunkWriter} {cs : List Chunk}
    (h₀ : w₀.out.Parted CodecError.magic [])
    (h : ((w₀.raw (littleEndian 4 0)).raw (Leaf.wordBytes version)).writeAll cs = .ok w) :
    w.out.Parted (CodecError.magic ++ littleEndian 4 0 ++
        (Leaf.wordBytes version ++ Chunk.bytesOfAll cs)) [] ∧
      w.position = headerSize + (Chunk.bytesOfAll cs).length ∧ Chunk.FitsAll cs := by
  have hlength := ChunkWriter.parted_append h₀ (littleEndian 4 0)
  obtain ⟨hout, hfits⟩ :=
    ChunkWriter.writeAll_spec (ChunkWriter.parted_append hlength (Leaf.wordBytes version)) h
  rw [List.append_assoc, List.drop_nil] at hout
  refine ⟨hout, hout.place.trans ?_, hfits⟩
  rw [← length_file, file]
  simp only [List.length_append, length_littleEndian]

theorem parted_magic : (ChunkWriter.empty.raw CodecError.magic).out.Parted CodecError.magic [] :=
  ChunkWriter.parted_append ChunkWriter.parted_empty CodecError.magic

/-- **A file is written from its chunks**, and they fit. -/
theorem encode_spec {d : Project} {bytes : Bytes} (h : encode d = .ok bytes) :
    bytes = file (Chunk.bytesOfAll (chunks d)) ∧ Chunk.FitsAll (chunks d) ∧
      bytes.length < UInt32.size := by
  have h₀ := parted_magic
  unfold encode at h
  generalize ChunkWriter.empty.raw CodecError.magic = w₀ at h h₀
  have hplace : w₀.position = CodecError.magic.length := h₀.place
  simp only [ChunkWriter.placeholder, hplace] at h
  split at h
  · cases h
  · rename_i w hw
    obtain ⟨hout, hposition, hfits⟩ := unpatched_spec h₀ hw
    cases hp : w.patch CodecError.magic.length w.position with
    | error e => rw [hp] at h; cases h
    | ok w' =>
      rw [hp] at h
      obtain rfl := Except.ok.inj h
      rw [hposition] at hp
      obtain ⟨hout, hlt⟩ := ChunkWriter.patch_spec hout hp
      have hfinal : w'.toBytes = file (Chunk.bytesOfAll (chunks d)) :=
        hout.bytes.trans (List.append_nil _)
      refine ⟨hfinal, hfits, ?_⟩
      rw [hfinal]
      exact Nat.lt_of_le_of_lt (Nat.le_of_eq (length_file _)) hlt

/-- **A project has a file**, if that is not too long. -/
theorem exists_encode {d : Project}
    (h : headerSize + Chunk.sizeOfAll (chunks d) < UInt32.size) :
    ∃ bytes, encode d = .ok bytes := by
  rw [← Chunk.length_bytesOfAll] at h
  have h₀ := parted_magic
  unfold encode
  generalize ChunkWriter.empty.raw CodecError.magic = w₀ at h₀
  obtain ⟨w, hw⟩ := ChunkWriter.exists_writeAll
    (w := (w₀.raw (littleEndian 4 0)).raw (Leaf.wordBytes version))
    (Chunk.fitsAll_of_length (Nat.lt_of_le_of_lt (Nat.le_add_left _ _) h))
  obtain ⟨-, hposition, -⟩ := unpatched_spec h₀ hw
  simp only [ChunkWriter.placeholder, hw, hposition]
  rw [ChunkWriter.patch, if_pos h]
  exact ⟨_, rfl⟩

/-- A file of some version with a body, and bytes behind its end. -/
def layout (v body rest : Bytes) : Bytes :=
  CodecError.magic ++ (littleEndian 4 (headerSize + body.length) ++ (v ++ (body ++ rest)))

theorem file_eq_layout (body : Bytes) : file body = layout (Leaf.wordBytes version) body [] := by
  rw [file, layout, List.append_nil, List.append_assoc]

/-- The body of a file is found again, and what is behind its end is not looked at. -/
theorem readHeader_layout {v body : Bytes} (hv : v.length = 4)
    (hbody : headerSize + body.length < UInt32.size) (rest : Bytes) :
    readHeader (layout v body rest) =
      if version < UInt32.ofNat (ofLittleEndian v) then
        .error (.unsupportedVersion (UInt32.ofNat (ofLittleEndian v)))
      else .ok body := by
  have hlength : (layout v body rest).length = headerSize + body.length + rest.length := by
    simp only [layout, List.length_append, length_littleEndian, hv, headerSize, CodecError.magic,
      List.length_cons, List.length_nil]
    omega
  have hmagic : (layout v body rest).take 4 = CodecError.magic := List.take_left' rfl
  have htotal : ofLittleEndian (((layout v body rest).drop 4).take 4) =
      headerSize + body.length := by
    have hdrop : (layout v body rest).drop 4 =
        littleEndian 4 (headerSize + body.length) ++ (v ++ (body ++ rest)) := List.drop_left' rfl
    rw [hdrop, List.take_left' (length_littleEndian 4 _), ofLittleEndian_littleEndian]
    exact Nat.mod_eq_of_lt hbody
  have hversion : ((layout v body rest).drop 8).take 4 = v := by
    have hdrop : (layout v body rest).drop 8 = v ++ (body ++ rest) := by
      rw [layout, ← List.append_assoc]
      exact List.drop_left' (by rw [List.length_append, length_littleEndian]; rfl)
    rw [hdrop, List.take_left' hv]
  have htaken : ((layout v body rest).take (headerSize + body.length)).drop headerSize = body := by
    have hparts : layout v body rest =
        (CodecError.magic ++ littleEndian 4 (headerSize + body.length) ++ v) ++ (body ++ rest) := by
      simp only [layout, List.append_assoc]
    have hheader : (CodecError.magic ++ littleEndian 4 (headerSize + body.length) ++ v).length =
        headerSize := by
      simp only [List.length_append, length_littleEndian, hv]
      rfl
    rw [List.drop_take, hparts, List.drop_left' hheader, Nat.add_sub_cancel_left]
    exact List.take_left
  have hsize : ¬ (layout v body rest).length < headerSize := by omega
  have hreach : ¬ ((layout v body rest).length < headerSize + body.length ∨
      headerSize + body.length < headerSize) := by omega
  simp only [readHeader, hmagic, htotal, hversion, htaken, hsize, hreach, if_false, ne_eq,
    not_true_eq_false]

theorem readHeader_file {body : Bytes} (h : (file body).length < UInt32.size) :
    readHeader (file body) = .ok body := by
  have hversion : (Leaf.wordBytes version).length = 4 := length_littleEndian 4 _
  rw [file_eq_layout, readHeader_layout hversion (length_file body ▸ h)]
  exact if_neg (by decide)

/-! ### Fields -/

/-- A field that replaces something of a draft. -/
theorem readFields_cons {field : Draft → UInt8 → Read Draft} {d e : Draft} {c : Chunk}
    {cs : List Chunk} {r : Except CodecError Draft}
    (h : Read.within c.body (field d c.tag) = .ok e)
    (hrest : readFields field none e (cs.map Chunk.raw) = r) :
    readFields field none d ((c :: cs).map Chunk.raw) = r := by
  rw [List.map_cons, Chunk.raw, readFields, h]
  exact hrest

theorem readFields_machine (d : Draft) (m : Machine) :
    readFields readMachineField none d
      ([Leaf.text 0 m.name, Leaf.byte 1 m.options, Leaf.byte 2 m.controller.toByte,
        Leaf.byte 3 m.decimals].map Chunk.raw) = .ok { d with machine := m } := by
  refine readFields_cons (Read.within_of_on (Read.on_text _) _) ?_
  refine readFields_cons (Read.within_of_on (Read.takes_u8 _).on _) ?_
  refine readFields_cons (Read.within_of_on (Read.takes_u8 _).on _) ?_
  refine readFields_cons (Read.within_of_on (Read.takes_u8 _).on _) ?_
  exact congrArg (fun controller => Except.ok { d with machine := { m with controller } })
    (Controller.ofByte_toByte m.controller)

/-- The fields of the document but for the resolution, whatever follows them. -/
theorem readFields_settings (d : Draft) (name notes : String) (number : UInt32)
    (m : Material Double) {cs : List Chunk} {r : Except CodecError Draft}
    (hrest : readFields readDocumentField none { d with name, notes, number, material := m }
      (cs.map Chunk.raw) = r) :
    readFields readDocumentField none d
      ((Leaf.text 0 name :: Leaf.byte 1 m.units.toByte :: Leaf.byte 2 m.kind.toByte ::
        Leaf.doubles 3 m.size.toList :: Leaf.doubles 4 m.origin.toList ::
        Leaf.double 5 m.clearance :: Leaf.text 6 notes :: Leaf.word 7 number :: cs).map
        Chunk.raw) = r := by
  have hmaterial : { m with
      units := Units.ofByte m.units.toByte, kind := MaterialKind.ofByte m.kind.toByte } = m := by
    rw [Units.ofByte_toByte, MaterialKind.ofByte_toByte]
  rw [← hmaterial] at hrest
  refine readFields_cons (Read.within_of_on (Read.on_text _) _) ?_
  refine readFields_cons (Read.within_of_on (Read.takes_u8 _).on _) ?_
  refine readFields_cons (Read.within_of_on (Read.takes_u8 _).on _) ?_
  refine readFields_cons (Read.within_of_on (Read.takes_vec3 _).on _) ?_
  refine readFields_cons (Read.within_of_on (Read.takes_vec3 _).on _) ?_
  refine readFields_cons (Read.within_of_on (Read.takes_f64 _).on _) ?_
  refine readFields_cons (Read.within_of_on (Read.on_text _) _) ?_
  refine readFields_cons (Read.within_of_on (Read.takes_u32 _).on _) ?_
  exact hrest

theorem on_readResolution (resolution : UInt32) :
    readResolution.on (Leaf.wordBytes resolution) =
      if resolution = 0 ∨ VoxelField.maxResolution < resolution then
        (.error (.outOfRange .voxelResolution resolution.toNat), [])
      else (.ok resolution, []) := by
  rw [readResolution, Read.on_bind_ok (Read.takes_u32 resolution).on]
  split <;> rfl

/-- The resolution is taken only from where a voxel field can have it. -/
theorem within_resolution (d : Draft) (resolution : UInt32) :
    Read.within (Leaf.word 8 resolution).body (readDocumentField d (Leaf.word 8 resolution).tag) =
      if resolution = 0 ∨ VoxelField.maxResolution < resolution then
        .error (.outOfRange .voxelResolution resolution.toNat)
      else .ok { d with resolution } := by
  have hfield : readDocumentField d 8 =
      readResolution >>= fun resolution => pure { d with resolution } := rfl
  rw [Leaf.word, Leaf.words, Chunk.tag, Chunk.body, List.flatMap_singleton, hfield, Read.within,
    Read.on_bind, on_readResolution]
  by_cases hbad : resolution = 0 ∨ VoxelField.maxResolution < resolution
  · rw [if_pos hbad, if_pos hbad]
  · rw [if_neg hbad, if_neg hbad]
    rfl

theorem readFields_document (d : Draft) (name notes : String) (number : UInt32)
    (m : Material Double) (resolution : UInt32) (hzero : resolution ≠ 0)
    (hmax : resolution ≤ VoxelField.maxResolution) :
    readFields readDocumentField none d
      ([Leaf.text 0 name, Leaf.byte 1 m.units.toByte, Leaf.byte 2 m.kind.toByte,
        Leaf.doubles 3 m.size.toList, Leaf.doubles 4 m.origin.toList, Leaf.double 5 m.clearance,
        Leaf.text 6 notes, Leaf.word 7 number, Leaf.word 8 resolution].map Chunk.raw) =
      .ok { d with name, notes, number, material := m, resolution } := by
  have hgood : ¬ (resolution = 0 ∨ VoxelField.maxResolution < resolution) :=
    not_or.mpr ⟨hzero, UInt32.not_lt.mpr hmax⟩
  have hlast := within_resolution { d with name, notes, number, material := m } resolution
  rw [if_neg hgood] at hlast
  exact readFields_settings d name notes number m (readFields_cons hlast rfl)

/-! ### The top level -/

theorem readChunk_document {d : Project} {e : Draft}
    (hfits : (documentChunk d).Fits) (hzero : d.voxels.resolution ≠ 0)
    (hmax : d.voxels.resolution ≤ VoxelField.maxResolution) :
    readChunk e (documentChunk d).raw =
      .ok { e with
        name := d.name, notes := d.notes, number := d.number, material := d.material,
        resolution := d.voxels.resolution } := by
  rw [readChunk, Chunk.raw, documentChunk, Chunk.tag, Chunk.body, if_pos rfl,
    RawChunk.split_bytesOfAll hfits.2]
  exact readFields_document e d.name d.notes d.number d.material _ hzero hmax

theorem readChunk_machine {m : Machine} {e : Draft} (hfits : (machineChunk m).Fits) :
    readChunk e (machineChunk m).raw = .ok { e with machine := m } := by
  have hne : machineTag ≠ documentTag := by decide
  rw [readChunk, Chunk.raw, machineChunk, Chunk.tag, Chunk.body, if_neg hne, if_pos rfl,
    RawChunk.split_bytesOfAll hfits.2]
  exact readFields_machine e m

/-- The tag of a kind is none of the tags beside records. -/
theorem tag_ne (k : BlockKind) : k.tag ≠ documentTag ∧ k.tag ≠ machineTag := by
  cases k <;> decide

theorem readChunk_record {b : Branch StoredBlock} {e : Draft} (hfits : (Record.chunk b).Fits)
    (hstorable : b.Every Block.Storable) (hheight : b.height ≤ Record.maxDepth) :
    readChunk e (Record.chunk b).raw =
      .ok { e with blocks := e.blocks ++ [b.map Block.saved] } := by
  have hread : Record.read (Record.chunk b).raw = ⟨[b.map Block.saved], none⟩ :=
    Record.readTo_chunk hfits hstorable (Nat.lt_succ_of_le hheight)
  have htag : (Record.chunk b).raw.1 ≠ documentTag ∧ (Record.chunk b).raw.1 ≠ machineTag := by
    obtain ⟨a, ls⟩ := b
    exact tag_ne a.kind
  rw [readChunk, if_neg htag.1, if_neg htag.2, hread]

theorem readChunks_records {bs : List (Branch StoredBlock)} {e : Draft}
    (hfits : Chunk.FitsAll (Record.chunks bs)) (hstorable : ∀ b ∈ bs, b.Every Block.Storable)
    (hheight : ∀ b ∈ bs, b.height ≤ Record.maxDepth) :
    readChunks none e ((Record.chunks bs).map Chunk.raw) =
      .ok { e with blocks := e.blocks ++ bs.map (Branch.map Block.saved) } := by
  induction bs generalizing e with
  | nil => simp [Record.chunks, readChunks]
  | cons b bs ih =>
    have hb := readChunk_record (e := e) hfits.1 (hstorable b List.mem_cons_self)
      (hheight b List.mem_cons_self)
    have hrest := ih (e := { e with blocks := e.blocks ++ [b.map Block.saved] }) hfits.2
      (fun b hb => hstorable b (List.mem_cons_of_mem _ hb))
      (fun b hb => hheight b (List.mem_cons_of_mem _ hb))
    rw [Record.chunks, List.map_cons, readChunks, hb]
    simpa using hrest

/-- **What is written is read as the draft.** -/
theorem decode_encoded {d : Project} {bytes : Bytes} (h : encode d = .ok bytes)
    (hzero : d.voxels.resolution ≠ 0) (hmax : d.voxels.resolution ≤ VoxelField.maxResolution)
    (hstorable : ∀ b ∈ d.forest d.root, b.Every Block.Storable)
    (hheight : ∀ b ∈ d.forest d.root, b.height ≤ Record.maxDepth) :
    decode bytes = .ok (draft d).finish := by
  obtain ⟨rfl, hfits, hlt⟩ := encode_spec h
  rw [decode, readHeader_file hlt]
  simp only [RawChunk.split_bytesOfAll hfits]
  rw [chunks] at hfits ⊢
  rw [List.map_cons, List.map_cons, readChunks, readChunk_document hfits.1 hzero hmax]
  simp only [readChunks, readChunk_machine hfits.2.1]
  rw [readChunks_records hfits.2.2 hstorable hheight]
  rfl

end ProjectFile

end Toolpath
