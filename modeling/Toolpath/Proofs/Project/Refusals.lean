import Toolpath.Proofs.Project.RoundTrip

/-!
# What is written and not read

The writer knows one limit, the length of a chunk. The reader has four more: the resolution of the
voxel field, the depth of nesting, the slices of a mesh and the pixels of an image. So a project
can have a file that the same version refuses.

What the reader objects to is told from the project, without its file: the resolution first, and
then the blocks in the order of their records, each before those below it. A block that is too deep
is refused before anything of it is read.

## Main definitions

* `Record.objection?`, `Document.objection?` — what the reader has against a branch and a project
* `Document.Readable` — a project that keeps the limits of the reader

## Main results

* `Record.fault_readTo` — a record that was written is refused for what is against its branch
* `ProjectFile.decode_of_encode` — a file is refused for what is against its project, and for
  nothing else
* `ProjectFile.decodes_iff_readable` — the projects that are restored from their files
-/

namespace Toolpath

/-- What the reader has against a payload. -/
def Payload.objection? : StoredPayload → Option CodecError
  | .mesh m =>
    if Mesh.maxSlices < m.slices.toNat then some (.outOfRange .sliceCount m.slices.toNat) else none
  | .image r =>
    if r.pixels.size < r.pixelCount then some (.outOfRange .pixelCount r.pixelCount) else none
  | _ => none

theorem Payload.objection?_eq_none_iff {p : StoredPayload} :
    p.objection? = none ↔ p.InLimits := by
  cases p with
  | mesh m => exact ite_eq_right_iff.trans (by simp [InLimits])
  | image r => exact ite_eq_right_iff.trans (by simp [InLimits])
  | _ => exact iff_of_true rfl trivial

namespace Record

/-- What the reader has against a branch when so many levels are left to it. -/
def objection? : Nat → Branch StoredBlock → Option CodecError
  | 0, _ => some (.recursionLimit maxDepth)
  | levels + 1, .node b ls =>
    match b.payload.objection? with
    | some e => some e
    | none => ls.flatten.findSome? (objection? levels)

/-- The reader has nothing against a branch that is not too deep and keeps the limits. -/
theorem objection?_eq_none_iff {levels : Nat} {b : Branch StoredBlock} :
    objection? levels b = none ↔ b.height < levels ∧ ∀ a ∈ b.labels, a.payload.InLimits := by
  induction levels generalizing b with
  | zero => simp [objection?]
  | succ levels ih =>
    obtain ⟨a, ls⟩ := b
    have hlabels : (∀ c ∈ (Branch.node a ls).labels, c.payload.InLimits) ↔
        a.payload.InLimits ∧ ∀ l ∈ ls, ∀ b ∈ l, ∀ c ∈ b.labels, c.payload.InLimits := by
      rw [Branch.labels_node, List.forall_mem_cons]
      simp only [List.mem_flatMap, forall_exists_index, and_imp]
      exact and_congr_right fun _ => ⟨fun h l hl b hb c hc => h c l hl b hb hc,
        fun h c l hl b hb hc => h l hl b hb c hc⟩
    rw [objection?, Nat.lt_succ_iff, Branch.height_node_le_iff, hlabels,
      ← Payload.objection?_eq_none_iff]
    cases a.payload.objection? with
    | some e => simp
    | none =>
      simp only [List.findSome?_eq_none_iff, List.mem_flatten, ih, forall_exists_index, and_imp]
      constructor
      · intro h
        exact ⟨fun l hl b hb => (h b l hl hb).1, trivial, fun l hl b hb => (h b l hl hb).2⟩
      · rintro ⟨hheight, -, hlimits⟩ b l hl hb
        exact ⟨hheight l hl b hb, hlimits l hl b hb⟩

/-! ### Records -/

theorem finish_of_head (b : StoredBlock) :
    Draft.finish { payload := b.payload.bare, comment := b.comment, flags := b.flags } =
      match b.payload.objection? with
      | some e => .error e
      | none => .ok b.saved := by
  obtain ⟨p, comment, flags, code, status⟩ := b
  cases p with
  | mesh m =>
    by_cases h : Mesh.maxSlices < m.slices.toNat
    · simp only [Payload.objection?, if_pos h]
      exact if_pos h
    · simp only [Payload.objection?, if_neg h]
      exact if_neg h
  | image r =>
    by_cases h : r.pixels.size < r.pixelCount
    · simp only [Payload.objection?, if_pos h]
      exact if_pos h
    · simp only [Payload.objection?, if_neg h]
      exact if_neg h
  | _ => rfl

section Children

variable {read : RawChunk → Harvest} {refuse : Branch StoredBlock → Option CodecError}
  {bs : List (Branch StoredBlock)}

/-- Children are read up to the first one that is refused. -/
theorem snd_readChildren (h : ∀ b ∈ bs, (read (chunk b).raw).fault = refuse b)
    (broken : Option CodecError) :
    (readChildren read broken bs.length ((chunks bs).map Chunk.raw)).2 =
      match bs.findSome? refuse with
      | some e => .error e
      | none => .ok [] := by
  induction bs with
  | nil => rfl
  | cons b bs ih =>
    rw [chunks, List.map_cons, List.length_cons, readChildren, List.findSome?_cons]
    simp only [h b List.mem_cons_self]
    cases refuse b with
    | some e => rfl
    | none => exact ih fun b hb => h b (List.mem_cons_of_mem _ hb)

/-- A container is refused for itself, and otherwise for the first of its children. -/
theorem fault_readCounted (h : ∀ b ∈ bs, (read (chunk b).raw).fault = refuse b) {d : Draft}
    (hd : ∀ block, d.finish = .ok block → block.kind.isContainer = true)
    (hlength : bs.length < UInt32.size) :
    (readCounted read none d (Leaf.word countTag (UInt32.ofNat bs.length)).body
        ((chunks bs).map Chunk.raw)).fault =
      match d.finish with
      | .error e => some e
      | .ok _ => bs.findSome? refuse := by
  have hcount : Read.within (Leaf.word countTag (UInt32.ofNat bs.length)).body Read.u32 =
      .ok (UInt32.ofNat bs.length) := by
    rw [Read.within, Leaf.word, Leaf.words, Chunk.body, List.flatMap_singleton,
      (Read.takes_u32 _).on]
  cases hfinish : d.finish with
  | error e => simp only [readCounted, hcount, hfinish]
  | ok block =>
    simp only [readCounted, hcount, hfinish, hd block hfinish, if_true,
      UInt32.toNat_ofNat_of_lt' hlength, snd_readChildren h]
    cases bs.findSome? refuse <;> rfl

end Children

/-- **A record that was written is refused for what is against its branch.** -/
theorem fault_readTo {levels : Nat} {b : Branch StoredBlock} (hfits : (chunk b).Fits)
    (hshaped : b.Every Block.Shaped) :
    (readTo levels (chunk b).raw).fault = objection? levels b := by
  induction levels generalizing b with
  | zero => rfl
  | succ levels ih =>
    obtain ⟨a, ls⟩ := b
    obtain ⟨hshape, hbelow⟩ := Branch.every_node_iff.mp hshaped
    have hfinish := finish_of_head a
    rw [chunk] at hfits ⊢
    rw [readTo_group hfits.2, List.map_append, readBody_head, objection?]
    rcases hshape.lists with ⟨-, rfl⟩ | ⟨hcontainer, bs, rfl⟩
    · simp only [childChunks, List.map_nil, readBody, hfinish]
      cases a.payload.objection? <;> rfl
    · have hchildren : ∀ b ∈ bs, (readTo levels (chunk b).raw).fault = objection? levels b :=
        fun b hb => ih (fits_child hfits hb) (hbelow bs List.mem_cons_self b hb)
      rw [childChunks, List.map_cons, Chunk.raw, Leaf.word, Leaf.words, Chunk.tag, readBody_count,
        List.flatten_singleton]
      have hlength := length_chunks_le hfits
      refine (fault_readCounted hchildren (fun block hblock => ?_) hlength).trans ?_
      · rw [hfinish] at hblock
        split at hblock
        · cases hblock
        · obtain rfl := Except.ok.inj hblock
          exact (Block.kind_saved a).symm ▸ hcontainer
      · rw [hfinish]
        cases a.payload.objection? <;> rfl

end Record

/-! ### Projects -/

namespace Document

/-- What the reader has against the file of a project. -/
def objection? (d : Project) : Option CodecError :=
  if d.voxels.resolution = 0 ∨ VoxelField.maxResolution < d.voxels.resolution then
    some (.outOfRange .voxelResolution d.voxels.resolution.toNat)
  else (d.forest d.root).findSome? (Record.objection? (Record.maxDepth + 1))

/-- The project keeps the limits of the reader. -/
structure Readable (d : Project) : Prop where
  /-- The resolution is in range. -/
  resolution : 1 ≤ d.voxels.resolution ∧ d.voxels.resolution ≤ VoxelField.maxResolution
  /-- No block is too deep. -/
  depth : ∀ b ∈ d.forest d.root, b.height ≤ Record.maxDepth
  /-- No mesh has too many slices, and every image has its pixels. -/
  limits : ∀ b ∈ d.forest d.root, ∀ a ∈ b.labels, a.payload.InLimits

theorem objection?_eq_none_iff {d : Project} : d.objection? = none ↔ d.Readable := by
  have hrange : ¬ (d.voxels.resolution = 0 ∨ VoxelField.maxResolution < d.voxels.resolution) ↔
      1 ≤ d.voxels.resolution ∧ d.voxels.resolution ≤ VoxelField.maxResolution := by
    rw [ProjectFile.resolution_in_range_iff, not_or, UInt32.not_lt]
  by_cases hbad : d.voxels.resolution = 0 ∨ VoxelField.maxResolution < d.voxels.resolution
  · rw [objection?, if_pos hbad]
    exact iff_of_false nofun fun h => hrange.mpr h.resolution hbad
  · rw [objection?, if_neg hbad, List.findSome?_eq_none_iff]
    constructor
    · intro h
      have hnone := fun b hb => Record.objection?_eq_none_iff.mp (h b hb)
      exact ⟨hrange.mp hbad, fun b hb => Nat.le_of_lt_succ (hnone b hb).1,
        fun b hb => (hnone b hb).2⟩
    · intro h b hb
      exact Record.objection?_eq_none_iff.mpr ⟨Nat.lt_succ_of_le (h.depth b hb), h.limits b hb⟩

end Document

namespace ProjectFile

open Document

theorem readChunk_document_refused {d : Project} {e : Draft} (hfits : (documentChunk d).Fits)
    (hbad : d.voxels.resolution = 0 ∨ VoxelField.maxResolution < d.voxels.resolution) :
    readChunk e (documentChunk d).raw =
      .error (.outOfRange .voxelResolution d.voxels.resolution.toNat) := by
  have hlast := within_resolution
    { e with name := d.name, notes := d.notes, number := d.number, material := d.material }
    d.voxels.resolution
  rw [if_pos hbad] at hlast
  rw [readChunk, Chunk.raw, documentChunk, Chunk.tag, Chunk.body, if_pos rfl,
    RawChunk.split_bytesOfAll hfits.2]
  refine readFields_settings e d.name d.notes d.number d.material ?_
  rw [List.map_cons, Chunk.raw, readFields, hlast]

theorem readChunk_record_refused {b : Branch StoredBlock} {e : Draft} {error : CodecError}
    (hfits : (Record.chunk b).Fits) (hshaped : b.Every Block.Shaped)
    (h : Record.objection? (Record.maxDepth + 1) b = some error) :
    readChunk e (Record.chunk b).raw = .error error := by
  have hread : (Record.read (Record.chunk b).raw).fault = some error :=
    (Record.fault_readTo hfits hshaped).trans h
  have htag : (Record.chunk b).raw.1 ≠ documentTag ∧ (Record.chunk b).raw.1 ≠ machineTag := by
    obtain ⟨a, ls⟩ := b
    exact tag_ne a.kind
  simp only [readChunk, if_neg htag.1, if_neg htag.2, hread]

/-- Records are read up to the first one that is refused. -/
theorem readChunks_records_refused {bs : List (Branch StoredBlock)} {e : Draft} {error : CodecError}
    (hfits : Chunk.FitsAll (Record.chunks bs)) (hshaped : ∀ b ∈ bs, b.Every Block.Shaped)
    (h : bs.findSome? (Record.objection? (Record.maxDepth + 1)) = some error) :
    readChunks none e ((Record.chunks bs).map Chunk.raw) = .error error := by
  induction bs generalizing e with
  | nil => cases h
  | cons b bs ih =>
    have hshape := hshaped b List.mem_cons_self
    rw [Record.chunks, List.map_cons, readChunks]
    cases hb : Record.objection? (Record.maxDepth + 1) b with
    | some error' =>
      rw [List.findSome?_cons, hb] at h
      obtain rfl := Option.some.inj h
      rw [readChunk_record_refused hfits.1 hshape hb]
    | none =>
      rw [List.findSome?_cons, hb] at h
      obtain ⟨hheight, hlimits⟩ := Record.objection?_eq_none_iff.mp hb
      rw [readChunk_record hfits.1 (hshape.and_labels hlimits) (Nat.le_of_lt_succ hheight)]
      exact ih hfits.2 (fun b hb => hshaped b (List.mem_cons_of_mem _ hb)) h

/-- **A file is refused for what is against its project**, and for nothing else. -/
theorem decode_of_encode {d : Project} {bytes : Bytes} (hd : d.Regular)
    (h : encode d = .ok bytes) :
    decode bytes =
      match d.objection? with
      | some e => .error e
      | none => .ok (draft d).finish := by
  obtain ⟨-, hshaped⟩ := hd.forest_shows
  cases hobjection : d.objection? with
  | none =>
    obtain ⟨hresolution, hdepth, hlimits⟩ := objection?_eq_none_iff.mp hobjection
    obtain ⟨hzero, hmax⟩ := resolution_in_range_iff.mp hresolution
    exact decode_encoded h hzero hmax
      (fun b hb => (hshaped b hb).and_labels (hlimits b hb)) hdepth
  | some error =>
    obtain ⟨rfl, hfits, hlt⟩ := encode_spec h
    rw [decode, readHeader_file hlt]
    simp only [RawChunk.split_bytesOfAll hfits]
    rw [chunks] at hfits ⊢
    rw [List.map_cons, List.map_cons, readChunks]
    rw [objection?] at hobjection
    split at hobjection
    case isTrue hbad =>
      obtain rfl := Option.some.inj hobjection
      rw [readChunk_document_refused hfits.1 hbad]
      rfl
    case isFalse hgood =>
      obtain ⟨hzero, hmax⟩ := not_or.mp hgood
      rw [readChunk_document hfits.1 hzero (UInt32.not_lt.mp hmax)]
      simp only [readChunks, readChunk_machine hfits.2.1]
      rw [readChunks_records_refused hfits.2.2 hshaped hobjection]
      rfl

/-- **A project is restored from its file if and only if it keeps the limits of the reader.**
Otherwise its file is refused. -/
theorem decodes_iff_readable {d : Project} {bytes : Bytes} (hd : Made d)
    (h : encode d = .ok bytes) :
    ((∃ e, decode bytes = .ok e ∧ e.Restores d) ↔ d.Readable) ∧
      (¬ d.Readable → ∃ error, d.objection? = some error ∧ decode bytes = .error error) := by
  have hdecode := decode_of_encode hd.regular h
  rw [← objection?_eq_none_iff]
  cases hobjection : d.objection? with
  | none =>
    rw [hobjection] at hdecode
    exact ⟨iff_of_true ⟨_, hdecode, restores_finish d⟩ rfl, fun hne => absurd rfl hne⟩
  | some error =>
    rw [hobjection] at hdecode
    refine ⟨iff_of_false ?_ nofun, fun _ => ⟨error, rfl, hdecode⟩⟩
    rintro ⟨e, he, -⟩
    rw [hdecode] at he
    cases he

/-- A mesh that is to be cut into as many slices as a mesh may have. -/
theorem decodes_iff_readable_mesh :
    let d : Project := ((Document.new "mesh" : Project).add
      { payload := .mesh (Mesh.ofTriangles [] (UInt32.ofNat Mesh.maxSlices)) }).2
    Made d ∧ ∃ bytes e, encode d = .ok bytes ∧ decode bytes = .ok e ∧ e.Restores d := by
  intro d
  have hmade : Made d := (Made.new _).add _
  obtain ⟨bytes, h⟩ := exists_encode (d := d) (by decide +kernel)
  have hreadable : d.Readable := objection?_eq_none_iff.mp (by decide +kernel)
  obtain ⟨e, he, hrestores⟩ := (decodes_iff_readable hmade h).1.mpr hreadable
  exact ⟨hmade, bytes, e, h, he, hrestores⟩

/-! ### Files that are refused -/

/-- Templates within templates, so many. -/
def nested (levels : Nat) : Project :=
  (List.range levels).foldl
    (fun d k => (d.push ⟨k⟩ { payload := Payload.standard .template }).2) (Document.new "nested")

/-- A mesh without triangles that is to be cut into so many slices. -/
def sliced (slices : UInt32) : Project :=
  ((Document.new "sliced" : Project).add { payload := .mesh (Mesh.ofTriangles [] slices) }).2

theorem made_nested (levels : Nat) : Made (nested levels) :=
  List.foldlRecOn _ _ (Made.new _) fun _ hd _ _ => hd.push _ _

theorem made_sliced (slices : UInt32) : Made (sliced slices) := (Made.new _).add _

/-- A project that is not too long has a file, and the file is refused for what is against it. -/
theorem refused_of_objection {d : Project} {error : CodecError} (hd : Made d)
    (h : headerSize + Chunk.sizeOfAll (chunks d) < UInt32.size ∧ d.objection? = some error) :
    ∃ bytes, encode d = .ok bytes ∧ decode bytes = .error error := by
  obtain ⟨hsize, hobjection⟩ := h
  obtain ⟨bytes, hbytes⟩ := exists_encode hsize
  have hdecode := decode_of_encode hd.regular hbytes
  rw [hobjection] at hdecode
  exact ⟨bytes, hbytes, hdecode⟩

/-- **Some projects have a file that is refused**: that of sixty-six templates within one another,
and that of a mesh with one slice too many. -/
theorem exists_refused :
    (Made (nested 66) ∧ ∃ bytes, encode (nested 66) = .ok bytes ∧
      decode bytes = .error (.recursionLimit Record.maxDepth)) ∧
    (Made (sliced 4097) ∧ ∃ bytes, encode (sliced 4097) = .ok bytes ∧
      decode bytes = .error (.outOfRange .sliceCount 4097)) :=
  ⟨⟨made_nested 66, refused_of_objection (made_nested 66) (by decide +kernel)⟩,
    made_sliced 4097, refused_of_objection (made_sliced 4097) (by decide +kernel)⟩

end ProjectFile

end Toolpath
