import Toolpath.Proofs.Project.Drafts
import Toolpath.Proofs.Project.Files
import Toolpath.Proofs.Project.Made
import Toolpath.Proofs.Stock.Solid

/-!
# Projects written and read

A project that is made by operations of documents is restored from its file. What it has to fulfil
is what the reader asks for and the operations do not promise: the depth of nesting, the resolution
of the voxel field and the limits of two kinds of payload.

The other way round, a project that comes out of the reader fulfils all of it, whatever the bytes
were. So it is restored from its own file, and after that nothing changes any more.

## Main definitions

* `Document.Restores` — a project is another one as its file gives it back
* `Document.WellFormed` — what holds of every project that was decoded

## Main results

* `ProjectFile.restores_of_made` — a project is restored from its file
* `ProjectFile.wellFormed_of_decode` — a project that was decoded is well formed, and is restored
  exactly
-/

namespace Toolpath

namespace Document

/-- A project is another one as its file gives it back: with the same settings, the voxel field
solid again and every block as it is saved. -/
structure Restores (e d : Project) : Prop where
  /-- The name. -/
  name : e.name = d.name
  /-- The notes. -/
  notes : e.notes = d.notes
  /-- The project number. -/
  number : e.number = d.number
  /-- The machine. -/
  machine : e.machine = d.machine
  /-- The stock. -/
  material : e.material = d.material
  /-- The voxel field is new, with the resolution that it had. -/
  voxels : e.voxels = VoxelField.solid d.voxels.resolution d.material.size
  /-- The blocks of the top level, with everything below them. -/
  forest : e.forest e.root = (d.forest d.root).map (Branch.map Block.saved)

/-- What holds of every project that was decoded. -/
structure WellFormed (d : Project) : Prop where
  /-- Every list passes its own check. -/
  validate : ∀ l, (d.tree.list? l).isSome → d.tree.validate l = true
  /-- A container owns one list, and another block owns none. -/
  lists : ∀ id b, d.get? id = some b →
    (d.tree.childLists id).length = if b.kind.isContainer then 1 else 0
  /-- The lists of a block are those that it owns. -/
  owner : ∀ l id, d.tree.owner? l = some id ↔ l ∈ d.tree.childLists id
  /-- Every block is in a list. -/
  linked : ∀ id, d.tree.contains id → (d.tree.listOf? id).isSome
  /-- Every block is below the top level, not too deep. -/
  depth : ∀ id, d.tree.contains id → ∃ top ∈ d.tree.members d.root, ∃ levels ≤ Record.maxDepth,
    d.tree.links.Descends levels top id
  /-- The resolution is in range. -/
  resolution : 1 ≤ d.voxels.resolution ∧ d.voxels.resolution ≤ VoxelField.maxResolution
  /-- The voxel field is a new one for the stock. -/
  voxels : d.voxels = VoxelField.solid d.voxels.resolution d.material.size
  /-- Every cell is solid. -/
  solid : ∀ x y z, d.voxels.inside x y z → d.voxels.get? x y z = some 1
  /-- A mesh has not too many slices, and the contours of its triangles. -/
  mesh : ∀ id m, d.payload? id = some (.mesh m) →
    m.slices.toNat ≤ Mesh.maxSlices ∧ m.contours = m.slicesOf
  /-- An image has a value for every pixel. -/
  image : ∀ id r, d.payload? id = some (.image r) → r.columns.toNat * r.rows.toNat ≤ r.pixels.size

end Document

namespace ProjectFile

open Document

theorem resolution_in_range_iff {r : UInt32} : 1 ≤ r ∧ r ≤ VoxelField.maxResolution ↔
    r ≠ 0 ∧ r ≤ VoxelField.maxResolution := by
  have hone : 1 ≤ r ↔ r ≠ 0 := by
    rw [UInt32.le_iff_toNat_le, ne_eq, ← UInt32.toNat_inj]
    exact Nat.one_le_iff_ne_zero
  rw [hone]

theorem restores_finish (d : Project) : (draft d).finish.Restores d := by
  have hforest := (holdsForest_finish (draft d)).forest_root
  obtain ⟨t, root, hfinish⟩ := exists_finish (draft d)
  rw [hfinish] at hforest ⊢
  exact ⟨rfl, rfl, rfl, rfl, rfl, rfl, hforest⟩

/-- A project that the reader has nothing against is restored. -/
theorem restores_of_storable {d : Project} {bytes : Bytes} (h : encode d = .ok bytes)
    (hzero : d.voxels.resolution ≠ 0) (hmax : d.voxels.resolution ≤ VoxelField.maxResolution)
    (hstorable : ∀ b ∈ d.forest d.root, b.Every Block.Storable)
    (hheight : ∀ b ∈ d.forest d.root, b.height ≤ Record.maxDepth) :
    ∃ e, decode bytes = .ok e ∧ e.Restores d :=
  ⟨_, decode_encoded h hzero hmax hstorable hheight, restores_finish d⟩

/-- **A project is restored from its file.** -/
theorem restores_of_made {d : Project} {bytes : Bytes} (hd : Made d) (h : encode d = .ok bytes)
    (hresolution : 1 ≤ d.voxels.resolution ∧ d.voxels.resolution ≤ VoxelField.maxResolution)
    (hdepth : ∀ b ∈ d.forest d.root, b.height ≤ Record.maxDepth)
    (hmesh : ∀ b ∈ d.forest d.root, ∀ a ∈ b.labels, ∀ m, a.payload = .mesh m →
      m.slices.toNat ≤ Mesh.maxSlices)
    (himage : ∀ b ∈ d.forest d.root, ∀ a ∈ b.labels, ∀ r, a.payload = .image r →
      r.columns.toNat * r.rows.toNat ≤ r.pixels.size) :
    ∃ e, decode bytes = .ok e ∧ e.Restores d := by
  obtain ⟨hzero, hmax⟩ := resolution_in_range_iff.mp hresolution
  obtain ⟨-, hshaped⟩ := hd.regular.forest_shows
  refine restores_of_storable h hzero hmax (fun b hb => ?_) hdepth
  refine (hshaped b hb).and_labels fun a ha => ?_
  cases hp : a.payload with
  | mesh m => exact hmesh b hb a ha m hp
  | image r => exact himage b hb a ha r hp
  | _ => trivial

/-- A block of every kind at the top level, and a point among the children of the first
container. -/
def everyKind : Project :=
  let d := BlockKind.all.foldl (fun d k => (d.add { payload := Payload.standard k }).2)
    (Document.new "every kind" : Project)
  (d.push ⟨1⟩ { payload := Payload.standard .point }).2

theorem restores_of_made_everyKind :
    (everyKind.forest everyKind.root).map Branch.size = [1, 1, 2] ++ List.replicate 13 1 ∧
      ∃ bytes e, encode everyKind = .ok bytes ∧ decode bytes = .ok e ∧ e.Restores everyKind := by
  have hmade : Made everyKind := by
    unfold everyKind
    refine Made.push ?_ _ _
    exact List.foldlRecOn _ _ (Made.new _) fun _ hd k _ => hd.add _
  obtain ⟨bytes, h⟩ := exists_encode (d := everyKind) (by decide +kernel)
  have hdepth : ∀ b ∈ everyKind.forest everyKind.root, b.height ≤ Record.maxDepth := by
    decide +kernel
  have hlimits : ∀ b ∈ everyKind.forest everyKind.root, ∀ a ∈ b.labels, a.payload.InLimits := by
    decide +kernel
  have hkept : ∀ {b}, b ∈ everyKind.forest everyKind.root → ∀ {a}, a ∈ b.labels → ∀ {p},
      a.payload = p → p.InLimits := by
    rintro b hb a ha p rfl
    exact hlimits b hb a ha
  obtain ⟨e, he, hrestores⟩ := restores_of_made hmade h (by decide +kernel) hdepth
    (fun b hb a ha m hm => hkept hb ha hm) (fun b hb a ha r hr => hkept hb ha hr)
  exact ⟨by decide +kernel, bytes, e, h, he, hrestores⟩

/-! ### Whatever the bytes were -/

theorem linked_of_descends {t : Tree StoredBlock} {l : ListId} {top id : NodeId} {levels : Nat}
    (htop : top ∈ t.members l) (h : t.links.Descends levels top id) : (t.listOf? id).isSome := by
  have hmem : ∃ k, id ∈ t.members k := by
    cases levels with
    | zero => exact ⟨l, h ▸ htop⟩
    | succ levels =>
      obtain ⟨x, -, y, ⟨n, k, -, -, hy⟩, rfl⟩ := Links.descends_add.mp h
      exact ⟨k, hy⟩
  obtain ⟨k, hk⟩ := hmem
  rw [Tree.listOf?, t.sound.holds.listOf?_eq_some_iff.mpr hk]
  rfl

theorem canonical_of_get?_finish {e : Draft} {size : Nat} (he : e.Canonical size) {id : NodeId}
    {b : StoredBlock} (hb : e.finish.get? id = some b) :
    b.Canonical (e.finish.tree.childLists id).length := by
  obtain ⟨n, hn, rfl⟩ := Option.map_eq_some_iff.mp hb
  rw [Tree.childLists_of_node? hn]
  exact (holdsForest_finish e).each he.blocks.canonical hn

theorem inLimits_of_payload?_finish {e : Draft} {size : Nat} (he : e.Canonical size) {id : NodeId}
    {p : StoredPayload} (hp : e.finish.payload? id = some p) : p.InLimits ∧ p.derived = p := by
  obtain ⟨b, hb, rfl⟩ := Option.map_eq_some_iff.mp hp
  obtain ⟨hstorable, hsaved⟩ := canonical_of_get?_finish he hb
  exact ⟨hstorable.2, congrArg Block.payload hsaved⟩

theorem voxels_finish {e : Draft} {size : Nat} (he : e.Canonical size) :
    e.finish.voxels.resolution = e.resolution ∧
      e.finish.voxels = VoxelField.solid e.resolution e.finish.material.size := by
  obtain ⟨t, root, hfinish⟩ := exists_finish e
  rw [hfinish]
  exact ⟨VoxelField.clampResolution_of_range he.resolution.1 he.resolution.2, rfl⟩

theorem wellFormed_finish {e : Draft} {size : Nat} (he : e.Canonical size) :
    e.finish.WellFormed := by
  have hholds := holdsForest_finish e
  obtain ⟨hresolution, hvoxels⟩ := voxels_finish he
  constructor
  case validate => exact fun l hl => e.finish.tree.sound.holds.validate_eq_true hl
  case lists => exact fun id b hb => (canonical_of_get?_finish he hb).1.1
  case owner =>
    intro l id
    refine (e.finish.tree.sound.owner_eq_some_iff).trans ?_
    rw [Tree.childLists, Tree.node?]
    cases hn : e.finish.tree.links.node? id with
    | none => simp
    | some n => simp
  case linked =>
    intro id hid
    obtain ⟨top, htop, levels, hlevels, -⟩ := hholds.exists_branch hid
    exact linked_of_descends htop hlevels
  case depth =>
    intro id hid
    obtain ⟨top, htop, levels, hlevels, b, hb, c, -, hheight, -⟩ := hholds.exists_branch hid
    have hlt := he.blocks.height b hb
    exact ⟨top, htop, levels, by omega, hlevels⟩
  case resolution => exact hresolution ▸ resolution_in_range_iff.mpr he.resolution
  case voxels => rw [hresolution, hvoxels]
  case solid =>
    intro x y z hinside
    rw [hvoxels] at hinside ⊢
    exact VoxelField.get?_solid hinside
  case mesh =>
    intro id m hm
    obtain ⟨hlimits, hderived⟩ := inLimits_of_payload?_finish he hm
    have hrebuild : m.rebuild = m := Payload.mesh.inj hderived
    exact ⟨hlimits, (congrArg Mesh.contours hrebuild).symm⟩
  case image => exact fun id r hr => (inLimits_of_payload?_finish he hr).1

/-- **A project that was decoded is well formed**, has no more blocks than there was room for, and
is restored exactly from its own file. -/
theorem wellFormed_of_decode {bytes : Bytes} {d : Project} (h : decode bytes = .ok d) :
    d.WellFormed ∧ d.blockCount ≤ (bytes.length - headerSize) / 5 ∧
      ∀ bytes', encode d = .ok bytes' → ∃ e, decode bytes' = .ok e ∧ e.Restores d ∧
        e.voxels = d.voxels ∧ e.forest e.root = d.forest d.root := by
  obtain ⟨e, rfl, he⟩ := decode_eq_ok h
  have hholds := holdsForest_finish e
  have hwell := wellFormed_finish he
  refine ⟨hwell, ?_, fun bytes' h' => ?_⟩
  · have hcount := hholds.blockCount_le
    have hsize := he.blocks.size
    omega
  · obtain ⟨hzero, hmax⟩ := resolution_in_range_iff.mp hwell.resolution
    have hforest := hholds.forest_root
    obtain ⟨f, hf, hrestores⟩ := restores_of_storable h' hzero hmax
      (fun b hb => (he.blocks.canonical b (hforest ▸ hb)).imp fun _ _ h => h.1)
      (fun b hb => Nat.le_of_lt_succ (he.blocks.height b (hforest ▸ hb)))
    refine ⟨f, hf, hrestores, hrestores.voxels.trans hwell.voxels.symm, ?_⟩
    rw [hrestores.forest, hforest]
    refine (List.map_congr_left fun b hb => ?_).trans (List.map_id _)
    exact (he.blocks.canonical b hb).map_eq_self fun _ _ h => h.2

/-- The bytes of a template that claims a child, a chunk that is no kind, and a byte behind the
end. -/
def template : Bytes :=
  CodecError.magic ++ littleEndian 4 (headerSize + 29) ++ Leaf.wordBytes version ++
    Chunk.frame BlockKind.template.tag
      (Chunk.frame Record.countTag (littleEndian 4 1) ++ Chunk.frame BlockKind.point.tag []) ++
    Chunk.frame 9 [1, 2, 3, 4, 5] ++ [7]

theorem wellFormed_of_decode_template : ∃ d, decode template = .ok d ∧ d.WellFormed ∧
    d.blockCount ≤ 6 := by
  have hok : (decode template).isOk = true := by decide +kernel
  cases h : decode template with
  | error e => rw [h] at hok; cases hok
  | ok d =>
    obtain ⟨hwell, hcount, -⟩ := wellFormed_of_decode h
    exact ⟨d, rfl, hwell, hcount⟩

end ProjectFile

end Toolpath
