import Toolpath.Proofs.Chunk.Cutting
import Toolpath.Proofs.Project.Refusals

/-!
# Files that are cut

A file says how long it is, so a part of it is refused before anything of it is read. A part whose
header is corrected is a file again, and what becomes of it depends on where it was cut. Between two
chunks of the top level nothing is amiss: the file is that of a project with fewer chunks, with the
blocks in front of the cut and standard settings for those behind it. Anywhere else some chunk of
the top level is not there to its end. That is noticed before anything in it is read, so no part of
a record is ever taken for the whole.

## Main definitions

* `ProjectFile.cutTo` — the first bytes of a file, with a header that says so
* `ProjectFile.boundary` — the place behind the first chunks of the top level
* `Document.RestoresFirst` — a project is another one as the first chunks of its file give it back

## Main results

* `ProjectFile.readChunks_take` — the first chunks are read as what they hold
* `ProjectFile.decode_boundary`, `ProjectFile.decode_within` — a cut between chunks and within one
* `ProjectFile.decode_cut` — where a file may be cut, with a corrected header and without
-/

namespace Toolpath

namespace Document

/-- The project, or a new one if nothing is known of it. -/
def orNew (d : Project) (known : Bool) : Project := if known then d else Document.new ""

/-- A project is another one as the first `k` chunks of its file give it back. The first one holds
the settings, the second one the machine, and every further one a block of the top level with
everything below it. -/
structure RestoresFirst (e d : Project) (k : Nat) : Prop where
  /-- The name. -/
  name : e.name = (d.orNew (0 < k)).name
  /-- The notes. -/
  notes : e.notes = (d.orNew (0 < k)).notes
  /-- The project number. -/
  number : e.number = (d.orNew (0 < k)).number
  /-- The stock. -/
  material : e.material = (d.orNew (0 < k)).material
  /-- The voxel field is new. -/
  voxels : e.voxels =
    VoxelField.solid (d.orNew (0 < k)).voxels.resolution (d.orNew (0 < k)).material.size
  /-- The machine. -/
  machine : e.machine = (d.orNew (1 < k)).machine
  /-- The project holds the first blocks of the top level with everything below them, and no other
  block. -/
  blocks : e.HoldsForest (((d.forest d.root).take (k - 2)).map (Branch.map Block.saved))

end Document

namespace ProjectFile

open Document

/-! ### Cuts -/

/-- The first `n` bytes of a file, with a header that says so. -/
def cutTo (bytes : Bytes) (n : Nat) : Bytes :=
  bytes.take 4 ++ littleEndian 4 n ++ (bytes.take n).drop 8

/-- The place behind the header and the first `k` chunks of the top level. -/
def boundary (d : Project) (k : Nat) : Nat :=
  headerSize + (Chunk.bytesOfAll ((chunks d).take k)).length

/-- A file that is cut is a file again. -/
theorem cutTo_file {body : Bytes} {n : Nat} (h : n ≤ body.length) :
    cutTo (file body) (headerSize + n) = file (body.take n) := by
  have hmagic : (file body).take 4 = CodecError.magic := by
    rw [file, List.append_assoc]
    exact List.take_left' rfl
  have hbehind : (file body).drop 8 = Leaf.wordBytes version ++ body :=
    List.drop_left' (by rw [List.length_append, length_littleEndian]; rfl)
  have hsize : headerSize + n - 8 = (Leaf.wordBytes version).length + n := by
    rw [headerSize, Leaf.wordBytes, length_littleEndian]
    omega
  rw [cutTo, List.drop_take, hmagic, hbehind, hsize, List.take_length_add_append, file,
    List.length_take, Nat.min_eq_left h]

/-- The chunks that end in front of a boundary are the first ones. -/
theorem boundary_le_iff {d : Project} {i k : Nat} (hi : i ≤ (chunks d).length)
    (hk : k ≤ (chunks d).length) : boundary d i ≤ boundary d k ↔ i ≤ k := by
  rw [boundary, boundary, Nat.add_le_add_iff_left]
  constructor
  · intro h
    by_contra hlt
    exact absurd (Chunk.length_take_lt (Nat.lt_of_not_le hlt) hi) (Nat.not_lt.mpr h)
  · intro h
    rcases Nat.eq_or_lt_of_le h with rfl | hlt
    · exact Nat.le_refl _
    · exact Nat.le_of_lt (Chunk.length_take_lt hlt hk)

/-! ### The first chunks -/

/-- What the first `k` chunks of a file hold. -/
def draftFirst (d : Project) (k : Nat) : Draft where
  name := (d.orNew (0 < k)).name
  notes := (d.orNew (0 < k)).notes
  number := (d.orNew (0 < k)).number
  machine := (d.orNew (1 < k)).machine
  material := (d.orNew (0 < k)).material
  resolution := (d.orNew (0 < k)).voxels.resolution
  blocks := ((d.forest d.root).take (k - 2)).map (Branch.map Block.saved)

theorem restoresFirst_finish (d : Project) (k : Nat) :
    (draftFirst d k).finish.RestoresFirst d k := by
  have hblocks := holdsForest_finish (draftFirst d k)
  obtain ⟨t, root, hfinish⟩ := exists_finish (draftFirst d k)
  rw [hfinish] at hblocks ⊢
  exact ⟨rfl, rfl, rfl, rfl, rfl, rfl, hblocks⟩

/-- **The first chunks are read as what they hold.** -/
theorem readChunks_take {d : Project} (hd : d.Regular) (hread : d.Readable)
    (hfits : Chunk.FitsAll (chunks d)) (k : Nat) :
    readChunks none {} (((chunks d).take k).map Chunk.raw) = .ok (draftFirst d k) := by
  obtain ⟨hzero, hmax⟩ := resolution_in_range_iff.mp hread.resolution
  obtain ⟨-, hshaped⟩ := hd.forest_shows
  rw [chunks] at hfits ⊢
  rcases k with _ | _ | k
  · rfl
  · simp only [List.take_succ_cons, List.take_zero, List.map_cons, List.map_nil, readChunks,
      readChunk_document hfits.1 hzero hmax]
    rfl
  · have hrecords : (Record.chunks (d.forest d.root)).take k =
        Record.chunks ((d.forest d.root).take k) := by
      rw [Record.chunks_eq_map, Record.chunks_eq_map, List.map_take]
    have hfirst : Chunk.FitsAll (Record.chunks ((d.forest d.root).take k)) := by
      rw [← hrecords]
      exact Chunk.fitsAll_iff.mpr fun c hc =>
        Chunk.fitsAll_iff.mp hfits.2.2 c (List.mem_of_mem_take hc)
    have hmem {b : Branch StoredBlock} (hb : b ∈ (d.forest d.root).take k) :
        b ∈ d.forest d.root := List.mem_of_mem_take hb
    rw [List.take_succ_cons, List.take_succ_cons, List.map_cons, List.map_cons, readChunks,
      readChunk_document hfits.1 hzero hmax]
    simp only [readChunks, readChunk_machine hfits.2.1]
    rw [hrecords, readChunks_records hfirst
      (fun b hb => (hshaped b (hmem hb)).and_labels (hread.limits b (hmem hb)))
      (fun b hb => hread.depth b (hmem hb))]
    rfl

/-- What is wrong behind the chunks is told once they are read. -/
theorem readChunks_broken {e : Draft} {cs : List RawChunk} (broken : CodecError) {d : Draft}
    (h : readChunks none d cs = .ok e) : readChunks (some broken) d cs = .error broken := by
  induction cs generalizing d with
  | nil => rfl
  | cons c cs ih =>
    rw [readChunks] at h ⊢
    cases hc : readChunk d c with
    | error _ => rw [hc] at h; cases h
    | ok d' =>
      rw [hc] at h
      exact ih h

/-! ### Files with a corrected header -/

section Corrected

variable {d : Project} {bytes : Bytes} (hd : d.Regular) (hread : d.Readable)
  (h : encode d = .ok bytes)

include hd hread h

/-- **Between two chunks a file may be cut**: what is left is what the first chunks hold. -/
theorem decode_boundary (k : Nat) :
    decode (cutTo bytes (boundary d k)) = .ok (draftFirst d k).finish := by
  obtain ⟨rfl, hfits, hlt⟩ := encode_spec h
  rw [length_file] at hlt
  have hle : (Chunk.bytesOfAll ((chunks d).take k)).length ≤
      (Chunk.bytesOfAll (chunks d)).length := by
    rw [Chunk.bytesOfAll_take_drop (chunks d) k, List.length_append]
    exact Nat.le_add_right _ _
  have hshort : (file ((Chunk.bytesOfAll (chunks d)).take
      (Chunk.bytesOfAll ((chunks d).take k)).length)).length < UInt32.size := by
    rw [length_file, List.length_take]
    omega
  rw [boundary, cutTo_file hle, decode, readHeader_file hshort]
  simp only [RawChunk.split_between hfits, readChunks_take hd hread hfits]
  rfl

/-- **Within a chunk a file may not be cut.** -/
theorem decode_within {k m : Nat} {c : Chunk} (hc : (chunks d)[k]? = some c) (hpos : 0 < m)
    (hlt : m < c.bytes.length) :
    decode (cutTo bytes (boundary d k + m)) = .error (Chunk.cutFault c.body.length m) := by
  obtain ⟨rfl, hfits, hsize⟩ := encode_spec h
  rw [length_file] at hsize
  obtain ⟨hk, hget⟩ := List.getElem?_eq_some_iff.mp hc
  have hle : (Chunk.bytesOfAll ((chunks d).take k)).length + m ≤
      (Chunk.bytesOfAll (chunks d)).length := by
    rw [Chunk.bytesOfAll_take_drop (chunks d) k, List.drop_eq_getElem_cons hk, hget,
      Chunk.bytesOfAll, List.length_append, List.length_append]
    omega
  have hshort : (file ((Chunk.bytesOfAll (chunks d)).take
      ((Chunk.bytesOfAll ((chunks d).take k)).length + m))).length < UInt32.size := by
    rw [length_file, List.length_take]
    omega
  rw [boundary, Nat.add_assoc, cutTo_file hle, decode, readHeader_file hshort]
  simp only [RawChunk.split_through hfits hc hpos hlt,
    readChunks_broken _ (readChunks_take hd hread hfits k)]
  rfl

end Corrected

/-! ### Files as they are -/

/-- The bytes of the header are the same in every part that reaches so far. -/
theorem take_drop_take {bytes : Bytes} {n i j : Nat} (h : i + j ≤ n) :
    ((bytes.take n).drop i).take j = (bytes.drop i).take j := by
  rw [List.drop_take, List.take_take, Nat.min_eq_left (by omega)]

theorem readHeader_take {body : Bytes} (hsize : (file body).length < UInt32.size) {n : Nat}
    (hn : n < (file body).length) :
    readHeader ((file body).take n) =
      .error (.truncated (if n < headerSize then headerSize else (file body).length) n) := by
  have hlength : ((file body).take n).length = n := List.length_take_of_le (Nat.le_of_lt hn)
  have hmagic (hfour : 4 ≤ n) : ((file body).take n).take 4 = CodecError.magic := by
    rw [List.take_take, Nat.min_eq_left hfour, file, List.append_assoc]
    exact List.take_left' rfl
  rw [readHeader, hlength]
  by_cases hheader : n < headerSize
  · simp only [if_pos hheader]
    rw [if_neg fun hbad => hbad.2 (hmagic hbad.1)]
  · have hle : 12 ≤ n := Nat.le_of_not_lt hheader
    have htotal : ofLittleEndian ((((file body).take n).drop 4).take 4) = (file body).length := by
      have hdrop : (file body).drop 4 = littleEndian 4 (headerSize + body.length) ++
          (Leaf.wordBytes version ++ body) := by
        rw [file, List.append_assoc]
        exact List.drop_left' rfl
      rw [take_drop_take (by omega), hdrop, List.take_left' (length_littleEndian 4 _),
        ofLittleEndian_littleEndian, ← length_file]
      exact Nat.mod_eq_of_lt hsize
    have hversion : ((((file body).take n).drop 8).take 4) = Leaf.wordBytes version := by
      have hdrop : (file body).drop 8 = Leaf.wordBytes version ++ body :=
        List.drop_left' (by rw [List.length_append, length_littleEndian]; rfl)
      rw [take_drop_take (by omega), hdrop]
      exact List.take_left' (length_littleEndian 4 _)
    have hnew : ¬ version < UInt32.ofNat (ofLittleEndian (Leaf.wordBytes version)) := by decide
    have hmax : max (file body).length headerSize = (file body).length :=
      Nat.max_eq_left (by rw [length_file]; exact Nat.le_add_right _ _)
    simp only [if_neg hheader, hmagic (Nat.le_trans (by decide) hle), htotal, hversion, hmax, ne_eq,
      not_true_eq_false, if_false, if_neg hnew, if_pos (Or.inl hn)]

/-- **A part of a file is refused** by its header alone. -/
theorem decode_take {d : Project} {bytes : Bytes} (h : encode d = .ok bytes) {n : Nat}
    (hn : n < bytes.length) :
    decode (bytes.take n) =
      .error (.truncated (if n < headerSize then headerSize else bytes.length) n) := by
  obtain ⟨rfl, -, hlt⟩ := encode_spec h
  rw [decode, readHeader_take hlt hn]

/-- **What is behind a file is not looked at.** -/
theorem decode_append {d : Project} {bytes : Bytes} (h : encode d = .ok bytes) (rest : Bytes) :
    decode (bytes ++ rest) = decode bytes := by
  obtain ⟨rfl, -, hlt⟩ := encode_spec h
  have hversion : (Leaf.wordBytes version).length = 4 := length_littleEndian 4 _
  have hlayout (body : Bytes) :
      file body ++ rest = layout (Leaf.wordBytes version) body rest := by
    simp only [file, layout, List.append_assoc]
  have hheader : readHeader (file (Chunk.bytesOfAll (chunks d)) ++ rest) =
      .ok (Chunk.bytesOfAll (chunks d)) := by
    rw [hlayout, readHeader_layout hversion (length_file _ ▸ hlt)]
    exact if_neg (by decide)
  rw [decode, decode, hheader, readHeader_file hlt]

/-- **Truncation is never silent inside a record.** With a corrected header a file may be cut
behind its header and behind every chunk of the top level, and then the chunks in front of the cut
are restored with all that they hold and the others leave no trace. Anywhere else it is refused as
truncated. With the header as it is every part of a file is refused, and further bytes behind a file
change nothing. -/
theorem decode_cut {d : Project} {bytes : Bytes} (hd : Made d) (hread : d.Readable)
    (h : encode d = .ok bytes) :
    (boundary d 0 = headerSize ∧ boundary d (chunks d).length = bytes.length ∧
      ∀ k ≤ (chunks d).length,
        (∀ i ≤ (chunks d).length, boundary d i ≤ boundary d k ↔ i ≤ k) ∧
        ∃ e, decode (cutTo bytes (boundary d k)) = .ok e ∧ e.RestoresFirst d k) ∧
    (∀ n, headerSize ≤ n → n ≤ bytes.length → (∀ k ≤ (chunks d).length, n ≠ boundary d k) →
      ∃ needed available, available < needed ∧
        decode (cutTo bytes n) = .error (.truncated needed available)) ∧
    (∀ n < bytes.length, ∃ needed, n < needed ∧
      decode (bytes.take n) = .error (.truncated needed n)) ∧
    ∃ e, decode bytes = .ok e ∧ e.Restores d ∧ ∀ rest, decode (bytes ++ rest) = .ok e := by
  have hsize : bytes.length = boundary d (chunks d).length := by
    rw [(encode_spec h).1, length_file, boundary, List.take_length]
  refine ⟨⟨rfl, hsize.symm, fun k hk => ⟨fun i hi => boundary_le_iff hi hk, _,
    decode_boundary hd.regular hread h k, restoresFirst_finish d k⟩⟩, fun n hlow hhigh hne => ?_,
    fun n hn => ⟨_, ?_, decode_take h hn⟩, ?_⟩
  · obtain ⟨p, rfl⟩ := Nat.exists_eq_add_of_le hlow
    have hp : p ≤ (Chunk.bytesOfAll (chunks d)).length := by
      rw [hsize, boundary, List.take_length] at hhigh
      omega
    rcases Chunk.exists_cut hp with ⟨k, hk, rfl⟩ | ⟨k, c, m, hc, hpos, hlt, rfl⟩
    · exact absurd rfl (hne k hk)
    · have hcut := decode_within hd.regular hread h hc hpos hlt
      rw [boundary, Nat.add_assoc] at hcut
      rw [Chunk.bytes_eq_frame, Chunk.length_frame] at hlt
      obtain ⟨needed, available, hfewer, hfault⟩ := Chunk.cutFault_eq hpos hlt
      exact ⟨needed, available, hfewer, hfault ▸ hcut⟩
  · split <;> assumption
  · have hwhole := decode_of_encode hd.regular h
    rw [objection?_eq_none_iff.mpr hread] at hwhole
    exact ⟨_, hwhole, restores_finish d, fun rest => (decode_append h rest).trans hwhole⟩

/-- A file with a block of every kind, cut behind the second block and within its first chunk. -/
theorem decode_cut_everyKind : Made everyKind ∧ everyKind.Readable ∧ ∃ bytes,
    encode everyKind = .ok bytes ∧
      (∃ e, decode (cutTo bytes (boundary everyKind 4)) = .ok e ∧
        (e.forest e.root).map Branch.size = [1, 1]) ∧
      ∃ needed available,
        decode (cutTo bytes (headerSize + 1)) = .error (.truncated needed available) := by
  have hmade : Made everyKind := by
    unfold everyKind
    refine Made.push ?_ _ _
    exact List.foldlRecOn _ _ (Made.new _) fun _ hd k _ => hd.add _
  have hreadable : everyKind.Readable := objection?_eq_none_iff.mp (by decide +kernel)
  obtain ⟨bytes, h⟩ := exists_encode (d := everyKind) (by decide +kernel)
  obtain ⟨⟨-, hsize, hbetween⟩, hwithin, -⟩ := decode_cut hmade hreadable h
  have hone : 1 ≤ (chunks everyKind).length := by decide +kernel
  have hfirst : headerSize + 1 < boundary everyKind 1 := by decide +kernel
  have hlast := (boundary_le_iff hone (Nat.le_refl _)).mpr hone
  have hno : ∀ k ≤ (chunks everyKind).length, headerSize + 1 ≠ boundary everyKind k := by
    intro k hk
    rcases Nat.eq_zero_or_pos k with rfl | hpos
    · decide
    · exact Nat.ne_of_lt (Nat.lt_of_lt_of_le hfirst ((boundary_le_iff hone hk).mpr hpos))
  obtain ⟨-, e, he, hrestores⟩ := hbetween 4 (by decide +kernel)
  obtain ⟨needed, available, -, hcut⟩ :=
    hwithin (headerSize + 1) (Nat.le_succ _) (by omega) hno
  refine ⟨hmade, hreadable, bytes, h, ⟨e, he, ?_⟩, needed, available, hcut⟩
  rw [hrestores.blocks.forest_root]
  decide +kernel

end ProjectFile

end Toolpath
