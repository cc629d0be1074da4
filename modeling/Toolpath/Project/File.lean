import Toolpath.Project.Record

/-!
# Project files

A project file is a header of twelve bytes — four that name the format, the total length and the
version — followed by a chunk for the document, one for the machine and a record for every block
of the top level. Chunks may come in any order and number; of what is given twice the last one
counts, and what is missing keeps its standard value. Bytes behind the total length are ignored.
-/

namespace Toolpath

namespace ProjectFile

/-- The version of the format. -/
def version : UInt32 := 0x100

/-- The number of bytes in the header. -/
def headerSize : Nat := 12

/-- The tag of the document chunk. -/
def documentTag : UInt8 := 0xF0

/-- The tag of the machine chunk. -/
def machineTag : UInt8 := 0xF1

/-! ### Writing -/

/-- The document chunk. -/
def documentChunk (d : Project) : Chunk :=
  .group documentTag
    [Leaf.text 0 d.name, Leaf.byte 1 d.material.units.toByte, Leaf.byte 2 d.material.kind.toByte,
      Leaf.doubles 3 d.material.size.toList, Leaf.doubles 4 d.material.origin.toList,
      Leaf.double 5 d.material.clearance, Leaf.text 6 d.notes, Leaf.word 7 d.number,
      Leaf.word 8 d.voxels.resolution]

/-- The machine chunk. -/
def machineChunk (m : Machine) : Chunk :=
  .group machineTag
    [Leaf.text 0 m.name, Leaf.byte 1 m.options, Leaf.byte 2 m.controller.toByte,
      Leaf.byte 3 m.decimals]

/-- The chunks of a project. -/
def chunks (d : Project) : List Chunk :=
  documentChunk d :: machineChunk d.machine :: Record.chunks (d.forest d.root)

/-- The bytes of a project. -/
def encode (d : Project) : Except CodecError Bytes :=
  let w := ChunkWriter.empty.raw CodecError.magic
  let (total, w) := w.placeholder
  let w := w.raw (Leaf.wordBytes version)
  match w.writeAll (chunks d) with
  | .error e => .error e
  | .ok w => (w.patch total w.position).map ChunkWriter.toBytes

/-! ### Reading -/

/-- A project while its chunks are read. -/
structure Draft where
  /-- The name. -/
  name : String := ""
  /-- The notes. -/
  notes : String := ""
  /-- The project number. -/
  number : UInt32 := 0
  /-- The machine. -/
  machine : Machine := {}
  /-- The stock. -/
  material : Material Double := Material.standard
  /-- The resolution of the voxel field. -/
  resolution : UInt32 := VoxelField.defaultResolution
  /-- The blocks of the top level. -/
  blocks : List (Branch StoredBlock) := []

/-- A resolution that a voxel field can have. -/
def readResolution : Read UInt32 := do
  let r ← Read.u32
  if r = 0 ∨ VoxelField.maxResolution < r then throw (.outOfRange .voxelResolution r.toNat)
  else return r

/-- A draft with a field of the document replaced. -/
def readDocumentField (d : Draft) (tag : UInt8) : Read Draft :=
  match tag with
  | 0 => return { d with name := ← Read.text }
  | 1 => return { d with material := { d.material with units := Units.ofByte (← Read.u8) } }
  | 2 => return { d with material := { d.material with kind := MaterialKind.ofByte (← Read.u8) } }
  | 3 => return { d with material := { d.material with size := ← Read.vec3 } }
  | 4 => return { d with material := { d.material with origin := ← Read.vec3 } }
  | 5 => return { d with material := { d.material with clearance := ← Read.f64 } }
  | 6 => return { d with notes := ← Read.text }
  | 7 => return { d with number := ← Read.u32 }
  | 8 => return { d with resolution := ← readResolution }
  | _ => return d

/-- A draft with a field of the machine replaced. -/
def readMachineField (d : Draft) (tag : UInt8) : Read Draft :=
  match tag with
  | 0 => return { d with machine := { d.machine with name := ← Read.text } }
  | 1 => return { d with machine := { d.machine with options := ← Read.u8 } }
  | 2 => return { d with machine := { d.machine with controller := Controller.ofByte (← Read.u8) } }
  | 3 => return { d with machine := { d.machine with decimals := ← Read.u8 } }
  | _ => return d

/-- Fields read one after the other. -/
def readFields (field : Draft → UInt8 → Read Draft) (broken : Option CodecError) :
    Draft → List RawChunk → Except CodecError Draft
  | d, [] =>
    match broken with
    | some e => .error e
    | none => .ok d
  | d, (tag, body) :: rest =>
    match Read.within body (field d tag) with
    | .error e => .error e
    | .ok d => readFields field broken d rest

theorem readFields_nil_eq_ok_iff {field : Draft → UInt8 → Read Draft} {broken : Option CodecError}
    {d e : Draft} : readFields field broken d [] = .ok e ↔ broken = none ∧ d = e := by
  cases broken <;> simp [readFields]

theorem readFields_cons_eq_ok_iff {field : Draft → UInt8 → Read Draft}
    {broken : Option CodecError} {d e : Draft} {c : RawChunk} {cs : List RawChunk} :
    readFields field broken d (c :: cs) = .ok e ↔
      ∃ d', Read.within c.2 (field d c.1) = .ok d' ∧ readFields field broken d' cs = .ok e := by
  cases h : Read.within c.2 (field d c.1) <;> simp [readFields, h]

/-- A draft with a chunk of the top level read. -/
def readChunk (d : Draft) (c : RawChunk) : Except CodecError Draft :=
  let s := RawChunk.split c.2
  if c.1 = documentTag then readFields readDocumentField s.broken d s.chunks
  else if c.1 = machineTag then readFields readMachineField s.broken d s.chunks
  else
    let h := Record.read c
    match h.fault with
    | some e => .error e
    | none => .ok { d with blocks := d.blocks ++ h.blocks }

/-- Chunks of the top level read one after the other. -/
def readChunks (broken : Option CodecError) : Draft → List RawChunk → Except CodecError Draft
  | d, [] =>
    match broken with
    | some e => .error e
    | none => .ok d
  | d, c :: rest =>
    match readChunk d c with
    | .error e => .error e
    | .ok d => readChunks broken d rest

theorem readChunks_nil_eq_ok_iff {broken : Option CodecError} {d e : Draft} :
    readChunks broken d [] = .ok e ↔ broken = none ∧ d = e := by
  cases broken <;> simp [readChunks]

theorem readChunks_cons_eq_ok_iff {broken : Option CodecError} {d e : Draft} {c : RawChunk}
    {cs : List RawChunk} :
    readChunks broken d (c :: cs) = .ok e ↔
      ∃ d', readChunk d c = .ok d' ∧ readChunks broken d' cs = .ok e := by
  cases h : readChunk d c <;> simp [readChunks, h]

/-- The project of a draft. -/
def Draft.finish (d : Draft) : Project :=
  let empty : Project := Document.new d.name
  let project : Project :=
    { empty with
      notes := d.notes, number := d.number, machine := d.machine, material := d.material }
  ((project.attachAll project.root d.blocks).2).setResolution d.resolution

/-- What follows the header, as far as the total length reaches. -/
def readHeader (bytes : Bytes) : Except CodecError Bytes :=
  let size := bytes.length
  let found := bytes.take 4
  if size < headerSize then
    if 4 ≤ size ∧ found ≠ CodecError.magic then .error (.badMagic found)
    else .error (.truncated headerSize size)
  else if found ≠ CodecError.magic then .error (.badMagic found)
  else
    let total := ofLittleEndian ((bytes.drop 4).take 4)
    let v := UInt32.ofNat (ofLittleEndian ((bytes.drop 8).take 4))
    if version < v then .error (.unsupportedVersion v)
    else if size < total ∨ total < headerSize then .error (.truncated (max total headerSize) size)
    else .ok ((bytes.take total).drop headerSize)

/-- **A header is accepted** where it begins as it has to, is of no newer version, and gives a total
length that covers the header and that the bytes reach. -/
theorem readHeader_eq_ok_iff {bytes body : Bytes} :
    readHeader bytes = .ok body ↔
      bytes.take 4 = CodecError.magic ∧
      ¬ version < UInt32.ofNat (ofLittleEndian ((bytes.drop 8).take 4)) ∧
      headerSize ≤ ofLittleEndian ((bytes.drop 4).take 4) ∧
      ofLittleEndian ((bytes.drop 4).take 4) ≤ bytes.length ∧
      (bytes.take (ofLittleEndian ((bytes.drop 4).take 4))).drop headerSize = body := by
  simp only [readHeader]
  split
  case isTrue hshort =>
    refine iff_of_false (by split <;> nofun) fun ⟨_, _, hfrom, hto, _⟩ => ?_
    exact absurd hshort (Nat.not_lt.mpr (Nat.le_trans hfrom hto))
  split
  case isTrue hmagic => exact iff_of_false nofun fun h => hmagic h.1
  rename_i hmagic
  split
  case isTrue hnew => exact iff_of_false nofun fun h => h.2.1 hnew
  rename_i hold
  split
  case isTrue hreach =>
    refine iff_of_false nofun fun ⟨_, _, hfrom, hto, _⟩ => ?_
    exact hreach.elim (Nat.not_lt.mpr hto) (Nat.not_lt.mpr hfrom)
  rename_i hreach
  obtain ⟨hto, hfrom⟩ := not_or.mp hreach
  rw [Except.ok.injEq]
  exact ⟨fun h => ⟨Decidable.not_not.mp hmagic, hold, Nat.not_lt.mp hfrom, Nat.not_lt.mp hto, h⟩,
    fun h => h.2.2.2.2⟩

/-- The project that bytes encode. -/
def decode (bytes : Bytes) : Except CodecError Project :=
  match readHeader bytes with
  | .error e => .error e
  | .ok body =>
    let s := RawChunk.split body
    (readChunks s.broken {} s.chunks).map Draft.finish

/-- **Bytes are decoded** where a header is accepted and the chunks behind it give a draft. -/
theorem decode_eq_ok_iff {bytes : Bytes} {d : Project} :
    decode bytes = .ok d ↔
      ∃ body e, readHeader bytes = .ok body ∧
        readChunks (RawChunk.split body).broken {} (RawChunk.split body).chunks = .ok e ∧
        e.finish = d := by
  cases hbody : readHeader bytes with
  | error _ => simp [decode, hbody]
  | ok body =>
    cases he : readChunks (RawChunk.split body).broken {} (RawChunk.split body).chunks <;>
      simp [decode, hbody, he, Except.map]

end ProjectFile

end Toolpath
