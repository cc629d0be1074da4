import Toolpath.Chunk.Writer
import Toolpath.Document.Basic
import Toolpath.Project.Fields

/-!
# Records of blocks

A block and everything below it is one chunk tagged with the kind: comment, flags, the fields of
the payload and, for a container, the number of children followed by their records.

Reading is lenient about what it does not know: chunks with unknown tags are passed over, fields
behind the children and children of a block that can have none are ignored. It is strict about
lengths, limits and the depth of nesting. What was read before an error is not lost: `Harvest`
holds it beside the error.
-/

namespace Toolpath

/-- The blocks that are stored. -/
abbrev StoredBlock := Block Double Single

/-- A document that is stored. -/
abbrev Project := Document Double Single

namespace Record

/-- The tag of the comment. -/
def commentTag : UInt8 := 0xFF

/-- The tag of the flags. -/
def flagsTag : UInt8 := 0xFE

/-- The tag of the number of children. -/
def countTag : UInt8 := 0x80

/-- The greatest depth of nesting, the top level being zero. -/
def maxDepth : Nat := 64

/-! ### Writing -/

/-- The chunks of a block without its children. -/
def head (b : StoredBlock) : List Chunk :=
  Leaf.text commentTag b.comment :: Leaf.byte flagsTag b.flags.bits :: b.payload.fields

mutual

/-- The record of a block and everything below it. -/
def chunk : Branch StoredBlock → Chunk
  | .node b lists => .group b.kind.tag (head b ++ childChunks lists)

/-- The chunks for the children: those in the first of the lists that a block owns. -/
def childChunks : List (List (Branch StoredBlock)) → List Chunk
  | [] => []
  | l :: _ => Leaf.word countTag (UInt32.ofNat l.length) :: chunks l

/-- The records of blocks one after the other. -/
def chunks : List (Branch StoredBlock) → List Chunk
  | [] => []
  | b :: bs => chunk b :: chunks bs

end

/-! ### Reading -/

/-- What was read, and the error that stopped reading, if one did. -/
structure Harvest where
  /-- The blocks read, with everything below them as far as it was read. -/
  blocks : List (Branch StoredBlock)
  /-- The error. -/
  fault : Option CodecError

/-- A block whose fields are still being read. -/
structure Draft where
  /-- The payload. -/
  payload : StoredPayload
  /-- The comment. -/
  comment : String := ""
  /-- The flags. -/
  flags : BlockFlags := {}

/-- The block of a draft. The contours of a mesh are derived; too many slices and too few pixels
are refused. -/
def Draft.finish (d : Draft) : Except CodecError StoredBlock :=
  let block (p : StoredPayload) : StoredBlock :=
    { payload := p, comment := d.comment, flags := d.flags }
  match d.payload with
  | .mesh m =>
    if Mesh.maxSlices < m.slices.toNat then .error (.outOfRange .sliceCount m.slices.toNat)
    else .ok (block (.mesh m.rebuild))
  | .image r =>
    if r.pixels.size < r.pixelCount then .error (.outOfRange .pixelCount r.pixelCount)
    else .ok (block (.image r))
  | p => .ok (block p)

/-- A number of children read from the front of some chunks: their blocks, and the chunks that are
left or an error. `broken` is what is wrong behind the last chunk. -/
def readChildren (read : RawChunk → Harvest) (broken : Option CodecError) :
    Nat → List RawChunk → List (Branch StoredBlock) × Except CodecError (List RawChunk)
  | 0, rest => ([], .ok rest)
  | _ + 1, [] => ([], .error (broken.getD (.truncated 1 0)))
  | n + 1, c :: rest =>
    let h := read c
    match h.fault with
    | some e => (h.blocks, .error e)
    | none =>
      let (bs, r) := readChildren read broken n rest
      (h.blocks ++ bs, r)

/-- The first error in the chunks behind the children of a block. -/
def trailingFault (broken : Option CodecError) : List RawChunk → Option CodecError
  | [] => broken
  | (tag, body) :: rest =>
    let read : Except CodecError Unit :=
      if tag = commentTag then (Read.within body Read.text).map fun _ => ()
      else if tag = flagsTag then (Read.within body Read.u8).map fun _ => ()
      else if tag = countTag then (Read.within body Read.u32).map fun _ => ()
      else .ok ()
    match read with
    | .error e => some e
    | .ok () => trailingFault broken rest

/-- The block with its children behind the chunk that counts them. -/
def readCounted (read : RawChunk → Harvest) (broken : Option CodecError) (d : Draft) (body : Bytes)
    (rest : List RawChunk) : Harvest :=
  match Read.within body Read.u32 with
  | .error e => ⟨[], some e⟩
  | .ok count =>
    match d.finish with
    | .error e => ⟨[], some e⟩
    | .ok block =>
      let container := block.kind.isContainer
      let (children, r) :=
        readChildren (if container then read else fun _ => ⟨[], none⟩) broken count.toNat rest
      let branch : Branch StoredBlock := .node block (if container then [children] else [])
      match r with
      | .error e => ⟨[branch], some e⟩
      | .ok rest => ⟨[branch], trailingFault broken rest⟩

/-- The rest of a block of which a draft has been read. -/
def readBody (read : RawChunk → Harvest) (broken : Option CodecError) :
    Draft → List RawChunk → Harvest
  | d, [] =>
    match broken with
    | some e => ⟨[], some e⟩
    | none =>
      match d.finish with
      | .error e => ⟨[], some e⟩
      | .ok block => ⟨[.node block (if block.kind.isContainer then [[]] else [])], none⟩
  | d, (tag, body) :: rest =>
    if tag = commentTag then
      match Read.within body Read.text with
      | .error e => ⟨[], some e⟩
      | .ok s => readBody read broken { d with comment := s } rest
    else if tag = flagsTag then
      match Read.within body Read.u8 with
      | .error e => ⟨[], some e⟩
      | .ok b => readBody read broken { d with flags := BlockFlags.ofBits b } rest
    else if tag = countTag then readCounted read broken d body rest
    else
      match Read.within body (d.payload.readField tag) with
      | .error e => ⟨[], some e⟩
      | .ok p => readBody read broken { d with payload := p } rest

/-- A record with at most `levels` levels of nesting. A chunk whose tag is no kind yields
nothing. -/
def readTo : Nat → RawChunk → Harvest
  | 0, _ => ⟨[], some (.recursionLimit maxDepth)⟩
  | levels + 1, (tag, body) =>
    match BlockKind.ofTag? tag with
    | none => ⟨[], none⟩
    | some kind =>
      let s := RawChunk.split body
      readBody (readTo levels) s.broken { payload := Payload.standard kind } s.chunks

/-- A record at the top level. -/
def read (c : RawChunk) : Harvest := readTo (maxDepth + 1) c

/-- Records one after the other, up to the first error. -/
def readAll (broken : Option CodecError) : List RawChunk → Harvest
  | [] => ⟨[], broken⟩
  | c :: rest =>
    let h := read c
    match h.fault with
    | some e => ⟨h.blocks, some e⟩
    | none =>
      let more := readAll broken rest
      ⟨h.blocks ++ more.blocks, more.fault⟩

end Record

namespace Document

/-- The bytes of a block and everything below it, without a file header. A block that is gone has
none. -/
def encodeSubtree (d : Project) (id : NodeId) : Except CodecError Bytes :=
  match d.tree.branch? id with
  | none => .ok []
  | some b => (ChunkWriter.empty.write (Record.chunk (b.map Prod.snd))).map ChunkWriter.toBytes

/-- Blocks read from bytes without a file header and put at the tail of a list: the document, and
their names or the error that stopped reading. What was read before the error stays. -/
def paste (d : Project) (l : ListId) (bytes : Bytes) : Except CodecError (List NodeId) × Project :=
  let s := RawChunk.split bytes
  let h := Record.readAll s.broken s.chunks
  let (ids, d) := d.attachAll l h.blocks
  match h.fault with
  | some e => (.error e, d)
  | none => (.ok ids, d)

end Document

end Toolpath
