import Toolpath.Proofs.Chunk.Frames
import Toolpath.Proofs.Project.Records

/-!
# What is read from anything

Records are read from bytes that may be anything: lengths and counts that are wrong, chunks that
come twice or where they do not belong, children of blocks that can have none. Whatever they are,
the branches that reading yields are in *canonical* form: each block has the lists that its kind
asks for, keeps the limits, and is as it would be saved. This also holds of what was read before an
error.

Two numbers are bounded by what is read from. The levels of a branch are bounded by the levels that
the reader may go down, and every block takes five bytes: a tag and a length. Nothing in the reader
counts blocks, so the second bound follows the reader through all of its loops: what is read from
chunks one after the other takes no more than these chunks.

## Main definitions

* `RawChunk.size` — the bytes that a chunk takes
* `Block.Canonical` — a block as reading makes it
* `Record.Yields` — branches in canonical form that some bytes can hold

## Main results

* `RawChunk.sizes_split` — chunks take no more than the bytes that they are found in
* `Record.yields_readTo`, `Record.yields_readAll` — what reading records yields
-/

namespace Toolpath

/-! ### The size of chunks -/

namespace RawChunk

/-- The bytes that a chunk takes: its tag, its length and its body. -/
def size (c : RawChunk) : Nat := c.2.length + 5

/-- The bytes that chunks take. -/
def sizes : List RawChunk → Nat
  | [] => 0
  | c :: cs => c.size + sizes cs

@[simp] theorem sizes_cons (c : RawChunk) (cs : List RawChunk) :
    sizes (c :: cs) = c.size + sizes cs := rfl

theorem sizes_splitTo (fuel : Nat) (bytes : Bytes) :
    sizes (splitTo fuel bytes).chunks ≤ bytes.length := by
  induction fuel generalizing bytes with
  | zero => exact Nat.zero_le _
  | succ fuel ih =>
    rw [splitTo]
    split
    · exact Nat.zero_le _
    · exact Nat.zero_le _
    · rename_i c rest hnext
      have hrest := ih rest
      rw [Read.on_nextChunk_eq_some hnext, List.length_append, Chunk.length_frame]
      simp only [sizes_cons, size]
      omega

/-- **Chunks take no more than the bytes that they are found in.** -/
theorem sizes_split (bytes : Bytes) : sizes (split bytes).chunks ≤ bytes.length :=
  sizes_splitTo _ _

end RawChunk

/-! ### Canonical blocks -/

/-- The block has the lists that it should have, keeps the limits, and is as it would be saved. -/
def Block.Canonical (b : StoredBlock) (lists : Nat) : Prop := b.Storable lists ∧ b.saved = b

namespace Record

open RawChunk (sizes)

theorem canonical_finish {d : Draft} {block : StoredBlock} (h : d.finish = .ok block) :
    block.Canonical (if block.kind.isContainer then 1 else 0) := by
  obtain ⟨p, comment, flags⟩ := d
  cases p with
  | mesh m =>
    simp only [Draft.finish] at h
    split at h
    · cases h
    · rename_i hslices
      obtain rfl := Except.ok.inj h
      exact ⟨⟨rfl, Nat.le_of_not_lt hslices⟩, rfl⟩
  | image r =>
    simp only [Draft.finish] at h
    split at h
    · cases h
    · rename_i hpixels
      obtain rfl := Except.ok.inj h
      exact ⟨⟨rfl, Nat.le_of_not_lt hpixels⟩, rfl⟩
  | _ =>
    obtain rfl := Except.ok.inj h
    exact ⟨⟨rfl, trivial⟩, rfl⟩

/-- The branches are in canonical form, with fewer levels than `levels`, and so many bytes can hold
them. -/
structure Yields (levels size : Nat) (bs : List (Branch StoredBlock)) : Prop where
  /-- They are in canonical form. -/
  canonical : ∀ b ∈ bs, b.Every Block.Canonical
  /-- They have few levels. -/
  height : ∀ b ∈ bs, b.height < levels
  /-- They have few blocks. -/
  size : 5 * Branch.sizeOfForest bs ≤ size

theorem Yields.nil (levels size : Nat) : Yields levels size [] :=
  ⟨by simp, by simp, Nat.zero_le _⟩

theorem Yields.append {levels size size' : Nat} {bs cs : List (Branch StoredBlock)}
    (h : Yields levels size bs) (h' : Yields levels size' cs) :
    Yields levels (size + size') (bs ++ cs) := by
  refine ⟨fun b hb => ?_, fun b hb => ?_, ?_⟩
  · exact (List.mem_append.mp hb).elim (h.canonical b) (h'.canonical b)
  · exact (List.mem_append.mp hb).elim (h.height b) (h'.height b)
  · have := h.size
    have := h'.size
    rw [Branch.sizeOfForest_append]
    omega

theorem Yields.mono {levels size size' : Nat} {bs : List (Branch StoredBlock)}
    (h : Yields levels size bs) (hsize : size ≤ size') : Yields levels size' bs :=
  ⟨h.canonical, h.height, Nat.le_trans h.size hsize⟩

/-- A block with its children, if it can have any. -/
theorem Yields.node {levels size : Nat} {bs : List (Branch StoredBlock)} (h : Yields levels size bs)
    {d : Draft} {block : StoredBlock} (hd : d.finish = .ok block) :
    Yields (levels + 1) (size + 5) [.node block (if block.kind.isContainer then [bs] else [])] := by
  have hcanonical := canonical_finish hd
  have hsize := h.size
  cases hcontainer : block.kind.isContainer with
  | false =>
    rw [hcontainer] at hcanonical
    refine ⟨?_, ?_, ?_⟩
    · simpa [Branch.every_node_iff] using hcanonical
    · simp [Branch.height, Branch.heightOfLists]
    · simp [Branch.size_node, Branch.sizeOfLists]
  | true =>
    rw [hcontainer] at hcanonical
    refine ⟨?_, ?_, ?_⟩
    · simpa [Branch.every_node_iff] using ⟨hcanonical, h.canonical⟩
    · simpa [Nat.lt_succ_iff, Branch.height_node_le_iff] using h.height
    · simp [Branch.size_node]
      omega

/-! ### The reader -/

variable {read : RawChunk → Harvest} {broken : Option CodecError} {levels : Nat}

theorem yields_readChildren (hread : ∀ c, Yields levels c.size (read c).blocks)
    (broken : Option CodecError) (n : Nat) (cs : List RawChunk) :
    Yields levels (sizes cs) (readChildren read broken n cs).1 := by
  induction n generalizing cs with
  | zero => exact .nil _ _
  | succ n ih =>
    cases cs with
    | nil => exact .nil _ _
    | cons c cs =>
      have hc := hread c
      rw [readChildren, RawChunk.sizes_cons]
      dsimp only
      split
      · exact hc.mono (Nat.le_add_right _ _)
      · exact hc.append (ih cs)

theorem yields_readCounted (hread : ∀ c, Yields levels c.size (read c).blocks) (d : Draft)
    (body : Bytes) (cs : List RawChunk) :
    Yields (levels + 1) (sizes cs + 5) (readCounted read broken d body cs).blocks := by
  rw [readCounted]
  split
  · exact .nil _ _
  · rename_i count _
    split
    · exact .nil _ _
    · rename_i block hd
      have hread' : ∀ c : RawChunk, Yields levels c.size
          ((if block.kind.isContainer then read else fun _ => ⟨[], none⟩) c).blocks := fun c => by
        split
        · exact hread c
        · exact .nil _ _
      have hchildren := yields_readChildren hread' broken count.toNat cs
      dsimp only
      split <;> exact hchildren.node hd

theorem yields_readBody (hread : ∀ c, Yields levels c.size (read c).blocks) (d : Draft)
    (cs : List RawChunk) :
    Yields (levels + 1) (sizes cs + 5) (readBody read broken d cs).blocks := by
  induction cs generalizing d with
  | nil =>
    cases broken with
    | some e => exact .nil _ _
    | none =>
      rw [readBody]
      split
      · exact .nil _ _
      · rename_i block hd
        exact ((Yields.nil levels 0).node hd).mono (by simp)
  | cons c cs ih =>
    obtain ⟨tag, body⟩ := c
    have hmore {d : Draft} : Yields (levels + 1) (sizes ((tag, body) :: cs) + 5)
        (readBody read broken d cs).blocks :=
      (ih d).mono (by rw [RawChunk.sizes_cons]; omega)
    rw [readBody]
    split
    · split
      · exact .nil _ _
      · exact hmore
    · split
      · split
        · exact .nil _ _
        · exact hmore
      · split
        · refine (yields_readCounted hread d body cs).mono ?_
          rw [RawChunk.sizes_cons]
          omega
        · split
          · exact .nil _ _
          · exact hmore

/-- **What a record yields**, whatever its bytes are. -/
theorem yields_readTo (levels : Nat) (c : RawChunk) :
    Yields levels c.size (readTo levels c).blocks := by
  induction levels generalizing c with
  | zero => exact .nil _ _
  | succ levels ih =>
    obtain ⟨tag, body⟩ := c
    rw [readTo]
    split
    · exact .nil _ _
    · exact (yields_readBody ih _ _).mono (Nat.add_le_add_right (RawChunk.sizes_split body) 5)

theorem yields_readAll (broken : Option CodecError) (cs : List RawChunk) :
    Yields (maxDepth + 1) (sizes cs) (readAll broken cs).blocks := by
  induction cs with
  | nil => exact .nil _ _
  | cons c cs ih =>
    have hc := yields_readTo (maxDepth + 1) c
    rw [readAll, RawChunk.sizes_cons]
    dsimp only [Record.read]
    split
    · exact hc.mono (Nat.le_add_right _ _)
    · exact hc.append ih

end Record

end Toolpath
