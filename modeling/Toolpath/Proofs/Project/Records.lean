import Toolpath.Proofs.Document.Regular
import Toolpath.Proofs.Project.Fields
import Toolpath.Proofs.Tree.Branches

/-!
# Records written and read

A record is read back as the branch that it was written from, but for what a file does not keep: a
block is read back as it is *saved*, without the text and the status of the last synthesis and with
the contours of a mesh derived anew.

The reader has its own idea of what a block may hold, and it is on the side of the reader that the
conditions arise. A block is `Storable` if it has as many lists as its kind asks for and keeps the
limits; the levels of a branch are limited by the fuel of the reader, which counts them.

## Main definitions

* `Block.saved` — a block as a file keeps it
* `Block.Storable` — the lists and the limits of a block that can be read back

## Main results

* `Record.readTo_chunk` — a record gives its branch back
-/

namespace Toolpath

namespace Payload

/-- The payload keeps the limits of the reader: not too many slices, and enough pixels. -/
def InLimits : StoredPayload → Prop
  | .mesh m => m.slices.toNat ≤ Mesh.maxSlices
  | .image r => r.pixelCount ≤ r.pixels.size
  | _ => True

instance : DecidablePred InLimits
  | .mesh m => inferInstanceAs (Decidable (m.slices.toNat ≤ Mesh.maxSlices))
  | .image r => inferInstanceAs (Decidable (r.pixelCount ≤ r.pixels.size))
  | .header _ | .footer _ | .tool _ | .code _ | .sketch _ | .line _ | .arc _ | .boltHoles _
  | .drillHoles _ | .template _ | .point _ | .svg _ | .gerber _ | .excellon _ => isTrue trivial

/-- The payload with what is derived from it derived anew. -/
def derived : StoredPayload → StoredPayload
  | .mesh m => .mesh m.rebuild
  | p => p

@[simp] theorem kind_derived (p : StoredPayload) : p.derived.kind = p.kind := by cases p <;> rfl

/-- The tags of fields are none of those that a record has beside them. -/
theorem tag_lt_of_mem_fields {p : StoredPayload} {c : Chunk} (h : c ∈ p.fields) : c.tag < 10 := by
  have htags : (p.fields.map Chunk.tag).all (· < 10) = true := by
    cases p with
    | footer d => obtain ⟨_ | p⟩ := d <;> rfl
    | _ => rfl
  simpa using List.all_eq_true.mp htags c.tag (List.mem_map_of_mem h)

end Payload

namespace Block

/-- The block as a file keeps it. -/
def saved (b : StoredBlock) : StoredBlock :=
  { payload := b.payload.derived, comment := b.comment, flags := b.flags }

@[simp] theorem kind_saved (b : StoredBlock) : b.saved.kind = b.kind := Payload.kind_derived _

/-- The block has the lists that it should have, and keeps the limits of the reader. -/
def Storable (b : StoredBlock) (lists : Nat) : Prop := b.Shaped lists ∧ b.payload.InLimits

end Block

namespace Record

theorem finish_bare {b : StoredBlock} (h : b.payload.InLimits) :
    Draft.finish { payload := b.payload.bare, comment := b.comment, flags := b.flags } =
      .ok b.saved := by
  obtain ⟨p, comment, flags, code, status⟩ := b
  cases p with
  | mesh m => exact if_neg (Nat.not_lt.mpr h)
  | image r => exact if_neg (Nat.not_lt.mpr h)
  | _ => rfl

/-! ### One record -/

variable {read : RawChunk → Harvest} {broken : Option CodecError}

theorem readBody_fields {d : Draft} {q : StoredPayload} {cs : List Chunk} {rest : List RawChunk}
    (h : d.payload.readFields cs = .ok q) (htag : ∀ c ∈ cs, c.tag < 10) :
    readBody read broken d (cs.map Chunk.raw ++ rest) =
      readBody read broken { d with payload := q } rest := by
  induction cs generalizing d with
  | nil =>
    obtain rfl := Except.ok.inj h
    rfl
  | cons c cs ih =>
    have hlt := htag c List.mem_cons_self
    have hcomment : c.tag ≠ commentTag := by rintro he; rw [he] at hlt; exact absurd hlt (by decide)
    have hflags : c.tag ≠ flagsTag := by rintro he; rw [he] at hlt; exact absurd hlt (by decide)
    have hcount : c.tag ≠ countTag := by rintro he; rw [he] at hlt; exact absurd hlt (by decide)
    rw [Payload.readFields, List.foldlM_cons] at h
    obtain ⟨p, hp, hrest⟩ : ∃ p, Read.within c.body (d.payload.readField c.tag) = .ok p ∧
        p.readFields cs = .ok q := by
      cases hc : Read.within c.body (d.payload.readField c.tag) with
      | error e => rw [hc] at h; cases h
      | ok p => rw [hc] at h; exact ⟨p, rfl, h⟩
    rw [List.map_cons, List.cons_append, Chunk.raw, readBody]
    simp only [hcomment, hflags, hcount, if_false, hp]
    exact ih (d := { d with payload := p }) hrest fun c hc => htag c (List.mem_cons_of_mem _ hc)

theorem readBody_comment {d : Draft} {body : Bytes} {text : String} {rest : List RawChunk}
    (h : Read.within body Read.text = .ok text) :
    readBody read broken d ((commentTag, body) :: rest) =
      readBody read broken { d with comment := text } rest := by
  rw [readBody, if_pos rfl, h]

theorem readBody_flags {d : Draft} {body : Bytes} {bits : UInt8} {rest : List RawChunk}
    (h : Read.within body Read.u8 = .ok bits) :
    readBody read broken d ((flagsTag, body) :: rest) =
      readBody read broken { d with flags := BlockFlags.ofBits bits } rest := by
  rw [readBody, if_neg (by decide), if_pos rfl, h]

/-- What the head of a record makes of the draft that reading starts from. -/
theorem readBody_head (b : StoredBlock) (rest : List RawChunk) :
    readBody read broken { payload := Payload.standard b.kind } ((head b).map Chunk.raw ++ rest) =
      readBody read broken { payload := b.payload.bare, comment := b.comment, flags := b.flags }
        rest := by
  have hcomment : Read.within (Utf8.encode b.comment) Read.text = .ok b.comment := by
    rw [Read.within, Read.on_text]
  have hflags : Read.within [b.flags.bits] Read.u8 = .ok b.flags.bits := by
    rw [Read.within, (Read.takes_u8 _).on]
  have hfields : (Payload.standard b.kind).readFields b.payload.fields = .ok b.payload.bare :=
    Payload.readFields_fields (Payload.kind_standard _) (Payload.bare_standard _)
  rw [head, List.map_cons, List.map_cons, List.cons_append, List.cons_append]
  refine (readBody_comment hcomment).trans ((readBody_flags hflags).trans ?_)
  rw [BlockFlags.ofBits_bits]
  exact readBody_fields hfields fun c hc => Payload.tag_lt_of_mem_fields hc

/-! ### The children -/

theorem chunks_eq_map (bs : List (Branch StoredBlock)) : chunks bs = bs.map chunk := by
  induction bs with
  | nil => rfl
  | cons b bs ih => rw [chunks, ih, List.map_cons]

theorem readChildren_chunks {f : Branch StoredBlock → Branch StoredBlock}
    {bs : List (Branch StoredBlock)} (h : ∀ b ∈ bs, read (chunk b).raw = ⟨[f b], none⟩)
    (broken : Option CodecError) (rest : List RawChunk) :
    readChildren read broken bs.length ((chunks bs).map Chunk.raw ++ rest) =
      (bs.map f, .ok rest) := by
  induction bs with
  | nil => rfl
  | cons b bs ih =>
    have hrest := ih fun b hb => h b (List.mem_cons_of_mem _ hb)
    rw [chunks, List.map_cons, List.cons_append, List.length_cons, readChildren]
    simp only [h b List.mem_cons_self, hrest]
    rfl

theorem readCounted_chunks {f : Branch StoredBlock → Branch StoredBlock}
    {bs : List (Branch StoredBlock)} {d : Draft} {block : StoredBlock} (hd : d.finish = .ok block)
    (hblock : block.kind.isContainer = true) (hlength : bs.length < UInt32.size)
    (h : ∀ b ∈ bs, read (chunk b).raw = ⟨[f b], none⟩) :
    readCounted read none d (Leaf.word countTag (UInt32.ofNat bs.length)).body
      ((chunks bs).map Chunk.raw) = ⟨[.node block [bs.map f]], none⟩ := by
  have hcount : Read.within (Leaf.word countTag (UInt32.ofNat bs.length)).body Read.u32 =
      .ok (UInt32.ofNat bs.length) := by
    rw [Read.within, Leaf.word, Leaf.words, Chunk.body, List.flatMap_singleton,
      (Read.takes_u32 _).on]
  have hchildren := readChildren_chunks h none []
  rw [List.append_nil] at hchildren
  simp only [readCounted, hcount, hd, hblock, if_true, UInt32.toNat_ofNat_of_lt' hlength, hchildren,
    trailingFault]

/-! ### Records -/

theorem length_chunks_le {bs : List (Branch StoredBlock)} {tag : UInt8} {cs : List Chunk}
    {n : UInt32}
    (h : (Chunk.group tag (cs ++ Leaf.word countTag n :: chunks bs)).Fits) :
    bs.length < UInt32.size := by
  have hparts := RawChunk.length_le_bytesOfAll (cs ++ Leaf.word countTag n :: chunks bs)
  have hlt := h.1
  rw [chunks_eq_map, List.length_append, List.length_cons, List.length_map] at hparts
  rw [chunks_eq_map] at hlt
  omega

/-- Where a record fits, the records of its children do. -/
theorem fits_child {bs : List (Branch StoredBlock)} {b : Branch StoredBlock} {tag : UInt8}
    {cs : List Chunk} {n : UInt32}
    (h : (Chunk.group tag (cs ++ Leaf.word countTag n :: chunks bs)).Fits) (hb : b ∈ bs) :
    (chunk b).Fits := by
  refine Chunk.fitsAll_iff.mp h.2 (chunk b) (List.mem_append_right _ ?_)
  rw [chunks_eq_map]
  exact List.mem_cons_of_mem _ (List.mem_map_of_mem hb)

theorem readTo_group {levels : Nat} {kind : BlockKind} {parts : List Chunk}
    (h : Chunk.FitsAll parts) :
    readTo (levels + 1) (Chunk.group kind.tag parts).raw =
      readBody (readTo levels) none { payload := Payload.standard kind } (parts.map Chunk.raw) := by
  rw [Chunk.raw, Chunk.tag, Chunk.body, readTo, BlockKind.ofTag?_tag]
  simp only [RawChunk.split_bytesOfAll h]

theorem readBody_count {d : Draft} {body : Bytes} {rest : List RawChunk} :
    readBody read broken d ((countTag, body) :: rest) = readCounted read broken d body rest := by
  rw [readBody, if_neg (by decide), if_neg (by decide), if_pos rfl]

/-- **A record gives its branch back**, as it is saved. -/
theorem readTo_chunk {levels : Nat} {b : Branch StoredBlock} (hfits : (chunk b).Fits)
    (hstorable : b.Every Block.Storable) (hheight : b.height < levels) :
    readTo levels (chunk b).raw = ⟨[b.map Block.saved], none⟩ := by
  induction levels generalizing b with
  | zero => omega
  | succ levels ih =>
    obtain ⟨a, ls⟩ := b
    obtain ⟨⟨hshape, hlimits⟩, hbelow⟩ := Branch.every_node_iff.mp hstorable
    have hlevels := Branch.height_node_le_iff.mp (Nat.le_of_lt_succ hheight)
    have hfinish := finish_bare hlimits
    rw [chunk] at hfits ⊢
    rw [readTo_group hfits.2, List.map_append, readBody_head, Branch.map_node]
    rcases hshape.lists with ⟨hcontainer, rfl⟩ | ⟨hcontainer, bs, rfl⟩
    · simp only [childChunks, List.map_nil, readBody, hfinish, Block.kind_saved, hcontainer]
      rfl
    · have hchildren : ∀ b ∈ bs, readTo levels (chunk b).raw = ⟨[b.map Block.saved], none⟩ :=
        fun b hb => ih (fits_child hfits hb) (hbelow bs List.mem_cons_self b hb)
          (hlevels bs List.mem_cons_self b hb)
      rw [childChunks, List.map_cons, Chunk.raw, Leaf.word, Leaf.words, Chunk.tag, readBody_count]
      exact readCounted_chunks hfinish ((Block.kind_saved a).symm ▸ hcontainer)
        (length_chunks_le hfits) hchildren

end Record

end Toolpath
