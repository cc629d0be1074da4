import Toolpath.Proofs.Chunk.Framing
import Toolpath.Proofs.Text.Lines

/-!
# Trees of chunks on a stream

A tree of chunks is written by calls within calls, and every call leaves a hole for its length that
is filled in when the call returns. So the chunks of a tree are closed one after the other, each
after those within it, and `Chunk.closing` lists them in this order. It is the order in which
lengths are known, and so the order in which they can be refused: the first body in it that is too
long is the one that the writer names, and everything within that chunk was short enough, since it
was closed before.

A tree is found again if it is known which of its chunks hold chunks. The bytes do not say, because
a body is a body; `Chunk.Shape` says it, and nothing else.

## Main definitions

* `Chunk.inner`, `Chunk.closing` — the chunks of a tree in the order in which they are closed
* `Chunk.Shape`, `Shape.tree?` — which chunks of a tree are opened, and what is found in them

## Main results

* `Chunk.exists_earlier` — what is within a chunk is closed right before it
* `ChunkWriter.write_oversized` — the first body that is too long is refused
* `Chunk.tree?_shape` — a tree is found again
* `ChunkWriter.write_frames` — a tree written at any place of a stream
-/

namespace Toolpath

namespace Chunk

/-! ### The order of closing -/

mutual

/-- A chunk and those within it, in the order in which they are closed. -/
def closing : Chunk → List Chunk
  | leaf tag body => [leaf tag body]
  | group tag parts => closingAll parts ++ [group tag parts]

/-- `closing` for chunks one after the other. -/
def closingAll : List Chunk → List Chunk
  | [] => []
  | c :: cs => closing c ++ closingAll cs

end

/-- The chunks within a chunk, in the order in which they are closed. -/
def inner : Chunk → List Chunk
  | leaf _ _ => []
  | group _ parts => closingAll parts

mutual

/-- A tree fits if every body in it is short enough. -/
theorem fits_iff_closing : ∀ {c : Chunk},
    c.Fits ↔ ∀ x ∈ c.closing, x.body.length < UInt32.size
  | leaf tag body => by
    rw [closing, Fits, List.forall_mem_singleton, Chunk.body]
  | group tag parts => by
    rw [closing, Fits, List.forall_mem_append, List.forall_mem_singleton, fitsAll_iff_closing,
      and_comm, Chunk.body]

theorem fitsAll_iff_closing : ∀ {cs : List Chunk},
    FitsAll cs ↔ ∀ x ∈ closingAll cs, x.body.length < UInt32.size
  | [] => by simp [FitsAll, closingAll]
  | c :: cs => by
    rw [FitsAll, closingAll, List.forall_mem_append, fits_iff_closing, fitsAll_iff_closing]

end

theorem singleton_eq_append_cons {α : Type} {a b : α} {before after : List α}
    (h : [a] = before ++ b :: after) : before = [] ∧ a = b := by
  rcases List.singleton_eq_append_iff.mp h with ⟨rfl, hb⟩ | ⟨-, hb⟩
  · exact ⟨rfl, (List.cons.inj hb).1.symm⟩
  · cases hb

mutual

/-- **What is within a chunk is closed right before it.** -/
theorem exists_earlier : ∀ {c d : Chunk} {before after : List Chunk},
    c.closing = before ++ d :: after → ∃ earlier, before = earlier ++ d.inner
  | leaf tag body, d, before, after, h => by
    rw [closing] at h
    obtain ⟨rfl, rfl⟩ := singleton_eq_append_cons h
    exact ⟨[], rfl⟩
  | group tag parts, d, before, after, h => by
    rw [closing] at h
    rcases exists_of_append_eq_append_cons h with ⟨rest, hparts⟩ | ⟨more, rfl, hself⟩
    · exact exists_earlierAll hparts
    · obtain ⟨rfl, rfl⟩ := singleton_eq_append_cons hself
      exact ⟨[], by rw [inner, List.append_nil, List.nil_append]⟩

theorem exists_earlierAll : ∀ {cs : List Chunk} {d : Chunk} {before after : List Chunk},
    closingAll cs = before ++ d :: after → ∃ earlier, before = earlier ++ d.inner
  | [], _, _, _, h => by simp [closingAll] at h
  | c :: cs, d, before, after, h => by
    rw [closingAll] at h
    rcases exists_of_append_eq_append_cons h with ⟨rest, hrest⟩ | ⟨more, rfl, hmore⟩
    · exact exists_earlier hrest
    · obtain ⟨earlier, rfl⟩ := exists_earlierAll hmore
      exact ⟨closing c ++ earlier, (List.append_assoc _ _ _).symm⟩

end

/-! ### Finding a tree again -/

/-- Which chunks of a tree hold chunks. -/
inductive Shape where
  /-- The body is taken as it is. -/
  | leaf
  /-- The body is a run of chunks. -/
  | group (parts : List Shape)

mutual

/-- The shape of a tree. -/
def shape : Chunk → Shape
  | leaf _ _ => .leaf
  | group _ parts => .group (shapes parts)

/-- The shapes of trees one after the other. -/
def shapes : List Chunk → List Shape
  | [] => []
  | c :: cs => shape c :: shapes cs

end

mutual

/-- The tree that is found in a chunk when it is opened as far as a shape says, down to the end of
every body. -/
def Shape.tree? : Shape → RawChunk → Option Chunk
  | .leaf, c => some (.leaf c.1 c.2)
  | .group parts, c =>
    match RawChunk.split c.2 with
    | ⟨cs, none⟩ => (Shape.trees? parts cs).map (Chunk.group c.1)
    | ⟨_, some _⟩ => none

/-- The trees that are found in chunks, one for every shape. -/
def Shape.trees? : List Shape → List RawChunk → Option (List Chunk)
  | [], [] => some []
  | s :: ss, c :: cs =>
    match s.tree? c, Shape.trees? ss cs with
    | some t, some ts => some (t :: ts)
    | _, _ => none
  | _, _ => none

end

mutual

/-- **A tree is found again**, if it fits. -/
theorem tree?_shape : ∀ {c : Chunk}, c.Fits → c.shape.tree? c.raw = some c
  | leaf tag body, _ => by rw [shape, Shape.tree?, raw, Chunk.tag, Chunk.body]
  | group tag parts, h => by
    have hsplit : RawChunk.split (group tag parts).raw.2 = ⟨parts.map raw, none⟩ :=
      RawChunk.split_bytesOfAll h.2
    rw [shape, Shape.tree?]
    simp only [hsplit, trees?_shapes h.2]
    rfl

theorem trees?_shapes : ∀ {cs : List Chunk}, FitsAll cs →
    Shape.trees? (shapes cs) (cs.map raw) = some cs
  | [], _ => by rw [shapes, List.map_nil, Shape.trees?]
  | c :: cs, h => by
    rw [shapes, List.map_cons, Shape.trees?]
    simp only [tree?_shape h.1, trees?_shapes h.2]

end

end Chunk

/-! ### Refusing -/

namespace ChunkWriter

open Chunk

/-- A chunk whose body is too long is not closed. -/
theorem chunk_of_oversized {w w₁ : ChunkWriter} {tag : UInt8}
    {body : ChunkWriter → Except CodecError ChunkWriter} {bs ahead : Bytes}
    (hbody : body (w.openChunk tag).2 = .ok w₁)
    (h₁ : w₁.out.Parted (w.out.front ++ [tag] ++ littleEndian 4 0 ++ bs) ahead)
    (hsize : ¬ bs.length < UInt32.size) :
    w.chunk tag body = .error (.chunkTooLarge bs.length) := by
  rw [chunk_of_ok hbody, close_eq h₁, patch, if_neg hsize]

mutual

/-- **The first body that is too long is refused.** -/
theorem write_oversized {w : ChunkWriter} : ∀ {c d : Chunk} {before after : List Chunk},
    c.closing = before ++ d :: after → (∀ x ∈ before, x.body.length < UInt32.size) →
      ¬ d.body.length < UInt32.size → w.write c = .error (.chunkTooLarge d.body.length)
  | .leaf tag body, d, before, after, h, hbefore, hd => by
    rw [closing] at h
    rw [write_leaf]
    obtain ⟨rfl, rfl⟩ := singleton_eq_append_cons h
    exact chunk_of_oversized rfl (w.parted_body tag body) hd
  | .group tag parts, d, before, after, h, hbefore, hd => by
    rw [closing] at h
    rw [write_group]
    rcases exists_of_append_eq_append_cons h with ⟨rest, hparts⟩ | ⟨more, rfl, hself⟩
    · exact chunk_of_error (writeAll_oversized hparts hbefore hd)
    · -- The parts are written, and it is the chunk itself that is not closed.
      obtain ⟨rfl, rfl⟩ := singleton_eq_append_cons hself
      rw [List.append_nil, ← fitsAll_iff_closing] at hbefore
      obtain ⟨w₁, hw₁⟩ := exists_writeAll (w := (w.openChunk tag).2) hbefore
      exact chunk_of_oversized hw₁ (writeAll_spec (w.parted_openChunk tag) hw₁).1 hd
termination_by structural c => c

theorem writeAll_oversized {w : ChunkWriter} :
    ∀ {cs : List Chunk} {d : Chunk} {before after : List Chunk},
      closingAll cs = before ++ d :: after → (∀ x ∈ before, x.body.length < UInt32.size) →
        ¬ d.body.length < UInt32.size → w.writeAll cs = .error (.chunkTooLarge d.body.length)
  | [], _, _, _, h, _, _ => by simp [closingAll] at h
  | c :: cs, d, before, after, h, hbefore, hd => by
    rw [closingAll] at h
    simp only [writeAll]
    rcases exists_of_append_eq_append_cons h with ⟨rest, hfirst⟩ | ⟨more, rfl, hlater⟩
    · rw [write_oversized hfirst hbefore hd]
    · rw [List.forall_mem_append, ← fits_iff_closing] at hbefore
      obtain ⟨w₁, hw₁⟩ := exists_write (w := w) hbefore.1
      simp only [hw₁]
      exact writeAll_oversized hlater hbefore.2 hd
termination_by structural cs => cs

end

/-! ### A tree on a stream -/

/-- **A tree is framed at every depth**, at any place of a stream. What is written are the bytes of
the grammar, with nothing in front of them touched and the stream standing behind them, and the tree
is found in them again. If a body is too long, the writer refuses the first one that is closed; all
bodies within it are short enough. -/
theorem write_frames (w : ChunkWriter) (c : Chunk) :
    ((∀ x ∈ c.closing, x.body.length < UInt32.size) →
      ∃ w', w.write c = .ok w' ∧
        w'.toBytes = w.out.front ++ c.bytes ++ w.toBytes.drop (w.position + c.bytes.length) ∧
        w'.position = w.position + c.bytes.length ∧
        Read.nextChunk.on (w'.toBytes.drop w.position) =
          (.ok (some c.raw), w.toBytes.drop (w.position + c.bytes.length)) ∧
        c.shape.tree? c.raw = some c) ∧
    ((∃ x ∈ c.closing, UInt32.size ≤ x.body.length) →
      ∃ before d after, c.closing = before ++ d :: after ∧
        (∀ x ∈ before, x.body.length < UInt32.size) ∧
        (∀ x ∈ d.inner, x.body.length < UInt32.size) ∧
        UInt32.size ≤ d.body.length ∧
        w.write c = .error (.chunkTooLarge d.body.length)) := by
  refine ⟨fun hfits => ?_, fun hlong => ?_⟩
  · rw [← fits_iff_closing] at hfits
    obtain ⟨w', hw'⟩ := exists_write (w := w) hfits
    obtain ⟨⟨hbytes, hplace⟩, -⟩ := write_spec hw'
    rw [ByteStream.back, List.drop_drop] at hbytes
    have hend : w'.position = w.position + c.bytes.length := by
      rw [position, hplace, List.length_append, ByteStream.length_front, position]
    have hrest : w'.toBytes.drop w.position =
        c.bytes ++ w.toBytes.drop (w.position + c.bytes.length) := by
      rw [toBytes, hbytes, List.append_assoc]
      exact List.drop_left' w.out.length_front
    refine ⟨w', hw', hbytes, hend, ?_, tree?_shape hfits⟩
    rw [hrest, bytes_eq_frame]
    exact Read.on_nextChunk_frame hfits.body_lt
  · obtain ⟨d, hd⟩ := Option.isSome_iff_exists.mp (List.find?_isSome.mpr (by simpa using hlong) :
      (c.closing.find? fun x => decide (UInt32.size ≤ x.body.length)).isSome = true)
    obtain ⟨hlong, before, after, hclosing, hbefore⟩ := List.find?_eq_some_iff_append.mp hd
    have hshort (x : Chunk) (hx : x ∈ before) : x.body.length < UInt32.size := by
      simpa using hbefore x hx
    have hd : UInt32.size ≤ d.body.length := of_decide_eq_true hlong
    obtain ⟨earlier, rfl⟩ := exists_earlier hclosing
    exact ⟨_, d, after, hclosing, hshort, fun x hx => hshort x (List.mem_append_right _ hx), hd,
      write_oversized hclosing hshort (Nat.not_lt.mpr hd)⟩

/-- A chunk within a chunk goes over the end of a stream; another one is a byte too long. -/
theorem write_frames_nested :
    let w : ChunkWriter := ⟨⟨#[8, 9, 9], 1⟩⟩
    let short : Chunk := .group 1 [.leaf 2 [7]]
    let long : Chunk := .group 1 [.leaf 2 (List.replicate UInt32.size 0)]
    ((∀ x ∈ short.closing, x.body.length < UInt32.size) ∧
      ∃ w', w.write short = .ok w' ∧ w'.toBytes = [8, 1, 6, 0, 0, 0, 2, 1, 0, 0, 0, 7] ∧
        w'.position = 12) ∧
    (∃ x ∈ long.closing, UInt32.size ≤ x.body.length) ∧
      w.write long = .error (.chunkTooLarge UInt32.size) := by
  intro w short long
  have hshort : ∀ x ∈ short.closing, x.body.length < UInt32.size := by decide
  have hlength : (List.replicate UInt32.size (0 : UInt8)).length = UInt32.size :=
    List.length_replicate
  have hlong : ∃ x ∈ long.closing, UInt32.size ≤ x.body.length :=
    ⟨.leaf 2 (List.replicate UInt32.size 0), List.mem_cons_self, Nat.le_of_eq hlength.symm⟩
  obtain ⟨w', hw', hbytes, hposition, -⟩ := (write_frames w short).1 hshort
  obtain ⟨before, d, after, hclosing, hbefore, -, -, hwrite⟩ := (write_frames w long).2 hlong
  refine ⟨⟨hshort, w', hw', hbytes.trans (by decide), hposition⟩, hlong, ?_⟩
  cases before with
  | nil =>
    obtain ⟨rfl, -⟩ := List.cons.inj hclosing
    rw [hwrite, Chunk.body, hlength]
  | cons x before =>
    obtain ⟨rfl, -⟩ := List.cons.inj hclosing
    exact absurd (hbefore _ List.mem_cons_self) (Nat.not_lt.mpr (Nat.le_of_eq hlength.symm))

end ChunkWriter

end Toolpath
