import Toolpath.Chunk.Reader
import Toolpath.Chunk.Writer
import Toolpath.Proofs.Chunk.Streams

/-!
# Chunks written and read

The grammar of chunks, `Chunk.bytes`, is what the writer and the reader have in common. The writer
goes back and patches lengths, the reader takes bytes off the front; each is compared with the
grammar, and neither with the other.

A length has four bytes. A chunk *fits* if every body in it is that short; the writer refuses the
others, so what it has written fits, and the reader finds the chunks again without any further
condition.

## Main definitions

* `Chunk.raw` — a chunk as the reader finds it
* `Chunk.Fits` — every body is short enough for its length to be written
* `Chunk.size` — the number of bytes, counted without writing them

## Main results

* `ChunkWriter.write_spec` — what is written are the bytes of the grammar
* `ChunkWriter.exists_write` — the writer refuses nothing that fits
* `RawChunk.split_bytesOfAll` — bytes of the grammar are taken apart into their chunks
-/

namespace Toolpath

namespace Chunk

/-- A chunk as the reader finds it. -/
def raw (c : Chunk) : RawChunk := (c.tag, c.body)

mutual

/-- The length of every body can be written. -/
def Fits : Chunk → Prop
  | .leaf _ body => body.length < UInt32.size
  | .group _ parts => (bytesOfAll parts).length < UInt32.size ∧ FitsAll parts

/-- `Fits` for chunks one after the other. -/
def FitsAll : List Chunk → Prop
  | [] => True
  | c :: cs => Fits c ∧ FitsAll cs

end

theorem Fits.body_lt {c : Chunk} (h : c.Fits) : c.body.length < UInt32.size := by
  cases c with
  | leaf => exact h
  | group => exact h.1

theorem fitsAll_iff {cs : List Chunk} : FitsAll cs ↔ ∀ c ∈ cs, c.Fits := by
  induction cs with
  | nil => simp [FitsAll]
  | cons c cs ih => simp [FitsAll, ih]

mutual

/-- What is short enough as a whole is short enough in every part. -/
theorem fits_of_length : ∀ {c : Chunk}, c.bytes.length < UInt32.size → c.Fits
  | .leaf _ body, h => by
    rw [bytes, frame, List.length_cons, List.length_append] at h
    exact show body.length < UInt32.size by omega
  | .group _ parts, h => by
    rw [bytes, frame, List.length_cons, List.length_append] at h
    have hparts : (bytesOfAll parts).length < UInt32.size := by omega
    exact ⟨hparts, fitsAll_of_length hparts⟩

theorem fitsAll_of_length : ∀ {cs : List Chunk}, (bytesOfAll cs).length < UInt32.size → FitsAll cs
  | [], _ => trivial
  | c :: cs, h => by
    rw [bytesOfAll, List.length_append] at h
    exact ⟨fits_of_length (by omega), fitsAll_of_length (by omega)⟩

end

mutual

/-- The number of bytes of a chunk. -/
def size : Chunk → Nat
  | leaf _ body => 5 + body.length
  | group _ parts => 5 + sizeOfAll parts

/-- The number of bytes of chunks one after the other. -/
def sizeOfAll : List Chunk → Nat
  | [] => 0
  | c :: cs => size c + sizeOfAll cs

end

theorem length_frame (tag : UInt8) (body : Bytes) : (frame tag body).length = 5 + body.length := by
  rw [frame, List.length_cons, List.length_append, length_littleEndian]
  omega

mutual

theorem length_bytes : ∀ c : Chunk, c.bytes.length = c.size
  | .leaf tag body => length_frame tag body
  | .group tag parts => by rw [bytes, length_frame, length_bytesOfAll, size]

theorem length_bytesOfAll : ∀ cs : List Chunk, (bytesOfAll cs).length = sizeOfAll cs
  | [] => rfl
  | c :: cs => by
    rw [bytesOfAll, List.length_append, length_bytes, length_bytesOfAll, sizeOfAll]

end

end Chunk

/-! ### Writing -/

namespace ChunkWriter

variable {w w₁ w' : ChunkWriter} {body : ChunkWriter → Except CodecError ChunkWriter} {tag : UInt8}
  {pre post bs ahead : Bytes}

theorem parted_empty : empty.out.Parted [] [] := ByteStream.parted_empty

theorem parted_raw (w : ChunkWriter) (bs : Bytes) :
    (w.raw bs).out.Parted (w.out.front ++ bs) (w.out.back.drop bs.length) :=
  w.out.parted_write bs

/-- At its end a stream is written on. -/
theorem parted_append {done : Bytes} (hw : w.out.Parted done []) (bs : Bytes) :
    (w.raw bs).out.Parted (done ++ bs) [] := by
  have hwrite := hw.write bs
  rwa [List.drop_nil] at hwrite

/-- Room for a length, filled in after what follows it was written. -/
theorem patch_spec {n : Nat} (hw : w.out.Parted (pre ++ littleEndian 4 0 ++ post) ahead)
    (h : w.patch pre.length n = .ok w') :
    w'.out.Parted (pre ++ littleEndian 4 n ++ post) ahead ∧ n < UInt32.size := by
  unfold patch at h
  split at h
  · rename_i hn
    obtain rfl := Except.ok.inj h
    exact ⟨hw.rewrite (by simp), hn⟩
  · cases h

theorem fst_openChunk (w : ChunkWriter) (tag : UInt8) :
    (w.openChunk tag).1 = (w.out.front ++ [tag]).length :=
  (w.parted_raw [tag]).place

/-- A chunk is opened with its tag and room for its length. -/
theorem parted_openChunk (w : ChunkWriter) (tag : UInt8) :
    (w.openChunk tag).2.out.Parted (w.out.front ++ [tag] ++ littleEndian 4 0)
      (w.out.back.drop 5) := by
  have hlength := (w.parted_raw [tag]).write (littleEndian 4 0)
  rwa [List.drop_drop, length_littleEndian] at hlength

theorem chunk_of_ok (h : body (w.openChunk tag).2 = .ok w₁) :
    w.chunk tag body = w₁.close (w.openChunk tag).1 := by
  simp only [chunk, h]

theorem chunk_of_error {e : CodecError} (h : body (w.openChunk tag).2 = .error e) :
    w.chunk tag body = .error e := by
  simp only [chunk, h]

/-- A chunk is closed with the length of what was written since it was opened. -/
theorem close_eq (h : w₁.out.Parted (w.out.front ++ [tag] ++ littleEndian 4 0 ++ bs) ahead) :
    w₁.close (w.openChunk tag).1 = w₁.patch (w.out.front ++ [tag]).length bs.length := by
  have hlength : w₁.position - ((w.out.front ++ [tag]).length + 4) = bs.length := by
    rw [position, h.place]
    simp only [List.length_append, length_littleEndian]
    omega
  rw [close, fst_openChunk, hlength]

/-- A chunk is framed, if its body is written and short enough. -/
theorem chunk_spec (h : w.chunk tag body = .ok w') (hbody : body (w.openChunk tag).2 = .ok w₁)
    (h₁ : w₁.out.Parted (w.out.front ++ [tag] ++ littleEndian 4 0 ++ bs)
      ((w.out.back.drop 5).drop bs.length)) :
    w'.out.Parted (w.out.front ++ Chunk.frame tag bs)
        (w.out.back.drop (Chunk.frame tag bs).length) ∧ bs.length < UInt32.size := by
  rw [chunk_of_ok hbody, close_eq h₁] at h
  obtain ⟨hout, hlt⟩ := patch_spec h₁ h
  rw [List.drop_drop, List.append_assoc, List.append_assoc] at hout
  rw [Chunk.length_frame]
  exact ⟨hout, hlt⟩

theorem write_leaf (w : ChunkWriter) (tag : UInt8) (bs : Bytes) :
    w.write (.leaf tag bs) = w.chunk tag fun w => .ok (w.raw bs) := by
  rw [write]

theorem write_group (w : ChunkWriter) (tag : UInt8) (parts : List Chunk) :
    w.write (.group tag parts) = w.chunk tag fun w => w.writeAll parts := by
  rw [write]

theorem parted_body (w : ChunkWriter) (tag : UInt8) (bs : Bytes) :
    ((w.openChunk tag).2.raw bs).out.Parted (w.out.front ++ [tag] ++ littleEndian 4 0 ++ bs)
      ((w.out.back.drop 5).drop bs.length) :=
  (w.parted_openChunk tag).write bs

mutual

/-- **What is written are the bytes of the grammar**, and it fits. -/
theorem write_spec {w w' : ChunkWriter} : ∀ {c : Chunk}, w.write c = .ok w' →
    w'.out.Parted (w.out.front ++ c.bytes) (w.out.back.drop c.bytes.length) ∧ c.Fits
  | .leaf tag body, h => by
    rw [write_leaf] at h
    rw [Chunk.bytes, Chunk.Fits]
    exact chunk_spec h rfl (w.parted_body tag body)
  | .group tag parts, h => by
    rw [write_group] at h
    cases hparts : ((w.openChunk tag).2).writeAll parts with
    | error e => exact absurd ((chunk_of_error hparts).symm.trans h) (by simp)
    | ok w₁ =>
      obtain ⟨hout, hfits⟩ := writeAll_spec (w.parted_openChunk tag) hparts
      obtain ⟨hbytes, hlt⟩ := chunk_spec h hparts hout
      rw [Chunk.bytes]
      exact ⟨hbytes, hlt, hfits⟩

theorem writeAll_spec {w w' : ChunkWriter} {done ahead : Bytes} (hw : w.out.Parted done ahead) :
    ∀ {cs : List Chunk}, w.writeAll cs = .ok w' →
      w'.out.Parted (done ++ Chunk.bytesOfAll cs) (ahead.drop (Chunk.bytesOfAll cs).length) ∧
        Chunk.FitsAll cs
  | [], h => by
    obtain rfl := Except.ok.inj h
    rw [Chunk.bytesOfAll, List.append_nil]
    exact ⟨hw, trivial⟩
  | c :: cs, h => by
    simp only [writeAll] at h
    split at h
    · rename_i w₁ hc
      obtain ⟨hout, hfits⟩ := write_spec hc
      rw [hw.front_eq, hw.back_eq] at hout
      obtain ⟨hrest, hfitsAll⟩ := writeAll_spec hout h
      rw [List.append_assoc, List.drop_drop, ← List.length_append] at hrest
      exact ⟨hrest, hfits, hfitsAll⟩
    · cases h

end

/-- A chunk whose body is written and short enough can be closed. -/
theorem exists_chunk (hbody : body (w.openChunk tag).2 = .ok w₁)
    (h₁ : w₁.out.Parted (w.out.front ++ [tag] ++ littleEndian 4 0 ++ bs) ahead)
    (hlt : bs.length < UInt32.size) : ∃ w', w.chunk tag body = .ok w' := by
  rw [chunk_of_ok hbody, close_eq h₁, patch, if_pos hlt]
  exact ⟨_, rfl⟩

mutual

/-- **The writer refuses nothing that fits.** -/
theorem exists_write {w : ChunkWriter} : ∀ {c : Chunk}, c.Fits → ∃ w', w.write c = .ok w'
  | .leaf tag body, h => by
    rw [write_leaf]
    exact exists_chunk rfl (w.parted_body tag body) h
  | .group tag parts, h => by
    obtain ⟨w₁, hw₁⟩ := exists_writeAll (w := (w.openChunk tag).2) h.2
    rw [write_group]
    exact exists_chunk hw₁ (writeAll_spec (w.parted_openChunk tag) hw₁).1 h.1

theorem exists_writeAll {w : ChunkWriter} : ∀ {cs : List Chunk}, Chunk.FitsAll cs →
    ∃ w', w.writeAll cs = .ok w'
  | [], _ => ⟨w, rfl⟩
  | c :: cs, h => by
    obtain ⟨w₁, hw₁⟩ := exists_write (w := w) h.1
    obtain ⟨w', hw'⟩ := exists_writeAll (w := w₁) h.2
    exact ⟨w', by simp only [writeAll, hw₁, hw']⟩

end

end ChunkWriter

/-! ### Reading -/

theorem hasAtLeast_iff {n : Nat} {bytes : Bytes} :
    hasAtLeast n bytes = true ↔ n ≤ bytes.length := by
  cases n with
  | zero => simp [hasAtLeast]
  | succ k =>
    rw [hasAtLeast, Bool.not_eq_true', List.isEmpty_eq_false_iff, List.ne_nil_iff_length_pos,
      List.length_drop]
    omega

namespace Read

variable {α β : Type}

@[simp] theorem on_pure (a : α) (bytes : Bytes) : (pure a : Read α).on bytes = (.ok a, bytes) := rfl

theorem on_bind (step : Read α) (next : α → Read β) (bytes : Bytes) :
    (step >>= next).on bytes =
      match step.on bytes with
      | (.ok a, rest) => (next a).on rest
      | (.error e, rest) => (.error e, rest) := by
  simp only [on, ExceptT.run, bind, ExceptT.bind, ExceptT.mk, StateT.bind, StateT.run]
  cases h : step bytes with
  | mk r rest => cases r <;> rfl

theorem on_bind_ok {step : Read α} {next : α → Read β} {bytes rest : Bytes} {a : α}
    (h : step.on bytes = (.ok a, rest)) : (step >>= next).on bytes = (next a).on rest := by
  rw [on_bind, h]

@[simp] theorem on_get (bytes : Bytes) : (get : Read Bytes).on bytes = (.ok bytes, bytes) := rfl

theorem on_set_bind (next : Read α) (left bytes : Bytes) :
    (do set left; next : Read α).on bytes = next.on left := rfl

theorem on_take (n : Nat) (bytes : Bytes) :
    (take n).on bytes = if n ≤ bytes.length then (.ok (bytes.take n), bytes.drop n)
      else (.error (.truncated n bytes.length), bytes) := by
  rw [take, on_bind_ok (on_get bytes)]
  by_cases h : n ≤ bytes.length
  · rw [if_pos h, if_pos (hasAtLeast_iff.mpr h)]
    rfl
  · rw [if_neg h, if_neg (mt hasAtLeast_iff.mp h)]
    rfl

theorem on_take_append {n : Nat} {xs ys : Bytes} (h : xs.length = n) :
    (take n).on (xs ++ ys) = (.ok xs, ys) := by
  subst h
  rw [on_take, if_pos (by simp), List.take_left, List.drop_left]

theorem on_u8 (b : UInt8) (rest : Bytes) : u8.on (b :: rest) = (.ok b, rest) :=
  on_bind_ok (on_take_append (show [b].length = 1 from rfl))

theorem on_u32 (n : Nat) (hn : n < UInt32.size) (rest : Bytes) :
    u32.on (littleEndian 4 n ++ rest) = (.ok (UInt32.ofNat n), rest) := by
  have hvalue : ofLittleEndian (littleEndian 4 n) = n := by
    rw [ofLittleEndian_littleEndian]
    exact Nat.mod_eq_of_lt hn
  rw [u32, on_bind_ok (on_take_append (length_littleEndian 4 n)), hvalue]
  rfl

theorem on_nextChunk_nil : nextChunk.on [] = (.ok none, []) := rfl

theorem on_nextChunk_frame {tag : UInt8} {body rest : Bytes} (h : body.length < UInt32.size) :
    nextChunk.on (Chunk.frame tag body ++ rest) = (.ok (some (tag, body)), rest) := by
  have hlength : (UInt32.ofNat body.length).toNat = body.length := UInt32.toNat_ofNat_of_lt' h
  rw [nextChunk, on_bind_ok (on_get _)]
  have hsome : (Chunk.frame tag body ++ rest).isEmpty = false := rfl
  rw [hsome, if_neg Bool.false_ne_true]
  simp only [Chunk.frame, List.cons_append, List.append_assoc]
  rw [on_bind_ok (on_u8 tag _), on_bind_ok (on_u32 _ h _), hlength, on_bind_ok (on_take_append rfl)]
  rfl

end Read

namespace RawChunk

theorem splitTo_bytesOfAll {cs : List Chunk} (h : Chunk.FitsAll cs) {fuel : Nat}
    (hfuel : cs.length < fuel) :
    splitTo fuel (Chunk.bytesOfAll cs) = ⟨cs.map Chunk.raw, none⟩ := by
  induction cs generalizing fuel with
  | nil =>
    obtain ⟨fuel, rfl⟩ : ∃ k, fuel = k + 1 := ⟨fuel - 1, by omega⟩
    rw [splitTo, Chunk.bytesOfAll, Read.on_nextChunk_nil]
    rfl
  | cons c cs ih =>
    obtain ⟨fuel, rfl⟩ : ∃ k, fuel = k + 1 := ⟨fuel - 1, by omega⟩
    have hrest := ih h.2 (Nat.lt_of_succ_lt_succ hfuel)
    rw [splitTo, Chunk.bytesOfAll, Chunk.bytes_eq_frame, Read.on_nextChunk_frame h.1.body_lt]
    simp only [hrest, List.map_cons, Chunk.raw]

theorem length_le_bytesOfAll (cs : List Chunk) : cs.length ≤ (Chunk.bytesOfAll cs).length := by
  induction cs with
  | nil => exact Nat.zero_le _
  | cons c cs ih =>
    rw [Chunk.bytesOfAll, Chunk.bytes_eq_frame, Chunk.frame]
    simp only [List.length_cons, List.cons_append, List.length_append]
    omega

/-- **Bytes of the grammar are taken apart into their chunks.** -/
theorem split_bytesOfAll {cs : List Chunk} (h : Chunk.FitsAll cs) :
    split (Chunk.bytesOfAll cs) = ⟨cs.map Chunk.raw, none⟩ :=
  splitTo_bytesOfAll h (Nat.lt_succ_of_le (length_le_bytesOfAll cs))

end RawChunk

end Toolpath
