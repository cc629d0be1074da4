import Toolpath.Chunk.Stream

/-!
# Streams in two parts

The place of a stream parts its bytes: those in front of it are done with, and those behind it will
be gone over next. Writing moves bytes into the front and takes as many off the back, so nothing in
the front is touched. Going back to a place and then to the old one again leaves the parts where
they were; what was written on the way replaces as many bytes of the front.

A place beyond the last byte has a front as well, with zeros in the gap. They are there as soon as
something is written, so a stream is in two parts from the first write on.

## Main definitions

* `ByteStream.front`, `ByteStream.back` — the bytes on either side of the place
* `ByteStream.Parted` — the bytes of a stream are two given parts, and it stands between them

## Main results

* `ByteStream.parted_write` — what is written goes behind the front and over the back
* `ByteStream.Parted.rewrite` — what is written further in front replaces what was there
-/

namespace Toolpath

namespace ByteStream

variable {s : ByteStream} {done ahead : Bytes}

/-- The bytes in front of the place, with zeros where there are none. -/
def front (s : ByteStream) : Bytes :=
  (s.toBytes ++ List.replicate (s.place - s.toBytes.length) 0).take s.place

/-- The bytes from the place on. -/
def back (s : ByteStream) : Bytes := s.toBytes.drop s.place

/-- The stream stands between two parts. -/
structure Parted (s : ByteStream) (done ahead : Bytes) : Prop where
  /-- The bytes are those of the two parts. -/
  bytes : s.toBytes = done ++ ahead
  /-- The place is between them. -/
  place : s.place = done.length

theorem parted_empty : empty.Parted [] [] := ⟨rfl, rfl⟩

@[simp] theorem length_front (s : ByteStream) : s.front.length = s.place := by
  rw [front, List.length_take, List.length_append, List.length_replicate]
  omega

theorem Parted.front_eq (h : s.Parted done ahead) : s.front = done := by
  have hgap : s.place - s.toBytes.length = 0 := by
    rw [h.place, h.bytes, List.length_append]
    omega
  rw [ByteStream.front, hgap, h.place, h.bytes, List.replicate_zero, List.append_nil,
    List.take_left]

theorem Parted.back_eq (h : s.Parted done ahead) : s.back = ahead := by
  rw [ByteStream.back, h.place, h.bytes, List.drop_left]

/-! ### Writing -/

theorem toList_pushZeros (n : Nat) (bytes : Array UInt8) :
    (pushZeros n bytes).toList = bytes.toList ++ List.replicate n 0 := by
  induction n generalizing bytes with
  | zero => exact (List.append_nil _).symm
  | succ n ih =>
    rw [pushZeros, ih, Array.toList_push, List.append_assoc, List.replicate_succ]
    rfl

/-- Without a gap the stream is in two parts. -/
theorem parted_filled (s : ByteStream) : s.filled.Parted s.front s.back := by
  refine ⟨?_, s.length_front.symm⟩
  have hbytes : s.filled.toBytes =
      s.toBytes ++ List.replicate (s.place - s.toBytes.length) 0 := toList_pushZeros _ _
  by_cases hgap : s.place ≤ s.toBytes.length
  · rw [hbytes, front, back, Nat.sub_eq_zero_of_le hgap, List.replicate_zero, List.append_nil,
      List.take_append_drop]
  · rw [hbytes, front, back, List.drop_of_length_le (by omega), List.append_nil,
      List.take_of_length_le]
    rw [List.length_append, List.length_replicate]
    omega

theorem Parted.put (h : s.Parted done ahead) (b : UInt8) :
    (s.put b).Parted (done ++ [b]) (ahead.drop 1) := by
  have hplace : (s.put b).place = s.place + 1 := rfl
  refine ⟨?_, by rw [hplace, h.place, List.length_append, List.length_singleton]⟩
  show (if s.place < s.bytes.size then s.bytes.setIfInBounds s.place b else s.bytes.push b).toList =
    _
  have hbytes : s.bytes.toList = done ++ ahead := h.bytes
  have hsize : s.bytes.size = done.length + ahead.length := by
    rw [← Array.length_toList, hbytes, List.length_append]
  rw [h.place, hsize]
  cases ahead with
  | nil =>
    rw [if_neg (by simp), Array.toList_push, hbytes]
    simp
  | cons old ahead =>
    rw [if_pos (by simp), Array.toList_setIfInBounds, hbytes]
    simp

theorem Parted.foldl_put (h : s.Parted done ahead) (bs : Bytes) :
    (bs.foldl ByteStream.put s).Parted (done ++ bs) (ahead.drop bs.length) := by
  induction bs generalizing s done ahead with
  | nil =>
    rw [List.append_nil]
    exact h
  | cons b bs ih =>
    have hrest := ih (h.put b)
    rwa [List.append_assoc, List.drop_drop, Nat.add_comm] at hrest

/-- **What is written goes behind the front and over the back.** -/
theorem parted_write (s : ByteStream) (bs : Bytes) :
    (s.write bs).Parted (s.front ++ bs) (s.back.drop bs.length) :=
  s.parted_filled.foldl_put bs

theorem Parted.write (h : s.Parted done ahead) (bs : Bytes) :
    (s.write bs).Parted (done ++ bs) (ahead.drop bs.length) := by
  have hwrite := s.parted_write bs
  rwa [h.front_eq, h.back_eq] at hwrite

/-! ### Going back -/

/-- A stream may stand between any two parts of its bytes. -/
theorem parted_seek (h : s.toBytes = done ++ ahead) : (s.seek done.length).Parted done ahead :=
  ⟨h, rfl⟩

/-- **What is written further in front replaces what was there**, and the stream stands where it
stood. -/
theorem Parted.rewrite {pre old bs post : Bytes} (h : s.Parted (pre ++ old ++ post) ahead)
    (hlength : bs.length = old.length) :
    (((s.seek pre.length).write bs).seek s.place).Parted (pre ++ bs ++ post) ahead := by
  have hseek : (s.seek pre.length).Parted pre (old ++ (post ++ ahead)) :=
    parted_seek (by rw [h.bytes, List.append_assoc, List.append_assoc])
  have hwrite := hseek.write bs
  rw [hlength, List.drop_left] at hwrite
  have hplace : s.place = (pre ++ bs ++ post).length := by
    rw [h.place]
    simp only [List.length_append, hlength]
  rw [hplace]
  exact parted_seek (by rw [hwrite.bytes, List.append_assoc, List.append_assoc, List.append_assoc])

end ByteStream

end Toolpath
