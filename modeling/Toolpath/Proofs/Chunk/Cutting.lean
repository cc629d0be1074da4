import Toolpath.Proofs.Chunk.Framing

/-!
# Runs of chunks that are cut

A run of chunks can be cut anywhere. Between two chunks the cut leaves no trace: what is in front of
it is a run of its own. Within a chunk it is noticed, because a chunk says how long it is before it
is read: first its length is missing, and then a part of its body. So it does not matter what the
body holds, and whether the part that is there could be read on its own.

## Main definitions

* `Chunk.cutFault` — what is wrong with the first bytes of a chunk

## Main results

* `Chunk.exists_cut` — a cut goes between two chunks or through one
* `RawChunk.split_between`, `RawChunk.split_through` — what is found in front of a cut
-/

namespace Toolpath

/-! ### The first bytes of a chunk -/

/-- What is wrong with the first `n` bytes of a chunk with a body of some size: the length is not
all there, or the body is not. -/
def Chunk.cutFault (size n : Nat) : CodecError :=
  if n < 5 then .truncated 4 (n - 1) else .truncated size (n - 5)

/-- There are fewer bytes than are needed. -/
theorem Chunk.cutFault_eq {size n : Nat} (hpos : 0 < n) (hlt : n < 5 + size) :
    ∃ needed available, available < needed ∧ cutFault size n = .truncated needed available := by
  rw [cutFault]
  split
  · exact ⟨4, n - 1, by omega, rfl⟩
  · exact ⟨size, n - 5, by omega, rfl⟩

namespace Read

variable {α β : Type}

theorem on_bind_error {step : Read α} {next : α → Read β} {bytes rest : Bytes} {e : CodecError}
    (h : step.on bytes = (.error e, rest)) : (step >>= next).on bytes = (.error e, rest) := by
  rw [on_bind, h]

theorem on_take_short {n : Nat} {bytes : Bytes} (h : bytes.length < n) :
    (take n).on bytes = (.error (.truncated n bytes.length), bytes) := by
  rw [on_take, if_neg (Nat.not_le.mpr h)]

/-- **A chunk of which only the first bytes are there is not read.** -/
theorem on_nextChunk_cut {tag : UInt8} {body : Bytes} (h : body.length < UInt32.size) {n : Nat}
    (hpos : 0 < n) (hlt : n < (Chunk.frame tag body).length) :
    ∃ rest, nextChunk.on ((Chunk.frame tag body).take n) =
      (.error (Chunk.cutFault body.length n), rest) := by
  obtain ⟨k, rfl⟩ : ∃ k, n = k + 1 := ⟨n - 1, by omega⟩
  have hlength : (UInt32.ofNat body.length).toNat = body.length := UInt32.toNat_ofNat_of_lt' h
  rw [Chunk.length_frame] at hlt
  rw [Chunk.frame, List.take_succ_cons, nextChunk, on_bind_ok (on_get _), List.isEmpty_cons,
    if_neg Bool.false_ne_true, on_bind_ok (on_u8 tag _)]
  by_cases hk : k < 4
  · have hshort : ((littleEndian 4 body.length ++ body).take k).length = k := by
      rw [List.length_take, List.length_append, length_littleEndian]
      omega
    have htake := on_take_short (Nat.lt_of_le_of_lt (Nat.le_of_eq hshort) hk)
    rw [hshort] at htake
    rw [Chunk.cutFault, if_pos (by omega), Nat.add_sub_cancel]
    exact ⟨_, on_bind_error (on_bind_error htake)⟩
  · have hsplit : (littleEndian 4 body.length ++ body).take k =
        littleEndian 4 body.length ++ body.take (k - 4) := by
      rw [List.take_append, length_littleEndian, List.take_of_length_le]
      rw [length_littleEndian]
      omega
    have hshort : (body.take (k - 4)).length = k - 4 := by
      rw [List.length_take]
      omega
    rw [hsplit, on_bind_ok (on_u32 _ h _), hlength]
    have hlt : (body.take (k - 4)).length < body.length := by omega
    have htake := on_take_short hlt
    rw [hshort] at htake
    rw [Chunk.cutFault, if_neg (by omega), Nat.succ_sub_succ]
    exact ⟨_, on_bind_error htake⟩

end Read

/-! ### Places in a run -/

namespace Chunk

theorem bytesOfAll_append (cs more : List Chunk) :
    bytesOfAll (cs ++ more) = bytesOfAll cs ++ bytesOfAll more := by
  rw [bytesOfAll_eq_flatMap, bytesOfAll_eq_flatMap, bytesOfAll_eq_flatMap, List.flatMap_append]

theorem bytesOfAll_take_drop (cs : List Chunk) (k : Nat) :
    bytesOfAll cs = bytesOfAll (cs.take k) ++ bytesOfAll (cs.drop k) := by
  rw [← bytesOfAll_append, List.take_append_drop]

/-- What is in front of a chunk is shorter than what is in front of a later one. -/
theorem length_take_lt {cs : List Chunk} {i k : Nat} (hik : i < k) (hk : k ≤ cs.length) :
    (bytesOfAll (cs.take i)).length < (bytesOfAll (cs.take k)).length := by
  have htake : (cs.take k).take i = cs.take i := by
    rw [List.take_take, Nat.min_eq_left (Nat.le_of_lt hik)]
  have hrest : 0 < ((cs.take k).drop i).length := by
    rw [List.length_drop, List.length_take]
    omega
  obtain ⟨c, rest, hc⟩ := List.exists_cons_of_length_pos hrest
  rw [bytesOfAll_take_drop (cs.take k) i, htake, hc, List.length_append, bytesOfAll,
    List.length_append, bytes_eq_frame, length_frame]
  omega

/-- **A cut goes between two chunks or through one.** -/
theorem exists_cut {cs : List Chunk} {n : Nat} (h : n ≤ (bytesOfAll cs).length) :
    (∃ k ≤ cs.length, n = (bytesOfAll (cs.take k)).length) ∨
      ∃ k c m, cs[k]? = some c ∧ 0 < m ∧ m < c.bytes.length ∧
        n = (bytesOfAll (cs.take k)).length + m := by
  induction cs generalizing n with
  | nil => exact .inl ⟨0, Nat.le_refl _, Nat.le_zero.mp h⟩
  | cons c cs ih =>
    rw [bytesOfAll, List.length_append] at h
    by_cases hzero : n = 0
    · exact .inl ⟨0, Nat.zero_le _, hzero⟩
    · by_cases hfirst : n < c.bytes.length
      · exact .inr ⟨0, c, n, rfl, Nat.pos_of_ne_zero hzero, hfirst, (Nat.zero_add n).symm⟩
      · obtain ⟨m, rfl⟩ := Nat.exists_eq_add_of_le (Nat.le_of_not_lt hfirst)
        rcases ih (n := m) (by omega) with ⟨k, hk, rfl⟩ | ⟨k, b, i, hb, hpos, hlt, rfl⟩
        · refine .inl ⟨k + 1, Nat.succ_le_succ hk, ?_⟩
          rw [List.take_succ_cons, bytesOfAll, List.length_append]
        · refine .inr ⟨k + 1, b, i, hb, hpos, hlt, ?_⟩
          rw [List.take_succ_cons, bytesOfAll, List.length_append, Nat.add_assoc]

end Chunk

/-! ### What is found in front of a cut -/

namespace RawChunk

/-- Chunks are taken off the front of whatever follows them. -/
theorem splitTo_append {cs : List Chunk} (h : Chunk.FitsAll cs) (fuel : Nat) (rest : Bytes) :
    splitTo (cs.length + fuel) (Chunk.bytesOfAll cs ++ rest) =
      ⟨cs.map Chunk.raw ++ (splitTo fuel rest).chunks, (splitTo fuel rest).broken⟩ := by
  induction cs with
  | nil => rw [List.length_nil, Nat.zero_add]; rfl
  | cons c cs ih =>
    have hfuel : (c :: cs).length + fuel = cs.length + fuel + 1 := by
      rw [List.length_cons]
      omega
    rw [hfuel, splitTo, Chunk.bytesOfAll, List.append_assoc, Chunk.bytes_eq_frame,
      Read.on_nextChunk_frame h.1.body_lt]
    simp only [ih h.2, List.map_cons, Chunk.raw, List.cons_append]

/-- **Between two chunks a cut leaves no trace.** -/
theorem split_between {cs : List Chunk} (h : Chunk.FitsAll cs) (k : Nat) :
    split ((Chunk.bytesOfAll cs).take (Chunk.bytesOfAll (cs.take k)).length) =
      ⟨(cs.take k).map Chunk.raw, none⟩ := by
  have hfits : Chunk.FitsAll (cs.take k) :=
    Chunk.fitsAll_iff.mpr fun c hc => Chunk.fitsAll_iff.mp h c (List.mem_of_mem_take hc)
  rw [Chunk.bytesOfAll_take_drop cs k, List.take_left, split_bytesOfAll hfits]

/-- **Through a chunk a cut is noticed**, after everything in front of that chunk was found. -/
theorem split_through {cs : List Chunk} (h : Chunk.FitsAll cs) {k m : Nat} {c : Chunk}
    (hc : cs[k]? = some c) (hpos : 0 < m) (hlt : m < c.bytes.length) :
    split ((Chunk.bytesOfAll cs).take ((Chunk.bytesOfAll (cs.take k)).length + m)) =
      ⟨(cs.take k).map Chunk.raw, some (Chunk.cutFault c.body.length m)⟩ := by
  have hfits : Chunk.FitsAll (cs.take k) :=
    Chunk.fitsAll_iff.mpr fun c hc => Chunk.fitsAll_iff.mp h c (List.mem_of_mem_take hc)
  have hbody := (Chunk.fitsAll_iff.mp h c (List.mem_of_getElem? hc)).body_lt
  obtain ⟨hk, hget⟩ := List.getElem?_eq_some_iff.mp hc
  rw [Chunk.bytes_eq_frame] at hlt
  have hdrop : Chunk.bytesOfAll (cs.drop k) =
      Chunk.frame c.tag c.body ++ Chunk.bytesOfAll (cs.drop (k + 1)) := by
    rw [List.drop_eq_getElem_cons hk, hget, Chunk.bytesOfAll, Chunk.bytes_eq_frame]
  have htake : (Chunk.bytesOfAll cs).take ((Chunk.bytesOfAll (cs.take k)).length + m) =
      Chunk.bytesOfAll (cs.take k) ++ (Chunk.frame c.tag c.body).take m := by
    rw [Chunk.bytesOfAll_take_drop cs k, List.take_length_add_append, hdrop,
      List.take_append_of_le_length (Nat.le_of_lt hlt)]
  obtain ⟨rest, hcut⟩ := Read.on_nextChunk_cut hbody hpos hlt
  have hlength := length_le_bytesOfAll (cs.take k)
  obtain ⟨fuel, hfuel⟩ : ∃ fuel, (Chunk.bytesOfAll (cs.take k) ++
      (Chunk.frame c.tag c.body).take m).length + 1 = (cs.take k).length + (fuel + 1) := by
    refine ⟨(Chunk.bytesOfAll (cs.take k) ++ (Chunk.frame c.tag c.body).take m).length -
      (cs.take k).length, ?_⟩
    rw [List.length_append]
    omega
  rw [htake, split, hfuel, splitTo_append hfits, splitTo, hcut]
  simp only [List.append_nil]

end RawChunk

end Toolpath
