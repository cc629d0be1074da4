import Toolpath.Proofs.Chunk.Framing

/-!
# Runs of chunks

Chunks one after the other are a run of bytes, and taking a run of bytes apart gives the chunks back
that it was put together from. So whoever speaks of the places in a body at which a chunk could
stand can speak of lists of chunks.

What is said of bytes that nobody wrote rests on the steps of the reader being exact: what a step
takes and what it leaves are together what was there.

## Main definitions

* `RawChunk.frames` — the bytes of chunks one after the other

## Main results

* `Read.on_nextChunk_eq_some` — what is taken as a chunk is a chunk
* `RawChunk.split_frames` — a run of chunks is taken apart into them
-/

namespace Toolpath

/-! ### Steps are exact -/

namespace Read

variable {α β : Type}

/-- A step that has an outcome had one at each of its parts. -/
theorem on_bind_eq_ok {step : Read α} {next : α → Read β} {bytes rest : Bytes} {b : β}
    (h : (step >>= next).on bytes = (.ok b, rest)) :
    ∃ a left, step.on bytes = (.ok a, left) ∧ (next a).on left = (.ok b, rest) := by
  rw [on_bind] at h
  split at h
  · rename_i a left hstep
    exact ⟨a, left, hstep, h⟩
  · cases h

theorem on_take_eq_ok {n : Nat} {bytes taken rest : Bytes}
    (h : (take n).on bytes = (.ok taken, rest)) : bytes = taken ++ rest ∧ taken.length = n := by
  rw [on_take] at h
  split at h
  · rename_i hle
    obtain ⟨htaken, rfl⟩ := Prod.mk.inj h
    obtain rfl := Except.ok.inj htaken
    exact ⟨(List.take_append_drop n bytes).symm, List.length_take_of_le hle⟩
  · cases h

theorem on_u8_eq_ok {bytes rest : Bytes} {b : UInt8} (h : u8.on bytes = (.ok b, rest)) :
    bytes = b :: rest := by
  obtain ⟨taken, left, htake, hpure⟩ := on_bind_eq_ok h
  obtain ⟨hb, rfl⟩ := Prod.mk.inj hpure
  obtain ⟨rfl, hlength⟩ := on_take_eq_ok htake
  obtain ⟨a, rfl⟩ := List.length_eq_one_iff.mp hlength
  exact congrArg (· :: left) (Except.ok.inj hb)

theorem on_u32_eq_ok {bytes rest : Bytes} {n : UInt32} (h : u32.on bytes = (.ok n, rest)) :
    bytes = littleEndian 4 n.toNat ++ rest := by
  obtain ⟨taken, left, htake, hpure⟩ := on_bind_eq_ok h
  obtain ⟨hn, rfl⟩ := Prod.mk.inj hpure
  obtain ⟨rfl, hlength⟩ := on_take_eq_ok htake
  have hlt : ofLittleEndian taken < UInt32.size := by
    have hbound := ofLittleEndian_lt taken
    rw [hlength] at hbound
    exact hbound
  have hvalue : n.toNat = ofLittleEndian taken :=
    (congrArg UInt32.toNat (Except.ok.inj hn)).symm.trans (UInt32.toNat_ofNat_of_lt' hlt)
  rw [hvalue, ← hlength, littleEndian_ofLittleEndian]

/-- **What is taken as a chunk is a chunk.** -/
theorem on_nextChunk_eq_some {bytes rest : Bytes} {c : RawChunk}
    (h : nextChunk.on bytes = (.ok (some c), rest)) :
    bytes = Chunk.frame c.1 c.2 ++ rest := by
  rw [nextChunk, on_bind_ok (on_get bytes)] at h
  split at h
  · cases h
  · obtain ⟨tag, left, htag, h⟩ := on_bind_eq_ok h
    obtain ⟨length, left', hlength, h⟩ := on_bind_eq_ok h
    obtain ⟨body, left'', hbody, h⟩ := on_bind_eq_ok h
    obtain ⟨hc, rfl⟩ := Prod.mk.inj h
    obtain rfl := Option.some.inj (Except.ok.inj hc)
    obtain ⟨rfl, hsize⟩ := on_take_eq_ok hbody
    rw [on_u8_eq_ok htag, on_u32_eq_ok hlength, Chunk.frame, hsize, List.cons_append,
      List.append_assoc]

theorem on_nextChunk_eq_none {bytes rest : Bytes} (h : nextChunk.on bytes = (.ok none, rest)) :
    bytes = [] := by
  rw [nextChunk, on_bind_ok (on_get bytes)] at h
  split at h
  · rename_i hempty
    exact List.isEmpty_iff.mp hempty
  · obtain ⟨tag, left, htag, h⟩ := on_bind_eq_ok h
    obtain ⟨length, left', hlength, h⟩ := on_bind_eq_ok h
    obtain ⟨body, left'', hbody, h⟩ := on_bind_eq_ok h
    cases h

end Read

/-! ### Runs -/

namespace RawChunk

/-- The bytes of chunks one after the other. -/
def frames (cs : List RawChunk) : Bytes := cs.flatMap fun c => Chunk.frame c.1 c.2

@[simp] theorem frames_nil : frames [] = [] := rfl

@[simp] theorem frames_cons (c : RawChunk) (cs : List RawChunk) :
    frames (c :: cs) = Chunk.frame c.1 c.2 ++ frames cs := rfl

@[simp] theorem frames_append (cs more : List RawChunk) :
    frames (cs ++ more) = frames cs ++ frames more := List.flatMap_append

/-- The body of a chunk in a run is shorter than the run. -/
theorem length_lt_of_mem {c : RawChunk} {cs : List RawChunk} (h : c ∈ cs) :
    c.2.length < (frames cs).length := by
  obtain ⟨before, after, rfl⟩ := List.append_of_mem h
  rw [frames_append, frames_cons, List.length_append, List.length_append, Chunk.length_frame]
  omega

theorem length_le_frames (cs : List RawChunk) : cs.length ≤ (frames cs).length := by
  induction cs with
  | nil => exact Nat.le_refl _
  | cons c cs ih =>
    rw [frames_cons, List.length_append, Chunk.length_frame, List.length_cons]
    omega

/-- A chunk of the grammar that is found as a given one. -/
def leaf (c : RawChunk) : Chunk := .leaf c.1 c.2

theorem frames_eq (cs : List RawChunk) : frames cs = Chunk.bytesOfAll (cs.map leaf) := by
  rw [Chunk.bytesOfAll_eq_flatMap, List.flatMap_map]
  rfl

/-- **A run of chunks is taken apart into them.** -/
theorem split_frames {cs : List RawChunk} (h : (frames cs).length < UInt32.size) :
    split (frames cs) = ⟨cs, none⟩ := by
  have hfits : Chunk.FitsAll (cs.map leaf) := by
    refine Chunk.fitsAll_iff.mpr fun c hc => ?_
    obtain ⟨c, hmem, rfl⟩ := List.mem_map.mp hc
    exact Nat.lt_trans (length_lt_of_mem hmem) h
  have hraw : (cs.map leaf).map Chunk.raw = cs := by
    rw [List.map_map]
    exact List.map_id cs
  rw [frames_eq, split_bytesOfAll hfits, hraw]

end RawChunk

end Toolpath
