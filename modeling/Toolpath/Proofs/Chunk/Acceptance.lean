import Toolpath.Proofs.Chunk.Cutting
import Toolpath.Proofs.Chunk.Sessions

/-!
# What a reader accepts

A reader that is asked for chunks until there is none accepts the runs of chunks, and nothing else.
Every run of bytes is the start of a run of chunks in at most one way, so there is nothing to choose:
the next chunk is there, or the bytes have come to their end, or they end too early. The last can
happen at the length and at the body. It cannot happen at the tag, because a reader that has no
bytes left is at the end.

`RawChunk.Takes` says what the calls in a row come to, without a bound on how many there are, and
`RawChunk.split` is one way to compute it.

## Main definitions

* `RawChunk.Takes` — asking for chunks until there is none
* `RawChunk.Grammatical` — bytes as a run of chunks

## Main results

* `Read.nextChunk_cases` — what the next chunk can be
* `RawChunk.takes_split` — the calls come to an end
* `RawChunk.takes_iff_grammatical` — what is accepted, what comes of everything else, and that a
  body is read on its own
-/

namespace Toolpath

namespace Read

/-- A number of four bytes at the front. -/
theorem exists_on_u32 {bytes : Bytes} (h : 4 ≤ bytes.length) :
    ∃ n, u32.on bytes = (.ok n, bytes.drop 4) := by
  have htake : (take 4).on bytes = (.ok (bytes.take 4), bytes.drop 4) := by rw [on_take, if_pos h]
  exact ⟨_, on_bind_ok htake⟩

/-- **The next chunk** is missing at the end, or it is at the front of the bytes, or they end too
early. -/
theorem nextChunk_cases (bytes : Bytes) :
    (bytes = [] ∧ nextChunk.on bytes = (.ok none, [])) ∨
    (∃ c rest, bytes = Chunk.frame c.1 c.2 ++ rest ∧ c.2.length < UInt32.size ∧
      nextChunk.on bytes = (.ok (some c), rest)) ∨
    (∃ needed available rest, available < needed ∧
      nextChunk.on bytes = (.error (.truncated needed available), rest)) := by
  cases bytes with
  | nil => exact .inl ⟨rfl, on_nextChunk_nil⟩
  | cons tag bytes =>
    right
    have hsteps : nextChunk.on (tag :: bytes) =
        (do let length ← u32; let body ← take length.toNat; return some (tag, body)).on bytes := by
      rw [nextChunk, on_bind_ok (on_get _), List.isEmpty_cons, if_neg Bool.false_ne_true,
        on_bind_ok (on_u8 tag bytes)]
    by_cases hlength : 4 ≤ bytes.length
    · obtain ⟨n, hn⟩ := exists_on_u32 hlength
      rw [on_bind_ok hn] at hsteps
      by_cases hbody : n.toNat ≤ (bytes.drop 4).length
      · have htake : (take n.toNat).on (bytes.drop 4) =
            (.ok ((bytes.drop 4).take n.toNat), (bytes.drop 4).drop n.toNat) := by
          rw [on_take, if_pos hbody]
        rw [on_bind_ok htake] at hsteps
        refine .inl ⟨_, _, on_nextChunk_eq_some hsteps, ?_, hsteps⟩
        rw [List.length_take_of_le hbody]
        exact n.toNat_lt
      · rw [Nat.not_le] at hbody
        exact .inr ⟨_, _, _, hbody, hsteps.trans (on_bind_error (on_take_short hbody))⟩
    · rw [Nat.not_le] at hlength
      exact .inr ⟨_, _, _, hlength,
        hsteps.trans (on_bind_error (on_bind_error (on_take_short hlength)))⟩

/-- A chunk that was read has a body of which four bytes can hold the length. -/
theorem length_lt_of_nextChunk {bytes rest : Bytes} {c : RawChunk}
    (h : nextChunk.on bytes = (.ok (some c), rest)) : c.2.length < UInt32.size := by
  rcases nextChunk_cases bytes with ⟨-, hnone⟩ | ⟨c', rest', -, hlt, hsome⟩ |
    ⟨needed, available, rest', -, hfail⟩
  · cases h.symm.trans hnone
  · cases h.symm.trans hsome
    exact hlt
  · cases h.symm.trans hfail

/-- A chunk that cannot be read ends too early. -/
theorem truncated_of_nextChunk {bytes rest : Bytes} {e : CodecError}
    (h : nextChunk.on bytes = (.error e, rest)) :
    ∃ needed available, available < needed ∧ e = .truncated needed available := by
  rcases nextChunk_cases bytes with ⟨-, hnone⟩ | ⟨c, rest', -, -, hsome⟩ |
    ⟨needed, available, rest', hlt, hfail⟩
  · cases h.symm.trans hnone
  · cases h.symm.trans hsome
  · cases h.symm.trans hfail
    exact ⟨needed, available, hlt, rfl⟩

end Read

namespace RawChunk

variable {bytes : Bytes} {cs ds : List RawChunk} {e f : Option CodecError}

/-! ### Asking until there is none -/

/-- The chunks that a reader of some bytes gives until there is none, or until it fails, and how it
fails. -/
inductive Takes : Bytes → List RawChunk → Option CodecError → Prop
  /-- There is no further chunk. -/
  | finish {bytes left : Bytes} (h : Read.nextChunk.on bytes = (.ok none, left)) :
    Takes bytes [] none
  /-- The next chunk cannot be read. -/
  | fail {bytes left : Bytes} {e : CodecError}
    (h : Read.nextChunk.on bytes = (.error e, left)) : Takes bytes [] (some e)
  /-- There is a chunk, and the reader is asked again. -/
  | more {bytes left : Bytes} {c : RawChunk} {cs : List RawChunk} {e : Option CodecError}
    (h : Read.nextChunk.on bytes = (.ok (some c), left)) (hrest : Takes left cs e) :
    Takes bytes (c :: cs) e

/-- There is one outcome at most. -/
theorem Takes.unique (h : Takes bytes cs e) (h' : Takes bytes ds f) : cs = ds ∧ e = f := by
  induction h generalizing ds f with
  | finish h =>
    cases h' with
    | finish => exact ⟨rfl, rfl⟩
    | fail h' => cases h.symm.trans h'
    | more h' => cases h.symm.trans h'
  | fail h =>
    cases h' with
    | finish h' => cases h.symm.trans h'
    | fail h' =>
      cases h.symm.trans h'
      exact ⟨rfl, rfl⟩
    | more h' => cases h.symm.trans h'
  | more h _ ih =>
    cases h' with
    | finish h' => cases h.symm.trans h'
    | fail h' => cases h.symm.trans h'
    | more h' hrest =>
      cases h.symm.trans h'
      obtain ⟨rfl, rfl⟩ := ih hrest
      exact ⟨rfl, rfl⟩

theorem takes_splitTo {fuel : Nat} (hfuel : bytes.length < fuel) :
    Takes bytes (splitTo fuel bytes).chunks (splitTo fuel bytes).broken := by
  induction fuel generalizing bytes with
  | zero => omega
  | succ fuel ih =>
    rw [splitTo]
    split
    · rename_i hfail
      exact .fail hfail
    · rename_i hnone
      exact .finish hnone
    · rename_i c rest hsome
      obtain rfl := Read.on_nextChunk_eq_some hsome
      rw [List.length_append, Chunk.length_frame] at hfuel
      exact .more hsome (ih (by omega))

/-- **The calls come to an end.** -/
theorem takes_split (bytes : Bytes) : Takes bytes (split bytes).chunks (split bytes).broken :=
  takes_splitTo (Nat.lt_succ_self _)

/-! ### Acceptance -/

/-- The bytes are chunks one after the other, each of them with a length that four bytes can
hold. -/
structure Grammatical (bytes : Bytes) (cs : List RawChunk) : Prop where
  /-- The bytes are those of the chunks. -/
  eq_frames : bytes = frames cs
  /-- The lengths of the bodies are numbers of four bytes. -/
  short : ∀ c ∈ cs, c.2.length < UInt32.size

theorem Takes.grammatical (h : Takes bytes cs none) : Grammatical bytes cs := by
  generalize hend : (none : Option CodecError) = e at h
  induction h with
  | finish h =>
    exact ⟨Read.on_nextChunk_eq_none h, fun c hc => absurd hc List.not_mem_nil⟩
  | fail => cases hend
  | more h _ ih =>
    obtain ⟨hleft, hshort⟩ := ih hend
    refine ⟨?_, List.forall_mem_cons.mpr ⟨Read.length_lt_of_nextChunk h, hshort⟩⟩
    rw [Read.on_nextChunk_eq_some h, hleft, frames_cons]

theorem Grammatical.takes (h : Grammatical bytes cs) : Takes bytes cs none := by
  obtain ⟨rfl, hshort⟩ := h
  induction cs with
  | nil => exact .finish Read.on_nextChunk_nil
  | cons c cs ih =>
    obtain ⟨hc, hcs⟩ := List.forall_mem_cons.mp hshort
    exact .more (Read.on_nextChunk_frame hc) (ih hcs)

/-- If the calls fail, then for want of bytes. -/
theorem Takes.truncated {e : CodecError} (h : Takes bytes cs (some e)) :
    ∃ needed available, available < needed ∧ e = .truncated needed available := by
  generalize hend : some e = ending at h
  induction h with
  | finish => cases hend
  | fail h =>
    obtain rfl := Option.some.inj hend
    exact Read.truncated_of_nextChunk h
  | more _ _ ih => exact ih hend

/-- **What a reader accepts** are the runs of chunks. Bytes are a run of chunks in one way at most,
and if they are not one, the calls end for want of bytes. A chunk that is opened in whatever session
is read as if there were no bytes around it, and everything else as if it were not read. -/
theorem takes_iff_grammatical (bytes : Bytes) :
    (∃! outcome : List RawChunk × Option CodecError, Takes bytes outcome.1 outcome.2) ∧
    (∀ cs, Takes bytes cs none ↔ Grammatical bytes cs) ∧
    (∀ cs ds, Grammatical bytes cs → Grammatical bytes ds → cs = ds) ∧
    ((¬ ∃ cs, Grammatical bytes cs) →
      ∃ cs needed available, available < needed ∧
        Takes bytes cs (some (.truncated needed available))) ∧
    ∀ before p r tag body left, ((Readers.start bytes).run before).2 p = some r →
      Read.nextChunk.on r.left = (.ok (some (tag, body)), left) →
      (((Readers.start bytes).run before).2.ask p .chunk).2.Isolates (r.opened :: p) body := by
  have haccepts (cs : List RawChunk) : Takes bytes cs none ↔ Grammatical bytes cs :=
    ⟨Takes.grammatical, Grammatical.takes⟩
  refine ⟨⟨⟨_, _⟩, takes_split bytes, fun outcome h => ?_⟩, haccepts, fun cs ds hcs hds => ?_,
    fun hnot => ?_, fun before p r tag body left hr hnext => ?_⟩
  · obtain ⟨hchunks, hbroken⟩ := h.unique (takes_split bytes)
    exact Prod.ext hchunks hbroken
  · exact (hcs.takes.unique hds.takes).1
  · have htakes := takes_split bytes
    cases hbroken : (split bytes).broken with
    | none =>
      rw [hbroken] at htakes
      exact absurd ⟨_, htakes.grammatical⟩ hnot
    | some e =>
      rw [hbroken] at htakes
      obtain ⟨needed, available, hlt, rfl⟩ := htakes.truncated
      exact ⟨_, needed, available, hlt, htakes⟩
  · exact ((Readers.orderly_start bytes).run before).isolates_chunk hr hnext

/-- A chunk within a chunk, and then a byte that is not a chunk. -/
theorem takes_iff_grammatical_nested :
    let body : Bytes := [2, 1, 0, 0, 0, 9]
    let whole : Bytes := [1, 6, 0, 0, 0] ++ body
    let broken : Bytes := whole ++ [204]
    (Grammatical whole [(1, body)] ∧ Takes whole [(1, body)] none) ∧
    (¬ (∃ cs, Grammatical broken cs) ∧
      ∃ cs needed available, available < needed ∧
        Takes broken cs (some (.truncated needed available))) ∧
    ((((Readers.start broken).run []).2 [] = some ⟨broken, 0⟩ ∧
      Read.nextChunk.on broken = (.ok (some (1, body)), [204])) ∧
      (((Readers.start broken).run []).2.ask [] .chunk).2.Isolates [0] body) := by
  intro body whole broken
  have hnext : Read.nextChunk.on broken = (.ok (some (1, body)), [204]) := rfl
  have hbroken : Takes broken [(1, body)] (some (.truncated 4 0)) := .more hnext (.fail rfl)
  have hwhole : Grammatical whole [(1, body)] := by
    have hframes : [1, 6, 0, 0, 0, 2, 1, 0, 0, 0, 9] = frames [(1, [2, 1, 0, 0, 0, 9])] := by decide
    exact ⟨hframes, by decide⟩
  obtain ⟨-, haccepts, -, hrefuses, hisolates⟩ := takes_iff_grammatical broken
  have hnot : ¬ ∃ cs, Grammatical broken cs := fun ⟨cs, hcs⟩ => by
    cases (((haccepts cs).mpr hcs).unique hbroken).2
  exact ⟨⟨hwhole, ((takes_iff_grammatical whole).2.1 _).mpr hwhole⟩, ⟨hnot, hrefuses hnot⟩,
    ⟨rfl, hnext⟩, hisolates [] [] ⟨broken, 0⟩ 1 body [204] rfl hnext⟩

end RawChunk

end Toolpath
