import Mathlib.Data.List.Infix
import Mathlib.Logic.Function.Basic
import Toolpath.Proofs.Chunk.Frames

/-!
# Readers beside one another

Whoever reads a file holds many readers at a time: the one it began with, and one for every chunk
that was opened, within each other to any depth. They are asked in any order, and some of the calls
fail. A session is such a run of calls. It is told from outside, because a single reader knows
nothing of the others: `Readers.run` gives the answers of all of them.

A reader is named by the way to it, innermost first: the `n`th chunk that the reader `p` opened is
read by `n :: p`. So names below a reader are those that end in its name, and what is below a reader
looks from there like a session of its own. That this is all there is to see is the point: calls
below a reader are answered as in a session that was begun on its body alone, whatever is asked
elsewhere in between, and calls elsewhere are answered as if nothing had been asked below it.

## Main definitions

* `ReadCall`, `ReadValue` — what a reader is asked for, and what it answers
* `Readers`, `Readers.run` — the readers of a session, and a run of calls
* `Readers.local?` — a name as it is seen from a reader
* `Readers.Isolates` — a body is read as if it were alone, and as if it were not read

## Main results

* `Read.Forward` — steps only go forward
* `Readers.run_below`, `Readers.run_elsewhere` — calls below a reader, and calls elsewhere
* `Readers.Orderly.isolates_chunk` — a chunk that was opened is isolated
-/

namespace Toolpath

/-! ### Steps go forward -/

namespace Read

variable {α β : Type}

/-- A step leaves an end of the bytes that it is given. -/
def Forward (step : Read α) : Prop := ∀ bytes, (step.on bytes).2 <:+ bytes

theorem Forward.pure (a : α) : Forward (Pure.pure a) := List.suffix_refl

theorem Forward.bind {step : Read α} {next : α → Read β} (h : Forward step)
    (hnext : ∀ a, Forward (next a)) : Forward (step >>= next) := by
  intro bytes
  have hstep := h bytes
  rw [on_bind]
  cases hon : step.on bytes with
  | mk r rest =>
    rw [hon] at hstep
    cases r with
    | error e => exact hstep
    | ok a => exact (hnext a rest).trans hstep

theorem forward_get : Forward (get : Read Bytes) := List.suffix_refl

theorem forward_take (n : Nat) : Forward (take n) := by
  intro bytes
  rw [on_take]
  split
  · exact List.drop_suffix n bytes
  · exact List.suffix_refl bytes

theorem forward_u8 : Forward u8 := (forward_take 1).bind fun _ => .pure _

theorem forward_bool : Forward bool := forward_u8.bind fun _ => .pure _

theorem forward_u32 : Forward u32 := (forward_take 4).bind fun _ => .pure _

theorem forward_f64 : Forward f64 := (forward_take 8).bind fun _ => .pure _

theorem forward_f32 : Forward f32 := (forward_take 4).bind fun _ => .pure _

theorem forward_point : Forward point := forward_f64.bind fun _ => forward_f64.bind fun _ => .pure _

theorem forward_text : Forward text := by
  intro bytes
  have hnothing : (text.on bytes).2 = [] := by
    rw [text, on_bind_ok (on_get bytes), on_set_bind]
    split <;> rfl
  rw [hnothing]
  exact List.nil_suffix

theorem forward_singles : Forward singles := by
  intro bytes
  rw [singles, on_bind_ok (on_get bytes)]
  dsimp only
  split
  · exact List.nil_suffix
  · exact List.suffix_refl bytes

theorem forward_nextChunk : Forward nextChunk := by
  refine forward_get.bind fun bytes => ?_
  split
  · exact .pure _
  · exact forward_u8.bind fun _ => forward_u32.bind fun _ => (forward_take _).bind fun _ => .pure _

end Read

/-! ### Calls -/

/-- What a reader can be asked for beside chunks. -/
inductive ReadItem where
  /-- How many bytes are left. -/
  | remaining
  /-- The next bytes. -/
  | take (n : Nat)
  /-- A byte. -/
  | byte
  /-- A truth value. -/
  | bool
  /-- A number of four bytes. -/
  | word
  /-- A double. -/
  | double
  /-- A number of single precision. -/
  | single
  /-- A point. -/
  | point
  /-- All that is left, as text. -/
  | text
  /-- All that is left, as numbers of single precision. -/
  | singles

/-- What a reader can be asked for. -/
inductive ReadCall where
  /-- Something else than a chunk. -/
  | item (i : ReadItem)
  /-- The next chunk. It gets a reader of its own. -/
  | chunk

/-- What a reader answers. -/
inductive ReadValue where
  /-- A number of bytes. -/
  | count (n : Nat)
  /-- Bytes. -/
  | bytes (bs : Bytes)
  /-- A byte. -/
  | byte (b : UInt8)
  /-- A truth value. -/
  | bool (b : Bool)
  /-- A number of four bytes. -/
  | word (n : UInt32)
  /-- A double. -/
  | double (x : Double)
  /-- A number of single precision. -/
  | single (x : Single)
  /-- A point. -/
  | point (p : Vec2 Double)
  /-- A text. -/
  | text (s : String)
  /-- Numbers of single precision. -/
  | singles (xs : Array Single)
  /-- A chunk, by its tag and the length of its body. -/
  | chunk (tag : UInt8) (length : Nat)
  /-- There is no further chunk. -/
  | finished

/-- The step that answers. -/
def ReadItem.step : ReadItem → Read ReadValue
  | remaining => do return .count (← get).length
  | take n => do return .bytes (← Read.take n)
  | byte => do return .byte (← Read.u8)
  | bool => do return .bool (← Read.bool)
  | word => do return .word (← Read.u32)
  | double => do return .double (← Read.f64)
  | single => do return .single (← Read.f32)
  | point => do return .point (← Read.point)
  | text => do return .text (← Read.text)
  | singles => do return .singles (← Read.singles)

/-- The step that answers, with the body of the chunk that was opened. -/
def ReadCall.step : ReadCall → Read (ReadValue × Option Bytes)
  | item i => do return (← i.step, none)
  | chunk => do
    match ← Read.nextChunk with
    | some (tag, body) => return (.chunk tag body.length, some body)
    | none => return (.finished, none)

theorem ReadItem.forward_step (i : ReadItem) : i.step.Forward := by
  cases i with
  | remaining => exact Read.forward_get.bind fun _ => .pure _
  | take n => exact (Read.forward_take n).bind fun _ => .pure _
  | byte => exact Read.forward_u8.bind fun _ => .pure _
  | bool => exact Read.forward_bool.bind fun _ => .pure _
  | word => exact Read.forward_u32.bind fun _ => .pure _
  | double => exact Read.forward_f64.bind fun _ => .pure _
  | single => exact Read.forward_f32.bind fun _ => .pure _
  | point => exact Read.forward_point.bind fun _ => .pure _
  | text => exact Read.forward_text.bind fun _ => .pure _
  | singles => exact Read.forward_singles.bind fun _ => .pure _

namespace ReadCall

theorem forward_step (c : ReadCall) : c.step.Forward := by
  cases c with
  | item i => exact i.forward_step.bind fun _ => .pure _
  | chunk =>
    refine Read.forward_nextChunk.bind fun c => ?_
    cases c with
    | none => exact .pure _
    | some c => exact .pure _

/-- A body that was opened is a part of the bytes that were left. -/
theorem body_infix {c : ReadCall} {bytes body rest : Bytes} {v : ReadValue}
    (h : c.step.on bytes = (.ok (v, some body), rest)) : body <:+: bytes := by
  cases c with
  | item i =>
    obtain ⟨v, left, -, hpure⟩ := Read.on_bind_eq_ok h
    cases hpure
  | chunk =>
    obtain ⟨c, left, hchunk, hpure⟩ := Read.on_bind_eq_ok h
    cases c with
    | none => cases hpure
    | some c =>
      cases hpure
      rw [Read.on_nextChunk_eq_some hchunk, Chunk.frame]
      exact ⟨c.1 :: littleEndian 4 c.2.length, rest, by simp⟩

end ReadCall

/-! ### Sessions -/

/-- A reader at hand. -/
structure OpenReader where
  /-- The bytes that are left to it. -/
  left : Bytes
  /-- The number of chunks that it has opened. -/
  opened : Nat

/-- What comes of a call. -/
structure Reply where
  /-- The answer, or why there is none. -/
  answer : Except CodecError ReadValue
  /-- The reader afterwards. -/
  reader : OpenReader
  /-- The body of the chunk that was opened. -/
  body : Option Bytes

/-- A reader that is asked for something. -/
def OpenReader.reply (r : OpenReader) (c : ReadCall) : Reply :=
  match c.step.on r.left with
  | (.ok (v, some body), left) => ⟨.ok v, ⟨left, r.opened + 1⟩, some body⟩
  | (.ok (v, none), left) => ⟨.ok v, ⟨left, r.opened⟩, none⟩
  | (.error e, left) => ⟨.error e, ⟨left, r.opened⟩, none⟩

/-- The readers of a session by their names. -/
abbrev Readers := List Nat → Option OpenReader

namespace Readers

variable {α : Type} {s s₀ : Readers} {p q : List Nat} {r : OpenReader} {c : ReadCall} {bytes : Bytes}

/-- A session at its start, with one reader. -/
def start (bytes : Bytes) : Readers := Function.update (fun _ => none) [] (some ⟨bytes, 0⟩)

/-- The readers after the reader `p`, which is `r`, was asked for something. -/
def after (s : Readers) (p : List Nat) (r : OpenReader) (c : ReadCall) : Readers :=
  match (r.reply c).body with
  | some body =>
    Function.update (Function.update s p (some (r.reply c).reader)) (r.opened :: p)
      (some ⟨body, 0⟩)
  | none => Function.update s p (some (r.reply c).reader)

/-- A call: the answer, which is missing if there is no such reader, and the readers afterwards. -/
def ask (s : Readers) (p : List Nat) (c : ReadCall) :
    Option (Except CodecError ReadValue) × Readers :=
  match s p with
  | some r => (some (r.reply c).answer, s.after p r c)
  | none => (none, s)

/-- A run of calls, with the answers in the order of the calls. -/
def run (s : Readers) : List (List Nat × ReadCall) →
    List (List Nat × Option (Except CodecError ReadValue)) × Readers
  | [] => ([], s)
  | (p, c) :: calls =>
    let (answer, s) := s.ask p c
    let (answers, s) := run s calls
    ((p, answer) :: answers, s)

theorem run_cons (s : Readers) (p : List Nat) (c : ReadCall) (calls : List (List Nat × ReadCall)) :
    s.run ((p, c) :: calls) =
      ((p, (s.ask p c).1) :: ((s.ask p c).2.run calls).1, ((s.ask p c).2.run calls).2) := rfl

theorem ask_of_some (h : s p = some r) (c : ReadCall) :
    s.ask p c = (some (r.reply c).answer, s.after p r c) := by
  rw [ask, h]

theorem ask_of_none (h : s p = none) (c : ReadCall) : s.ask p c = (none, s) := by
  rw [ask, h]

/-! ### One call -/

/-- A chunk is counted when it is opened. -/
theorem opened_reply (r : OpenReader) (c : ReadCall) :
    (r.reply c).reader.opened = r.opened + if (r.reply c).body.isSome then 1 else 0 := by
  rw [OpenReader.reply]
  split <;> rfl

theorem left_reply (r : OpenReader) (c : ReadCall) : (r.reply c).reader.left <:+ r.left := by
  have hforward := c.forward_step r.left
  rw [OpenReader.reply]
  split
  all_goals
    rename_i hon
    rw [hon] at hforward
    exact hforward

theorem body_reply {body : Bytes} (h : (r.reply c).body = some body) : body <:+: r.left := by
  rw [OpenReader.reply] at h
  split at h
  · rename_i hon
    obtain rfl := Option.some.inj h
    exact ReadCall.body_infix hon
  · cases h
  · cases h

theorem after_self (s : Readers) (p : List Nat) (r : OpenReader) (c : ReadCall) :
    s.after p r c p = some (r.reply c).reader := by
  rw [after]
  cases (r.reply c).body with
  | none => exact Function.update_self _ _ _
  | some body =>
    exact (Function.update_of_ne (List.cons_ne_self _ _).symm _ _).trans
      (Function.update_self _ _ _)

theorem after_child (s : Readers) (p : List Nat) (r : OpenReader) (c : ReadCall) :
    s.after p r c (r.opened :: p) =
      match (r.reply c).body with
      | some body => some ⟨body, 0⟩
      | none => s (r.opened :: p) := by
  rw [after]
  cases (r.reply c).body with
  | none => exact Function.update_of_ne (List.cons_ne_self _ _) _ _
  | some body => exact Function.update_self _ _ _

/-- A call does not touch other readers. -/
theorem after_of_ne {x : List Nat} (hself : x ≠ p) (hchild : x ≠ r.opened :: p) :
    s.after p r c x = s x := by
  rw [after]
  cases (r.reply c).body with
  | none => exact Function.update_of_ne hself _ _
  | some body =>
    exact (Function.update_of_ne hchild _ _).trans (Function.update_of_ne hself _ _)

/-! ### What a session keeps -/

/-- What every call keeps, a run keeps. -/
theorem run_keeps {P : Readers → Prop}
    (hcall : ∀ {s : Readers} {p : List Nat} {r : OpenReader}, P s → s p = some r →
      ∀ c, P (s.after p r c)) (hs : P s) (calls : List (List Nat × ReadCall)) :
    P (s.run calls).2 := by
  induction calls generalizing s with
  | nil => exact hs
  | cons call calls ih =>
    obtain ⟨p, c⟩ := call
    rw [run_cons]
    cases hr : s p with
    | none =>
      rw [ask_of_none hr]
      exact ih hs
    | some r =>
      rw [ask_of_some hr]
      exact ih (hcall hs hr c)

/-- A reader was opened by another one, which counts the chunks that it has opened. -/
def Orderly (s : Readers) : Prop :=
  ∀ n p r, s (n :: p) = some r → ∃ opener, s p = some opener ∧ n < opener.opened

theorem orderly_start (bytes : Bytes) : (start bytes).Orderly := by
  intro n p r h
  rw [start, Function.update_of_ne (List.cons_ne_nil n p)] at h
  cases h

/-- The next reader is a new one. -/
theorem Orderly.next_eq_none (hs : s.Orderly) (hr : s p = some r) : s (r.opened :: p) = none := by
  cases hchild : s (r.opened :: p) with
  | none => rfl
  | some child =>
    obtain ⟨opener, hopener, hlt⟩ := hs _ _ _ hchild
    obtain rfl := Option.some.inj (hopener.symm.trans hr)
    exact absurd hlt (Nat.lt_irrefl _)

/-- A reader stays at hand, and counts on. -/
theorem Orderly.exists_after (hs : s.Orderly) (hr : s p = some r) (c : ReadCall) {x : List Nat}
    {old : OpenReader} (hx : s x = some old) :
    ∃ new, s.after p r c x = some new ∧ old.opened ≤ new.opened := by
  by_cases hself : x = p
  · subst hself
    obtain rfl := Option.some.inj (hx.symm.trans hr)
    exact ⟨_, after_self s x old c, (opened_reply old c).symm ▸ Nat.le_add_right _ _⟩
  · have hchild : x ≠ r.opened :: p := fun h => by
      rw [h, hs.next_eq_none hr] at hx
      cases hx
    exact ⟨old, (after_of_ne hself hchild).trans hx, Nat.le_refl _⟩

theorem Orderly.after (hs : s.Orderly) (hr : s p = some r) (c : ReadCall) :
    (s.after p r c).Orderly := by
  intro n x found h
  by_cases hold : ∃ old, s (n :: x) = some old
  · obtain ⟨old, hold⟩ := hold
    obtain ⟨opener, hopener, hlt⟩ := hs n x old hold
    obtain ⟨new, hnew, hle⟩ := hs.exists_after hr c hopener
    exact ⟨new, hnew, Nat.lt_of_lt_of_le hlt hle⟩
  · -- A reader that was not there before is the one that was just opened.
    have hself : n :: x ≠ p := fun hp => hold ⟨r, hp ▸ hr⟩
    have hchild : n :: x = r.opened :: p := by
      by_contra hne
      exact hold ⟨found, (after_of_ne hself hne).symm.trans h⟩
    obtain ⟨rfl, rfl⟩ := List.cons.inj hchild
    rw [after_child, hs.next_eq_none hr] at h
    refine ⟨_, after_self s x r c, ?_⟩
    rw [opened_reply]
    split at h
    · rename_i hbody
      rw [hbody]
      exact Nat.lt_succ_self _
    · cases h

theorem Orderly.run (hs : s.Orderly) (calls : List (List Nat × ReadCall)) :
    (s.run calls).2.Orderly :=
  run_keeps (fun hs hr c => hs.after hr c) hs calls

/-- What is left to the readers is all from some bytes. -/
def Within (s : Readers) (bytes : Bytes) : Prop := ∀ p r, s p = some r → r.left <:+: bytes

theorem within_start (bytes : Bytes) : (start bytes).Within bytes := by
  intro p r h
  rw [start, Function.update_apply] at h
  split at h
  · obtain rfl := Option.some.inj h
    exact List.infix_refl bytes
  · cases h

theorem Within.after (hs : s.Within bytes) (hr : s p = some r) (c : ReadCall) :
    (s.after p r c).Within bytes := by
  intro x found h
  by_cases hself : x = p
  · rw [hself, after_self] at h
    obtain rfl := Option.some.inj h
    exact (left_reply r c).isInfix.trans (hs p r hr)
  · by_cases hchild : x = r.opened :: p
    · rw [hchild, after_child] at h
      split at h
      · rename_i hbody
        obtain rfl := Option.some.inj h
        exact (body_reply hbody).trans (hs p r hr)
      · exact hs _ found h
    · rw [after_of_ne hself hchild] at h
      exact hs x found h

theorem Within.run (hs : s.Within bytes) (calls : List (List Nat × ReadCall)) :
    (s.run calls).2.Within bytes :=
  run_keeps (P := fun s => s.Within bytes) (fun hs hr c => hs.after hr c) hs calls

/-! ### Below a reader, and elsewhere -/

/-- The name of `p` as it is seen from the reader `q`, if it is below it. -/
def local? (q p : List Nat) : Option (List Nat) :=
  if q <:+ p then some (p.take (p.length - q.length)) else none

theorem local?_eq_some_iff {x : List Nat} : local? q p = some x ↔ p = x ++ q := by
  rw [local?]
  split
  · rename_i hbelow
    obtain ⟨y, rfl⟩ := hbelow
    rw [List.length_append, Nat.add_sub_cancel, List.take_left, Option.some.injEq,
      List.append_cancel_right_eq]
  · rename_i hbelow
    exact ⟨fun h => (by cases h), fun h => absurd ⟨x, h.symm⟩ hbelow⟩

theorem local?_eq_none_iff : local? q p = none ↔ ¬ q <:+ p := by
  rw [local?]
  split
  · rename_i hbelow
    exact ⟨fun h => (by cases h), fun h => absurd hbelow h⟩
  · rename_i hbelow
    exact ⟨fun _ => hbelow, fun _ => rfl⟩

/-- What belongs to readers below `q`, by their names as seen from there. -/
def below (q : List Nat) (l : List (List Nat × α)) : List (List Nat × α) :=
  l.filterMap fun e => (local? q e.1).map fun x => (x, e.2)

/-- What belongs to readers that are not below `q`. -/
def elsewhere (q : List Nat) (l : List (List Nat × α)) : List (List Nat × α) :=
  l.filter fun e => (local? q e.1).isNone

theorem below_cons_of_some {x : List Nat} (h : local? q p = some x) (a : α)
    (l : List (List Nat × α)) : below q ((p, a) :: l) = (x, a) :: below q l := by
  rw [below, List.filterMap_cons_some (b := (x, a)) (by rw [h]; rfl), below]

theorem below_cons_of_none (h : local? q p = none) (a : α) (l : List (List Nat × α)) :
    below q ((p, a) :: l) = below q l := by
  rw [below, List.filterMap_cons_none (by rw [h]; rfl), below]

theorem elsewhere_cons_of_some {x : List Nat} (h : local? q p = some x) (a : α)
    (l : List (List Nat × α)) : elsewhere q ((p, a) :: l) = elsewhere q l := by
  rw [elsewhere, List.filter_cons_of_neg (by rw [h]; exact Bool.false_ne_true), elsewhere]

theorem elsewhere_cons_of_none (h : local? q p = none) (a : α) (l : List (List Nat × α)) :
    elsewhere q ((p, a) :: l) = (p, a) :: elsewhere q l := by
  rw [elsewhere, List.filter_cons_of_pos (by rw [h]; rfl), elsewhere]

/-- A call below a reader is a call of the session that is seen from there. -/
theorem after_append (h : ∀ x, s (x ++ q) = s₀ x) (p : List Nat) (r : OpenReader) (c : ReadCall)
    (x : List Nat) : s.after (p ++ q) r c (x ++ q) = s₀.after p r c x := by
  by_cases hself : x = p
  · rw [hself, after_self, after_self]
  · by_cases hchild : x = r.opened :: p
    · rw [hchild, List.cons_append, after_child, after_child, ← List.cons_append, h]
    · rw [after_of_ne hself hchild, after_of_ne, h]
      · exact fun heq => hself (List.append_cancel_right heq)
      · exact fun heq => hchild (List.append_cancel_right heq)

/-- A call elsewhere is not seen below a reader that is at hand. -/
theorem Orderly.after_elsewhere (hs : s.Orderly) (hq : (s q).isSome) (hr : s p = some r)
    (hp : ¬ q <:+ p) (c : ReadCall) (x : List Nat) : s.after p r c (x ++ q) = s (x ++ q) := by
  refine after_of_ne (fun h => hp ⟨x, h⟩) fun h => ?_
  cases x with
  | nil =>
    rw [List.nil_append] at h
    rw [h, hs.next_eq_none hr] at hq
    exact Bool.false_ne_true hq
  | cons n x => exact hp ⟨x, (List.cons.inj h).2⟩

/-- A call below a reader is not seen elsewhere. -/
theorem after_below {x : List Nat} (hp : q <:+ p) (hx : ¬ q <:+ x) (r : OpenReader) (c : ReadCall) :
    s.after p r c x = s x :=
  after_of_ne (fun h => hx (h ▸ hp)) fun h => hx (h ▸ hp.trans (List.suffix_cons _ _))

/-- A call is the same for readers of which the same ones are seen. -/
theorem after_congr {P : List Nat → Prop} (h : ∀ x, P x → s x = s₀ x) (p : List Nat)
    (r : OpenReader) (c : ReadCall) : ∀ x, P x → s.after p r c x = s₀.after p r c x := by
  intro x hx
  by_cases hself : x = p
  · rw [hself, after_self, after_self]
  · by_cases hchild : x = r.opened :: p
    · rw [hchild] at hx ⊢
      rw [after_child, after_child, h _ hx]
    · rw [after_of_ne hself hchild, after_of_ne hself hchild, h x hx]

/-- **Calls below a reader** are answered as in a session of its own, whatever is asked elsewhere
in between. -/
theorem run_below (hs : s.Orderly) (hq : (s q).isSome) (h : ∀ x, s (x ++ q) = s₀ x)
    (calls : List (List Nat × ReadCall)) :
    below q (s.run calls).1 = (s₀.run (below q calls)).1 ∧
      ∀ x, (s.run calls).2 (x ++ q) = (s₀.run (below q calls)).2 x := by
  induction calls generalizing s s₀ with
  | nil => exact ⟨rfl, h⟩
  | cons call calls ih =>
    obtain ⟨p, c⟩ := call
    rw [run_cons]
    cases hlocal : local? q p with
    | some y =>
      obtain rfl := local?_eq_some_iff.mp hlocal
      rw [below_cons_of_some hlocal, below_cons_of_some hlocal, run_cons]
      cases hr : s (y ++ q) with
      | none =>
        rw [ask_of_none hr, ask_of_none ((h y).symm.trans hr)]
        obtain ⟨hanswers, hreaders⟩ := ih hs hq h
        exact ⟨congrArg _ hanswers, hreaders⟩
      | some r =>
        rw [ask_of_some hr, ask_of_some ((h y).symm.trans hr)]
        have hopen : (s.after (y ++ q) r c q).isSome := by
          obtain ⟨old, hold⟩ := Option.isSome_iff_exists.mp hq
          obtain ⟨new, hnew, -⟩ := hs.exists_after hr c hold
          exact Option.isSome_iff_exists.mpr ⟨new, hnew⟩
        obtain ⟨hanswers, hreaders⟩ := ih (hs.after hr c) hopen (after_append h y r c)
        exact ⟨congrArg _ hanswers, hreaders⟩
    | none =>
      have hp := local?_eq_none_iff.mp hlocal
      rw [below_cons_of_none hlocal, below_cons_of_none hlocal]
      cases hr : s p with
      | none =>
        rw [ask_of_none hr]
        exact ih hs hq h
      | some r =>
        rw [ask_of_some hr]
        have hsame := hs.after_elsewhere hq hr hp c
        refine ih (hs.after hr c) ?_ fun x => (hsame x).trans (h x)
        exact (congrArg Option.isSome (hsame [])).trans hq

/-- **Calls elsewhere** are answered as if nothing had been asked below a reader. -/
theorem run_elsewhere (h : ∀ x, ¬ q <:+ x → s x = s₀ x) (calls : List (List Nat × ReadCall)) :
    elsewhere q (s.run calls).1 = (s₀.run (elsewhere q calls)).1 ∧
      ∀ x, ¬ q <:+ x → (s.run calls).2 x = (s₀.run (elsewhere q calls)).2 x := by
  induction calls generalizing s s₀ with
  | nil => exact ⟨rfl, h⟩
  | cons call calls ih =>
    obtain ⟨p, c⟩ := call
    rw [run_cons]
    cases hlocal : local? q p with
    | some y =>
      have hp : q <:+ p := ⟨y, (local?_eq_some_iff.mp hlocal).symm⟩
      rw [elsewhere_cons_of_some hlocal, elsewhere_cons_of_some hlocal]
      cases hr : s p with
      | none =>
        rw [ask_of_none hr]
        exact ih h
      | some r =>
        rw [ask_of_some hr]
        exact ih fun x hx => (after_below hp hx r c).trans (h x hx)
    | none =>
      have hp := local?_eq_none_iff.mp hlocal
      rw [elsewhere_cons_of_none hlocal, elsewhere_cons_of_none hlocal, run_cons]
      cases hr : s p with
      | none =>
        rw [ask_of_none hr, ask_of_none ((h p hp).symm.trans hr)]
        obtain ⟨hanswers, hreaders⟩ := ih h
        exact ⟨congrArg _ hanswers, hreaders⟩
      | some r =>
        rw [ask_of_some hr, ask_of_some ((h p hp).symm.trans hr)]
        obtain ⟨hanswers, hreaders⟩ := ih (after_congr h p r c)
        exact ⟨congrArg _ hanswers, hreaders⟩

/-! ### Isolation -/

/-- A body that is read by the reader `q` is read as if it were alone, and everything else is read
as if it were not, whatever calls are made. -/
structure Isolates (s : Readers) (q : List Nat) (body : Bytes) : Prop where
  /-- The reader stands at the start of the body. -/
  opened : s q = some ⟨body, 0⟩
  /-- The answers to the calls below it are those of a session on the body alone. -/
  sees (calls : List (List Nat × ReadCall)) :
    below q (s.run calls).1 = ((start body).run (below q calls)).1
  /-- What is left to a reader below it is from the body. -/
  bounded (calls : List (List Nat × ReadCall)) (x : List Nat) (r : OpenReader)
    (h : (s.run calls).2 (x ++ q) = some r) : r.left <:+: body
  /-- The answers to the other calls are those of the session without the calls below it. -/
  spares (calls : List (List Nat × ReadCall)) :
    elsewhere q (s.run calls).1 = (s.run (elsewhere q calls)).1

/-- Below a reader that has not been asked for anything it looks like at the start of a session. -/
theorem Orderly.start_below {body : Bytes} (hs : s.Orderly) (hq : s q = some ⟨body, 0⟩)
    (x : List Nat) : s (x ++ q) = start body x := by
  induction x with
  | nil => exact hq
  | cons n x ih =>
    rw [start, Function.update_of_ne (List.cons_ne_nil n x)]
    cases hr : s (n :: x ++ q) with
    | none => rfl
    | some r =>
      obtain ⟨opener, hopener, hlt⟩ := hs n (x ++ q) r hr
      rw [ih] at hopener
      cases x with
      | nil =>
        obtain rfl := Option.some.inj hopener
        exact absurd hlt (Nat.not_lt_zero n)
      | cons m x =>
        rw [start, Function.update_of_ne (List.cons_ne_nil m x)] at hopener
        cases hopener

theorem Orderly.isolates {body : Bytes} (hs : s.Orderly) (hq : s q = some ⟨body, 0⟩) :
    s.Isolates q body := by
  have hopen : (s q).isSome := Option.isSome_iff_exists.mpr ⟨_, hq⟩
  have hbelow := run_below hs hopen (hs.start_below hq)
  refine ⟨hq, fun calls => (hbelow calls).1, fun calls x r h => ?_,
    fun calls => (run_elsewhere (fun _ _ => rfl) calls).1⟩
  rw [(hbelow calls).2 x] at h
  exact (within_start body).run (below q calls) x r h

theorem reply_chunk {tag : UInt8} {body left : Bytes}
    (h : Read.nextChunk.on r.left = (.ok (some (tag, body)), left)) :
    r.reply .chunk = ⟨.ok (.chunk tag body.length), ⟨left, r.opened + 1⟩, some body⟩ := by
  have hstep : ReadCall.chunk.step.on r.left = (.ok (.chunk tag body.length, some body), left) :=
    Read.on_bind_ok h
  rw [OpenReader.reply, hstep]

/-- **A chunk that was opened is isolated**, in whatever session, however deep it is. -/
theorem Orderly.isolates_chunk {tag : UInt8} {body left : Bytes} (hs : s.Orderly)
    (hr : s p = some r) (h : Read.nextChunk.on r.left = (.ok (some (tag, body)), left)) :
    (s.ask p .chunk).2.Isolates (r.opened :: p) body := by
  rw [ask_of_some hr]
  refine (hs.after hr .chunk).isolates ?_
  rw [after_child, reply_chunk h]

end Readers

end Toolpath
