import Toolpath.Proofs.Chunk.Frames
import Toolpath.Proofs.Project.Files

/-!
# Chunks that mean nothing

A file may hold chunks that this version of the reader knows nothing about. They are passed over, by
four loops that do it in four ways: the fields of the document and of the machine, the chunks of the
top level, the chunks of a record before its children and behind them, and the children themselves,
among which such a chunk is counted. What is read does not depend on them.

The places at which a chunk can be put into a file are given by `Record.Inserts` and
`ProjectFile.Inserts`, which relate a file to the file with one chunk more, all lengths adjusted.
They follow the grammar of files, where bodies are runs of chunks, and not what the reader makes of
it; an insertion goes down from record to record, also through children that are not read because
their parent can have none.

A record is read as a fold over its head, `Record.readHead`, and everything else behind the count.
So an insertion is dealt with where it is made, and the rest is the same on both sides.

## Main definitions

* `BlockKind.fieldCount` — the number of fields of a kind
* `Record.Unassigned` — a tag that means nothing in records of a kind
* `Record.Inserts`, `ProjectFile.Inserts` — a file with one chunk more

## Main results

* `Record.readTo_inserts` — a record is read as it was before
* `ProjectFile.decode_of_inserts` — a file is read as it was before
-/

namespace Toolpath

open RawChunk (frames)

/-! ### Fields -/

/-- The number of fields of a kind. Their tags count from zero. -/
def BlockKind.fieldCount : BlockKind → Nat
  | header | footer | code | point | svg | gerber | excellon => 1
  | line | template | mesh => 2
  | sketch | drillHoles | image => 3
  | arc => 4
  | tool | boltHoles => 10

namespace Read

variable {α β : Type}

/-- What a step yields has a property. -/
def Only (step : Read α) (P : α → Prop) : Prop :=
  ∀ bytes a rest, step.on bytes = (.ok a, rest) → P a

theorem Only.pure {P : α → Prop} {a : α} (h : P a) : Only (Pure.pure a) P := by
  intro bytes b rest hb
  obtain rfl := Except.ok.inj (Prod.mk.inj hb).1
  exact h

theorem Only.bind {P : β → Prop} {step : Read α} {next : α → Read β}
    (h : ∀ a, Only (next a) P) : Only (step >>= next) P := by
  intro bytes b rest hb
  obtain ⟨a, left, -, hnext⟩ := on_bind_eq_ok hb
  exact h a left b rest hnext

theorem Only.within {P : α → Prop} {step : Read α} (h : Only step P) {body : Bytes} {a : α}
    (ha : Read.within body step = .ok a) : P a :=
  h body a (step.on body).2 (Prod.ext ha rfl)

end Read

namespace Payload

/-- A field with another tag changes nothing. -/
theorem readField_eq_pure {p : StoredPayload} {tag : UInt8}
    (h : p.kind.fieldCount ≤ tag.toNat) : p.readField tag = pure p := by
  cases p
  all_goals
    dsimp only [kind] at h
    simp only [readField]
    split
    all_goals first
      | rfl
      | exact absurd h (by decide)

/-- A field does not change the kind. -/
theorem only_readField (p : StoredPayload) (tag : UInt8) :
    (p.readField tag).Only (·.kind = p.kind) := by
  cases p
  all_goals
    simp only [readField]
    split
    all_goals
      repeat refine Read.Only.bind fun _ => ?_
      exact Read.Only.pure rfl

end Payload

/-! ### Records -/

namespace Record

/-- A tag that means nothing in a record of a kind. -/
structure Unassigned (kind : BlockKind) (tag : UInt8) : Prop where
  /-- It is not that of the comment. -/
  comment : tag ≠ commentTag
  /-- It is not that of the flags. -/
  flags : tag ≠ flagsTag
  /-- It is not that of the number of children. -/
  count : tag ≠ countTag
  /-- It is not that of a field. -/
  field : kind.fieldCount ≤ tag.toNat

/-- The body of a chunk that counts children. What follows the number is not looked at. -/
def countBody (n : Nat) (extra : Bytes) : Bytes := littleEndian 4 n ++ extra

/-- The chunks of a record whose children are counted: what is ahead of the count, the children and
what is behind them. -/
def counted (ahead : List RawChunk) (n : Nat) (extra : Bytes) (rest : List RawChunk) :
    List RawChunk :=
  ahead ++ (countTag, countBody n extra) :: rest

/-- One record is another one with a chunk `x` more, somewhere at or below `depth`. -/
inductive Inserts (x : RawChunk) : Nat → RawChunk → RawChunk → Prop
  /-- Ahead of the number of children, or anywhere if there is none. -/
  | ahead {depth : Nat} {tag : UInt8} {kind : BlockKind} {before after : List RawChunk}
      (hkind : BlockKind.ofTag? tag = some kind) (hx : Unassigned kind x.1)
      (hbefore : ∀ c ∈ before, c.1 ≠ countTag) :
      Inserts x depth (tag, frames (before ++ after)) (tag, frames (before ++ x :: after))
  /-- Behind the last child. -/
  | behind {depth : Nat} {tag : UInt8} {kind : BlockKind} {extra : Bytes}
      {ahead children before after : List RawChunk}
      (hkind : BlockKind.ofTag? tag = some kind) (hx : Unassigned kind x.1)
      (hahead : ∀ c ∈ ahead, c.1 ≠ countTag) :
      Inserts x depth
        (tag, frames (counted ahead children.length extra (children ++ (before ++ after))))
        (tag, frames (counted ahead children.length extra (children ++ (before ++ x :: after))))
  /-- Among the children, and counted as one of them. -/
  | among {depth : Nat} {tag : UInt8} {kind : BlockKind} {extra : Bytes}
      {ahead before after trail : List RawChunk}
      (hkind : BlockKind.ofTag? tag = some kind) (hx : BlockKind.ofTag? x.1 = none)
      (hdepth : depth < maxDepth) (hahead : ∀ c ∈ ahead, c.1 ≠ countTag) :
      Inserts x depth
        (tag, frames (counted ahead (before ++ after).length extra (before ++ (after ++ trail))))
        (tag, frames (counted ahead (before ++ x :: after).length extra
          (before ++ x :: (after ++ trail))))
  /-- Inside one of the children. -/
  | inside {depth : Nat} {tag : UInt8} {kind : BlockKind} {extra : Bytes} {c c' : RawChunk}
      {ahead before after trail : List RawChunk}
      (hkind : BlockKind.ofTag? tag = some kind) (hahead : ∀ c ∈ ahead, c.1 ≠ countTag)
      (hchild : Inserts x (depth + 1) c c') :
      Inserts x depth
        (tag, frames (counted ahead (before ++ c :: after).length extra
          (before ++ c :: (after ++ trail))))
        (tag, frames (counted ahead (before ++ c :: after).length extra
          (before ++ c' :: (after ++ trail))))

/-! #### The head of a record -/

/-- A draft with a chunk of the head of a record read. -/
def readHead (d : Draft) (c : RawChunk) : Except CodecError Draft :=
  if c.1 = commentTag then (Read.within c.2 Read.text).map fun s => { d with comment := s }
  else if c.1 = flagsTag then
    (Read.within c.2 Read.u8).map fun b => { d with flags := BlockFlags.ofBits b }
  else (Read.within c.2 (d.payload.readField c.1)).map fun p => { d with payload := p }

theorem kind_readHead {d e : Draft} {c : RawChunk} (h : readHead d c = .ok e) :
    e.payload.kind = d.payload.kind := by
  unfold readHead at h
  split at h
  · cases hc : Read.within c.2 Read.text with
    | error _ => rw [hc] at h; cases h
    | ok s => rw [hc] at h; obtain rfl := Except.ok.inj h; rfl
  · split at h
    · cases hc : Read.within c.2 Read.u8 with
      | error _ => rw [hc] at h; cases h
      | ok b => rw [hc] at h; obtain rfl := Except.ok.inj h; rfl
    · cases hc : Read.within c.2 (d.payload.readField c.1) with
      | error _ => rw [hc] at h; cases h
      | ok p =>
        rw [hc] at h
        obtain rfl := Except.ok.inj h
        exact (d.payload.only_readField c.1).within hc

/-- A chunk that means nothing leaves the draft as it is. -/
theorem readHead_of_unassigned {d : Draft} {x : RawChunk} (h : Unassigned d.payload.kind x.1) :
    readHead d x = .ok d := by
  rw [readHead, if_neg h.comment, if_neg h.flags, Payload.readField_eq_pure h.field]
  rfl

variable {read : RawChunk → Harvest} {broken : Option CodecError}

theorem readBody_cons {c : RawChunk} (hc : c.1 ≠ countTag) (d : Draft) (rest : List RawChunk) :
    readBody read broken d (c :: rest) =
      match readHead d c with
      | .error e => ⟨[], some e⟩
      | .ok d => readBody read broken d rest := by
  obtain ⟨tag, body⟩ := c
  rw [readBody]
  unfold readHead
  by_cases hcomment : tag = commentTag
  · simp only [hcomment, if_true]
    cases Read.within body Read.text <;> rfl
  · by_cases hflags : tag = flagsTag
    · simp only [hflags, if_true, show flagsTag ≠ commentTag by decide, if_false]
      cases Read.within body Read.u8 <;> rfl
    · have hcount : tag ≠ countTag := hc
      simp only [hcomment, hflags, hcount, if_false]
      cases Read.within body (d.payload.readField tag) <;> rfl

/-- What is ahead of the count is read first, and then the rest. -/
theorem readBody_append {ahead : List RawChunk} (h : ∀ c ∈ ahead, c.1 ≠ countTag) (d : Draft)
    (rest : List RawChunk) :
    readBody read broken d (ahead ++ rest) =
      match ahead.foldlM readHead d with
      | .error e => ⟨[], some e⟩
      | .ok d => readBody read broken d rest := by
  induction ahead generalizing d with
  | nil => rfl
  | cons c ahead ih =>
    rw [List.cons_append, readBody_cons (h c List.mem_cons_self), List.foldlM_cons]
    cases readHead d c with
    | error e => rfl
    | ok d => exact ih (fun c hc => h c (List.mem_cons_of_mem _ hc)) d

theorem kind_foldlM_readHead {ahead : List RawChunk} {d e : Draft}
    (h : ahead.foldlM readHead d = .ok e) : e.payload.kind = d.payload.kind := by
  induction ahead generalizing d with
  | nil =>
    obtain rfl := Except.ok.inj h
    rfl
  | cons c ahead ih =>
    rw [List.foldlM_cons] at h
    cases hc : readHead d c with
    | error _ => rw [hc] at h; cases h
    | ok d' =>
      rw [hc] at h
      exact (ih h).trans (kind_readHead hc)

/-- Two records with the same head are read alike if what follows is. -/
theorem readBody_congr {ahead rest rest' : List RawChunk} {d : Draft}
    (hahead : ∀ c ∈ ahead, c.1 ≠ countTag)
    (h : ∀ e : Draft, e.payload.kind = d.payload.kind →
      readBody read broken e rest = readBody read broken e rest') :
    readBody read broken d (ahead ++ rest) = readBody read broken d (ahead ++ rest') := by
  rw [readBody_append hahead, readBody_append hahead]
  cases hd : ahead.foldlM readHead d with
  | error _ => rfl
  | ok e => exact h e (kind_foldlM_readHead hd)

/-! #### The children -/

theorem within_countBody {n : Nat} (hn : n < UInt32.size) (extra : Bytes) :
    Read.within (countBody n extra) Read.u32 = .ok (UInt32.ofNat n) := by
  rw [Read.within, countBody, Read.on_u32 n hn]

/-- What is behind the count: a number of children, and whatever follows them. -/
def readBehind (f : RawChunk → Harvest) (broken : Option CodecError) (n : Nat)
    (rest : List RawChunk) : Harvest :=
  match readChildren f broken n rest with
  | (bs, .error e) => ⟨bs, some e⟩
  | (bs, .ok rest) => ⟨bs, trailingFault broken rest⟩

theorem readCounted_eq {n : Nat} (hn : n < UInt32.size) (extra : Bytes) (d : Draft)
    (rest : List RawChunk) :
    readCounted read broken d (countBody n extra) rest =
      match d.finish with
      | .error e => ⟨[], some e⟩
      | .ok block =>
        let h := readBehind (if block.kind.isContainer then read else fun _ => ⟨[], none⟩) broken n
          rest
        ⟨[.node block (if block.kind.isContainer then [h.blocks] else [])], h.fault⟩ := by
  unfold readCounted readBehind
  simp only [within_countBody hn]
  cases d.finish with
  | error _ => rfl
  | ok block =>
    simp only [UInt32.toNat_ofNat_of_lt' hn]
    generalize readChildren _ broken n rest = p
    obtain ⟨bs, r⟩ := p
    cases r <;> rfl

variable {f : RawChunk → Harvest} {n n' : Nat} {c c' x : RawChunk}
  {before after rest rest' : List RawChunk}

theorem readBehind_succ :
    readBehind f broken (n + 1) (c :: rest) =
      match (f c).fault with
      | some e => ⟨(f c).blocks, some e⟩
      | none => ⟨(f c).blocks ++ (readBehind f broken n rest).blocks,
          (readBehind f broken n rest).fault⟩ := by
  unfold readBehind
  rw [readChildren]
  cases (f c).fault with
  | some e => rfl
  | none =>
    dsimp only
    generalize readChildren f broken n rest = p
    obtain ⟨bs, r⟩ := p
    cases r <;> rfl

/-- What is behind the count is read alike if it starts alike and goes on alike. -/
theorem readBehind_congr (hc : f c = f c')
    (h : readBehind f broken n rest = readBehind f broken n' rest') :
    readBehind f broken (n + 1) (c :: rest) = readBehind f broken (n' + 1) (c' :: rest') := by
  rw [readBehind_succ, readBehind_succ, hc, h]

theorem readBehind_append_congr
    (h : readBehind f broken n rest = readBehind f broken n' rest') :
    readBehind f broken (before.length + n) (before ++ rest) =
      readBehind f broken (before.length + n') (before ++ rest') := by
  induction before with
  | nil => rwa [List.length_nil, Nat.zero_add, Nat.zero_add]
  | cons c before ih =>
    rw [List.length_cons, Nat.succ_add, Nat.succ_add]
    exact readBehind_congr rfl ih

/-- A child that yields nothing leaves no trace but in the count. -/
theorem readBehind_pass (hx : f x = ⟨[], none⟩) :
    readBehind f broken (n + 1) (x :: rest) = readBehind f broken n rest := by
  rw [readBehind_succ, hx]
  rfl

/-- Behind the children a chunk is only looked at for its comment, flags or count. -/
theorem trailingFault_insert {kind : BlockKind} (hx : Unassigned kind x.1) :
    trailingFault broken (before ++ x :: after) = trailingFault broken (before ++ after) := by
  induction before with
  | nil =>
    rw [List.nil_append, List.nil_append, trailingFault, if_neg hx.comment, if_neg hx.flags,
      if_neg hx.count]
  | cons c before ih => rw [List.cons_append, List.cons_append, trailingFault, trailingFault, ih]

/-! #### Records with a chunk more -/

/-- A record is not shorter for a chunk more. -/
theorem Inserts.length_le {depth : Nat} (h : Inserts x depth c c') : c.2.length ≤ c'.2.length := by
  induction h with
  | ahead => simp
  | behind => simp [counted]
  | among => simp [counted, countBody, Chunk.length_frame]
  | inside _ _ _ ih =>
    simp [counted, Chunk.length_frame]
    omega

/-- Both are records of the same kind. -/
theorem Inserts.exists_kind {depth : Nat} (h : Inserts x depth c c') :
    c'.1 = c.1 ∧ ∃ kind, BlockKind.ofTag? c.1 = some kind := by
  cases h with
  | ahead hkind => exact ⟨rfl, _, hkind⟩
  | behind hkind => exact ⟨rfl, _, hkind⟩
  | among hkind => exact ⟨rfl, _, hkind⟩
  | inside hkind => exact ⟨rfl, _, hkind⟩

theorem readBody_counted_congr {ahead : List RawChunk} {d : Draft} {extra : Bytes}
    (hahead : ∀ c ∈ ahead, c.1 ≠ countTag) (hn : n < UInt32.size) (hn' : n' < UInt32.size)
    (h : ∀ f : RawChunk → Harvest, f = read ∨ (f = fun _ => ⟨[], none⟩) →
      readBehind f broken n rest = readBehind f broken n' rest') :
    readBody read broken d (counted ahead n extra rest) =
      readBody read broken d (counted ahead n' extra rest') := by
  refine readBody_congr hahead fun e _ => ?_
  rw [readBody_count, readBody_count, readCounted_eq hn, readCounted_eq hn']
  cases e.finish with
  | error _ => rfl
  | ok block =>
    have hbehind := h (if block.kind.isContainer then read else fun _ => ⟨[], none⟩)
      (by split <;> simp)
    dsimp only
    rw [hbehind]

/-- A record, read from the chunks that its body is a run of. -/
theorem readTo_frames {levels : Nat} {tag : UInt8} {kind : BlockKind} {cs : List RawChunk}
    (hkind : BlockKind.ofTag? tag = some kind) (hfits : (frames cs).length < UInt32.size) :
    readTo (levels + 1) (tag, frames cs) =
      readBody (readTo levels) none { payload := Payload.standard kind } cs := by
  rw [readTo, hkind]
  simp only [RawChunk.split_frames hfits]

/-- The number of children of a record that fits can be written. -/
theorem lt_of_length_frames_counted {ahead : List RawChunk} {extra : Bytes} (k : Nat)
    (hfits : (frames (counted ahead n extra rest)).length < UInt32.size)
    (hle : k ≤ rest.length) : k < UInt32.size := by
  have hlength := RawChunk.length_le_frames (counted ahead n extra rest)
  have hrest : rest.length < (counted ahead n extra rest).length := by
    rw [counted, List.length_append, List.length_cons]
    omega
  omega

/-- A chunk that is no record yields nothing, as long as there is a level left. -/
theorem readTo_of_ofTag?_eq_none {levels : Nat} (hx : BlockKind.ofTag? x.1 = none) :
    readTo (levels + 1) x = ⟨[], none⟩ := by
  obtain ⟨tag, body⟩ := x
  rw [readTo, hx]

/-- **A record is read as it was before.** -/
theorem readTo_inserts {depth levels : Nat} (h : Inserts x depth c c')
    (hfits : c'.2.length < UInt32.size) (hlevels : levels + depth = maxDepth + 1) :
    readTo levels c' = readTo levels c := by
  have hfits' := Nat.lt_of_le_of_lt h.length_le hfits
  induction h generalizing levels with
  | @ahead depth tag kind before after hkind hx hbefore =>
    cases levels with
    | zero => rfl
    | succ levels =>
      rw [readTo_frames hkind hfits, readTo_frames hkind hfits']
      refine readBody_congr hbefore fun e he => ?_
      rw [Payload.kind_standard] at he
      rw [readBody_cons hx.count, readHead_of_unassigned (he ▸ hx)]
  | @behind depth tag kind extra ahead children before after hkind hx hahead =>
    cases levels with
    | zero => rfl
    | succ levels =>
      have hn := lt_of_length_frames_counted children.length hfits (by simp)
      rw [readTo_frames hkind hfits, readTo_frames hkind hfits']
      refine readBody_counted_congr hahead hn hn fun f _ => ?_
      have hrest : readBehind f none 0 (before ++ x :: after) =
          readBehind f none 0 (before ++ after) :=
        congrArg (Harvest.mk []) (trailingFault_insert hx)
      exact readBehind_append_congr hrest
  | @among depth tag kind extra ahead before after trail hkind hx hdepth hahead =>
    obtain ⟨levels, rfl⟩ : ∃ k, levels = k + 2 := ⟨levels - 2, by omega⟩
    have hn := lt_of_length_frames_counted (before ++ x :: after).length hfits (by simp)
    have hn' := lt_of_length_frames_counted (before ++ after).length hfits' (by simp)
    rw [readTo_frames hkind hfits, readTo_frames hkind hfits']
    refine readBody_counted_congr hahead hn hn' fun f hf => ?_
    have hpass : f x = ⟨[], none⟩ := by
      rcases hf with rfl | rfl
      · exact readTo_of_ofTag?_eq_none hx
      · rfl
    rw [List.length_append, List.length_append, List.length_cons]
    exact readBehind_append_congr (readBehind_pass hpass)
  | @inside depth tag kind extra c c' ahead before after trail hkind hahead hchild ih =>
    cases levels with
    | zero => rfl
    | succ levels =>
      have hn := lt_of_length_frames_counted (before ++ c :: after).length hfits (by simp)
      have hmem : c' ∈ counted ahead (before ++ c :: after).length extra
          (before ++ c' :: (after ++ trail)) := by
        simp [counted]
      have hchildFits := (RawChunk.length_lt_of_mem hmem).trans hfits
      have hchildFits' := Nat.lt_of_le_of_lt hchild.length_le hchildFits
      rw [readTo_frames hkind hfits, readTo_frames hkind hfits']
      refine readBody_counted_congr hahead hn hn fun f hf => ?_
      have hsame : f c' = f c := by
        rcases hf with rfl | rfl
        · exact ih hchildFits (by omega) hchildFits'
        · rfl
      rw [List.length_append, List.length_cons]
      exact readBehind_append_congr (readBehind_congr hsame rfl)

end Record

/-! ### Files -/

namespace ProjectFile

/-- The number of fields of the document. -/
def documentFieldCount : Nat := 9

/-- The number of fields of the machine. -/
def machineFieldCount : Nat := 4

/-- Chunks of the top level with a chunk `x` more, among them or somewhere below. -/
inductive InsertsAmong (x : RawChunk) : List RawChunk → List RawChunk → Prop
  /-- Between chunks of the top level. -/
  | between {before after : List RawChunk} (hkind : BlockKind.ofTag? x.1 = none)
      (hdocument : x.1 ≠ documentTag) (hmachine : x.1 ≠ machineTag) :
      InsertsAmong x (before ++ after) (before ++ x :: after)
  /-- Among the fields of the document. -/
  | document {before after fields more : List RawChunk} (hx : documentFieldCount ≤ x.1.toNat) :
      InsertsAmong x (before ++ (documentTag, frames (fields ++ more)) :: after)
        (before ++ (documentTag, frames (fields ++ x :: more)) :: after)
  /-- Among the fields of the machine. -/
  | machine {before after fields more : List RawChunk} (hx : machineFieldCount ≤ x.1.toNat) :
      InsertsAmong x (before ++ (machineTag, frames (fields ++ more)) :: after)
        (before ++ (machineTag, frames (fields ++ x :: more)) :: after)
  /-- In a record. -/
  | record {before after : List RawChunk} {c c' : RawChunk} (h : Record.Inserts x 0 c c') :
      InsertsAmong x (before ++ c :: after) (before ++ c' :: after)

/-- A file is another one with a chunk `x` more. Every length around it, and the total length in
the header, is that of what it is the length of, and can be written. -/
inductive Inserts (x : RawChunk) : Bytes → Bytes → Prop
  /-- The version, and what is behind the end, are the same. -/
  | intro {v rest : Bytes} {cs cs' : List RawChunk} (hv : v.length = 4)
      (hcs : InsertsAmong x cs cs') (hfits : headerSize + (frames cs').length < UInt32.size) :
      Inserts x (layout v (frames cs) rest) (layout v (frames cs') rest)

/-! #### Fields -/

theorem readDocumentField_eq_pure {d : Draft} {tag : UInt8} (h : documentFieldCount ≤ tag.toNat) :
    readDocumentField d tag = pure d := by
  unfold readDocumentField
  split
  all_goals first
    | rfl
    | exact absurd h (by decide)

theorem readMachineField_eq_pure {d : Draft} {tag : UInt8} (h : machineFieldCount ≤ tag.toNat) :
    readMachineField d tag = pure d := by
  unfold readMachineField
  split
  all_goals first
    | rfl
    | exact absurd h (by decide)

variable {field : Draft → UInt8 → Read Draft} {broken : Option CodecError} {d e : Draft}
  {c c' x : RawChunk} {before after rest rest' : List RawChunk}

/-- A field that changes nothing can as well be missing. -/
theorem readFields_insert (hx : ∀ d, field d x.1 = pure d) :
    readFields field broken d (before ++ x :: after) =
      readFields field broken d (before ++ after) := by
  induction before generalizing d with
  | nil =>
    rw [List.nil_append, List.nil_append, readFields, hx]
    rfl
  | cons c before ih =>
    rw [List.cons_append, List.cons_append, readFields, readFields]
    cases Read.within c.2 (field d c.1) with
    | error _ => rfl
    | ok d => exact ih

/-! #### The top level -/

theorem readChunk_document_eq (d : Draft) {cs : List RawChunk}
    (hfits : (frames cs).length < UInt32.size) :
    readChunk d (documentTag, frames cs) = readFields readDocumentField none d cs := by
  rw [readChunk]
  simp only [if_true, RawChunk.split_frames hfits]

theorem readChunk_machine_eq (d : Draft) {cs : List RawChunk}
    (hfits : (frames cs).length < UInt32.size) :
    readChunk d (machineTag, frames cs) = readFields readMachineField none d cs := by
  rw [readChunk]
  simp only [if_neg (show machineTag ≠ documentTag by decide), if_true,
    RawChunk.split_frames hfits]

theorem readChunk_of_ne (d : Draft) (hdocument : c.1 ≠ documentTag) (hmachine : c.1 ≠ machineTag) :
    readChunk d c =
      match (Record.read c).fault with
      | some e => .error e
      | none => .ok { d with blocks := d.blocks ++ (Record.read c).blocks } :=
  (if_neg hdocument).trans (if_neg hmachine)

/-- A chunk that is nothing the reader knows changes nothing. -/
theorem readChunk_of_ofTag?_eq_none (d : Draft) (hkind : BlockKind.ofTag? x.1 = none)
    (hdocument : x.1 ≠ documentTag) (hmachine : x.1 ≠ machineTag) : readChunk d x = .ok d := by
  rw [readChunk_of_ne d hdocument hmachine, Record.read, Record.readTo_of_ofTag?_eq_none hkind]
  simp

theorem readChunks_congr (hc : ∀ d, readChunk d c = readChunk d c') :
    readChunks broken d (c :: rest) = readChunks broken d (c' :: rest) := by
  rw [readChunks, readChunks, hc]

theorem readChunks_append_congr (h : ∀ d, readChunks broken d rest = readChunks broken d rest') :
    readChunks broken d (before ++ rest) = readChunks broken d (before ++ rest') := by
  induction before generalizing d with
  | nil => exact h d
  | cons c before ih =>
    rw [List.cons_append, List.cons_append, readChunks, readChunks]
    cases readChunk d c with
    | error _ => rfl
    | ok d => exact ih

/-- Chunks are not shorter for a chunk more. -/
theorem InsertsAmong.length_le {cs cs' : List RawChunk} (h : InsertsAmong x cs cs') :
    (frames cs).length ≤ (frames cs').length := by
  cases h with
  | between => simp
  | document => simp [Chunk.length_frame]
  | machine => simp [Chunk.length_frame]
  | record h =>
    have hle := h.length_le
    simp [Chunk.length_frame]
    omega

/-- The chunks of the top level are read as they were before. -/
theorem readChunks_insertsAmong {cs cs' : List RawChunk} (h : InsertsAmong x cs cs')
    (hfits : (frames cs').length < UInt32.size) :
    readChunks none d cs' = readChunks none d cs := by
  have hfits' := Nat.lt_of_le_of_lt h.length_le hfits
  cases h with
  | between hkind hdocument hmachine =>
    refine readChunks_append_congr fun d => ?_
    rw [readChunks, readChunk_of_ofTag?_eq_none d hkind hdocument hmachine]
  | document hx =>
    refine readChunks_append_congr fun d => readChunks_congr fun d => ?_
    have hbody := (RawChunk.length_lt_of_mem List.mem_append_cons_self).trans hfits
    have hbody' := (RawChunk.length_lt_of_mem List.mem_append_cons_self).trans hfits'
    rw [readChunk_document_eq d hbody, readChunk_document_eq d hbody']
    exact readFields_insert fun d => readDocumentField_eq_pure hx
  | machine hx =>
    refine readChunks_append_congr fun d => readChunks_congr fun d => ?_
    have hbody := (RawChunk.length_lt_of_mem List.mem_append_cons_self).trans hfits
    have hbody' := (RawChunk.length_lt_of_mem List.mem_append_cons_self).trans hfits'
    rw [readChunk_machine_eq d hbody, readChunk_machine_eq d hbody']
    exact readFields_insert fun d => readMachineField_eq_pure hx
  | record h =>
    refine readChunks_append_congr fun d => readChunks_congr fun d => ?_
    have hbody := (RawChunk.length_lt_of_mem List.mem_append_cons_self).trans hfits
    obtain ⟨htag, kind, hkind⟩ := h.exists_kind
    have hne := tag_ne kind
    rw [BlockKind.tag_of_ofTag? hkind] at hne
    have hread : Record.read _ = Record.read _ := Record.readTo_inserts h hbody rfl
    rw [readChunk_of_ne d hne.1 hne.2, readChunk_of_ne d (htag ▸ hne.1) (htag ▸ hne.2), hread]

/-! #### The header -/

/-- A file is read from the chunks that its body is a run of. -/
theorem decode_layout {v : Bytes} {cs : List RawChunk} (hv : v.length = 4)
    (hfits : headerSize + (frames cs).length < UInt32.size) (rest : Bytes) :
    decode (layout v (frames cs) rest) =
      if version < UInt32.ofNat (ofLittleEndian v) then
        .error (.unsupportedVersion (UInt32.ofNat (ofLittleEndian v)))
      else (readChunks none {} cs).map Draft.finish := by
  rw [decode, readHeader_layout hv hfits]
  by_cases hnewer : version < UInt32.ofNat (ofLittleEndian v)
  · simp only [if_pos hnewer]
  · have hbody := Nat.lt_of_le_of_lt (Nat.le_add_left _ headerSize) hfits
    simp only [if_neg hnewer, RawChunk.split_frames hbody]

/-- A file is read as it was before, also where it is refused. -/
theorem decode_eq_of_inserts {b b' : Bytes} (h : Inserts x b b') : decode b' = decode b := by
  obtain ⟨hv, hcs, hfits⟩ := h
  have hfits' := Nat.lt_of_le_of_lt (Nat.add_le_add_left hcs.length_le headerSize) hfits
  have hbody := Nat.lt_of_le_of_lt (Nat.le_add_left _ headerSize) hfits
  rw [decode_layout hv hfits, decode_layout hv hfits', readChunks_insertsAmong hcs hbody]

/-- **A chunk that means nothing changes nothing.** A file that is accepted is accepted with one
such chunk more, wherever it is put, and gives the same project. -/
theorem decode_of_inserts {x : RawChunk} {b b' : Bytes} {p : Project} (hp : decode b = .ok p)
    (h : Inserts x b b') : decode b' = .ok p :=
  (decode_eq_of_inserts h).trans hp

/-- The chunks of a template with a point among its children. -/
def templateWith (point : List RawChunk) : List RawChunk :=
  [(BlockKind.template.tag, frames (Record.counted [] 1 [] [(BlockKind.point.tag, frames point)]))]

theorem decode_of_inserts_point :
    ∃ p, decode (layout (Leaf.wordBytes version) (frames (templateWith [])) [7]) = .ok p ∧
      decode (layout (Leaf.wordBytes version) (frames (templateWith [(9, [1, 2, 3])])) [7]) =
        .ok p := by
  have hok : (decode (layout (Leaf.wordBytes version) (frames (templateWith [])) [7])).isOk =
      true := by
    decide +kernel
  have hinserts : Inserts (9, [1, 2, 3])
      (layout (Leaf.wordBytes version) (frames (templateWith [])) [7])
      (layout (Leaf.wordBytes version) (frames (templateWith [(9, [1, 2, 3])])) [7]) := by
    have hpoint : Record.Inserts (9, [1, 2, 3]) 1 (BlockKind.point.tag, frames [])
        (BlockKind.point.tag, frames [(9, [1, 2, 3])]) :=
      @Record.Inserts.ahead _ _ _ _ [] [] (BlockKind.ofTag?_tag _)
        ⟨by decide, by decide, by decide, by decide⟩ (by simp)
    have htemplate : Record.Inserts (9, [1, 2, 3]) 0
        (BlockKind.template.tag,
          frames (Record.counted [] 1 [] [(BlockKind.point.tag, frames [])]))
        (BlockKind.template.tag,
          frames (Record.counted [] 1 [] [(BlockKind.point.tag, frames [(9, [1, 2, 3])])])) :=
      @Record.Inserts.inside _ _ _ _ _ _ _ [] [] [] [] (BlockKind.ofTag?_tag _) (by simp) hpoint
    exact .intro rfl (@InsertsAmong.record _ [] [] _ _ htemplate) (by decide)
  cases h : decode (layout (Leaf.wordBytes version) (frames (templateWith [])) [7]) with
  | error _ =>
    rw [h] at hok
    cases hok
  | ok p => exact ⟨p, rfl, decode_of_inserts h hinserts⟩

end ProjectFile

end Toolpath
