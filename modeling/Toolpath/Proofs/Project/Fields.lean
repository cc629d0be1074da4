import Toolpath.Project.Record
import Toolpath.Proofs.Chunk.Framing

/-!
# Fields written and read

A field holds a number, a text or a run of numbers, and reading it takes off the bytes that writing
it put there: a step `Takes` a value from its bytes, whatever follows them. That is all that the
round trip of a payload needs to know of a field, so that it is a computation of sixteen cases
without an argument in them.

Doubles are their bits here, so no value is lost that has bits of its own; and a text is its bytes,
of which it carries the proof that they are UTF-8.

## Main definitions

* `Read.Takes` — a step that takes a value off its bytes
* `Payload.bare` — a payload without what is derived from it
* `Payload.readFields` — the fields in some chunks read one after the other

## Main results

* `Payload.readFields_fields` — the fields of a payload give the payload back
-/

namespace Toolpath

namespace Read

variable {α β : Type}

/-- The step takes the value off its bytes, whatever follows. -/
def Takes (step : Read α) (bytes : Bytes) (a : α) : Prop :=
  ∀ rest, step.on (bytes ++ rest) = (.ok a, rest)

theorem Takes.pure (a : α) : Takes (Pure.pure a) [] a := fun _ => rfl

theorem Takes.bind {step : Read α} {next : α → Read β} {bytes more : Bytes} {a : α} {b : β}
    (h : Takes step bytes a) (hnext : Takes (next a) more b) :
    Takes (step >>= next) (bytes ++ more) b := fun rest => by
  rw [List.append_assoc, on_bind_ok (h _)]
  exact hnext rest

theorem Takes.on {step : Read α} {bytes : Bytes} {a : α} (h : Takes step bytes a) :
    step.on bytes = (.ok a, []) := by
  have := h []
  rwa [List.append_nil] at this

/-- A body that is nothing but the bytes of a value. -/
theorem within_of_on {step : Read α} {body : Bytes} {a : α} (h : step.on body = (.ok a, []))
    (f : α → β) : within body (do return f (← step)) = .ok (f a) := by
  rw [within, on_bind_ok h]
  rfl

/-! ### Numbers -/

theorem takes_u8 (b : UInt8) : Takes u8 [b] b := fun rest => on_u8 b rest

theorem takes_bool (b : Bool) : Takes bool [if b then 1 else 0] b := by
  have h : ((if b then (1 : UInt8) else 0) != 0) = b := by cases b <;> rfl
  intro rest
  rw [bool, on_bind_ok (takes_u8 _ rest), h]
  rfl

theorem takes_u32 (n : UInt32) : Takes u32 (Leaf.wordBytes n) n := fun rest => by
  rw [Leaf.wordBytes, on_u32 _ n.toNat_lt, UInt32.ofNat_toNat]

theorem takes_f64 (x : Double) : Takes f64 (Leaf.doubleBytes x) x := fun rest => by
  have hvalue : ofLittleEndian (littleEndian 8 x.bits.toNat) = x.bits.toNat := by
    rw [ofLittleEndian_littleEndian]
    exact Nat.mod_eq_of_lt x.bits.toNat_lt
  rw [f64, Leaf.doubleBytes, on_bind_ok (on_take_append (length_littleEndian _ _)), hvalue,
    UInt64.ofNat_toNat]
  rfl

theorem takes_point (p : Vec2 Double) : Takes point ([p.x, p.y].flatMap Leaf.doubleBytes) p :=
  (takes_f64 p.x).bind ((takes_f64 p.y).bind (Takes.pure p))

theorem takes_vec3 (v : Vec3 Double) : Takes vec3 (v.toList.flatMap Leaf.doubleBytes) v :=
  (takes_f64 v.x).bind ((takes_f64 v.y).bind ((takes_f64 v.z).bind (Takes.pure v)))

/-! ### What fills a body -/

theorem decode_encode (s : String) : Utf8.decode (Utf8.encode s) = .ok s := by
  have h : String.fromUTF8? ⟨(Utf8.encode s).toArray⟩ = some s := by
    have hbytes : (⟨(Utf8.encode s).toArray⟩ : ByteArray) = s.toByteArray := by
      simp [Utf8.encode]
    rw [hbytes, String.fromUTF8?, dif_pos s.isValidUTF8]
    rfl
  rw [Utf8.decode, h]

theorem on_text (s : String) : text.on (Utf8.encode s) = (.ok s, []) := by
  rw [text, on_bind_ok (on_get _), on_set_bind, decode_encode]
  rfl

theorem singlesOf_flatMap (found : Array Single) (xs : List Single) :
    singlesOf found (xs.flatMap Leaf.singleBytes) = found ++ xs.toArray := by
  induction xs generalizing found with
  | nil => simp [singlesOf]
  | cons x xs ih =>
    have hvalue : ofLittleEndian (littleEndian 4 x.bits.toNat) = x.bits.toNat := by
      rw [ofLittleEndian_littleEndian]
      exact Nat.mod_eq_of_lt x.bits.toNat_lt
    simp only [littleEndian] at hvalue
    simp only [List.flatMap_cons, Leaf.singleBytes, littleEndian, List.cons_append, List.nil_append,
      singlesOf, hvalue, UInt32.ofNat_toNat]
    rw [ih]
    simp

theorem on_singles (xs : List Single) :
    singles.on (xs.flatMap Leaf.singleBytes) = (.ok xs.toArray, []) := by
  have hlength : (xs.flatMap Leaf.singleBytes).length % 4 = 0 := by
    have : (xs.flatMap Leaf.singleBytes).length = 4 * xs.length := by
      simp [List.length_flatMap, Leaf.singleBytes, List.map_const']
      omega
    omega
  rw [singles, on_bind_ok (on_get _)]
  simp only [hlength, if_true]
  rw [on_set_bind, singlesOf_flatMap]
  simp

end Read

/-! ### Payloads -/

namespace Payload

open Read Leaf

/-- Fields read one after the other. -/
def readFields (p : StoredPayload) (cs : List Chunk) : Except CodecError StoredPayload :=
  cs.foldlM (fun p c => Read.within c.body (p.readField c.tag)) p

/-- A payload without what is derived from it: the contours of a mesh. -/
def bare : StoredPayload → StoredPayload
  | .mesh m => .mesh { m with contours := [] }
  | p => p

/-- Nothing is there that a field may be missing for: no place to park, and no contours. -/
def Bare : StoredPayload → Prop
  | .footer f => f = ⟨none⟩
  | .mesh m => m.contours = []
  | _ => True

theorem bare_standard (k : BlockKind) : Bare (standard k) := by
  cases k <;> trivial

theorem readFields_nil (p : StoredPayload) : p.readFields [] = .ok p := rfl

theorem readFields_cons {p q r : StoredPayload} {c : Chunk} {cs : List Chunk}
    (h : Read.within c.body (p.readField c.tag) = .ok q) (hrest : q.readFields cs = .ok r) :
    p.readFields (c :: cs) = .ok r := by
  rw [readFields, List.foldlM_cons, h]
  exact hrest

theorem within_two_words {β : Type} (a b : UInt32) (f : UInt32 → UInt32 → β) :
    Read.within ([a, b].flatMap wordBytes) (do let x ← u32; let y ← u32; return f x y) =
      .ok (f a b) := by
  have h : Takes (do let x ← u32; let y ← u32; return f x y) ([a, b].flatMap wordBytes) (f a b) :=
    (takes_u32 a).bind ((takes_u32 b).bind (Takes.pure _))
  rw [within, h.on]

theorem trianglesOf_flatMap (ts : List (Triangle Single)) :
    trianglesOf (ts.flatMap Triangle.toList) = ts := by
  induction ts with
  | nil => rfl
  | cons t ts ih =>
    rw [List.flatMap_cons]
    show t :: trianglesOf (ts.flatMap Triangle.toList) = _
    rw [ih]

theorem on_readTriangles (ts : List (Triangle Single)) :
    readTriangles.on ((ts.flatMap Triangle.toList).flatMap singleBytes) = (.ok ts, []) := by
  have hsize : (ts.flatMap Triangle.toList).toArray.size % 9 = 0 := by
    have : (ts.flatMap Triangle.toList).length = 9 * ts.length := by
      simp [List.length_flatMap, Triangle.toList, Vec3.toList, List.map_const']
      omega
    rw [List.size_toArray]
    omega
  rw [readTriangles, on_bind_ok (on_singles _)]
  simp only [hsize, if_true, trianglesOf_flatMap]
  rfl

/-- **The fields of a payload give the payload back**, but for what is derived. What the fields of a
kind replace is all that there is, so it does not matter from which payload of the kind reading
starts. -/
theorem readFields_fields {p q : StoredPayload} (h : q.kind = p.kind) (hq : q.Bare) :
    q.readFields p.fields = .ok p.bare := by
  cases p <;> cases q <;> try cases h
  case header.header => exact readFields_cons (within_of_on (takes_u8 _).on _) (readFields_nil _)
  case footer.footer d e =>
    obtain ⟨_ | p⟩ := d
    · obtain rfl : e = ⟨none⟩ := hq
      exact readFields_nil _
    · exact readFields_cons (within_of_on (takes_point _).on _) (readFields_nil _)
  case tool.tool d e =>
    have hspindle : (if d.spindle == .counterClockwise then SpindleDirection.counterClockwise
        else .clockwise) = d.spindle := by cases d.spindle <;> rfl
    refine readFields_cons (within_of_on (on_text _) _) ?_
    refine readFields_cons (within_of_on (takes_u8 _).on _) ?_
    refine readFields_cons (within_of_on (takes_f64 _).on _) ?_
    refine readFields_cons (within_of_on (takes_f64 _).on _) ?_
    refine readFields_cons (within_of_on (takes_f64 _).on _) ?_
    refine readFields_cons (within_of_on (takes_f64 _).on _) ?_
    refine readFields_cons (within_of_on (takes_u32 _).on _) ?_
    refine readFields_cons (within_of_on (takes_bool _).on _) ?_
    refine readFields_cons (within_of_on (takes_bool _).on _) ?_
    refine readFields_cons (within_of_on (takes_bool _).on _) ?_
    exact congrArg (fun spindle => Except.ok (Payload.tool { d with spindle })) hspindle
  case code.code => exact readFields_cons (within_of_on (on_text _) _) (readFields_nil _)
  case sketch.sketch d e =>
    refine readFields_cons (within_of_on (takes_f64 _).on _) ?_
    refine readFields_cons (within_of_on (takes_f64 _).on _) ?_
    refine readFields_cons (within_of_on (takes_u8 _).on _) ?_
    exact congrArg (fun side => Except.ok (Payload.sketch { d with side }))
      (CutSide.ofByte_toByte d.side)
  case line.line d e =>
    refine readFields_cons (within_of_on (takes_point _).on _) ?_
    exact readFields_cons (within_of_on (takes_point _).on _) (readFields_nil _)
  case arc.arc d e =>
    refine readFields_cons (within_of_on (takes_point _).on _) ?_
    refine readFields_cons (within_of_on (takes_f64 _).on _) ?_
    refine readFields_cons (within_of_on (takes_f64 _).on _) ?_
    exact readFields_cons (within_of_on (takes_f64 _).on _) (readFields_nil _)
  case boltHoles.boltHoles d e =>
    have hpattern : (if d.pattern == .matrix then BoltPattern.matrix else .radial) = d.pattern := by
      cases d.pattern <;> rfl
    refine readFields_cons (within_of_on (takes_point _).on _) ?_
    refine readFields_cons (within_of_on (takes_bool _).on _) ?_
    refine readFields_cons (within_of_on (takes_u32 _).on _) ?_
    refine readFields_cons (within_of_on (takes_f64 _).on _) ?_
    refine readFields_cons (within_of_on (takes_f64 _).on _) ?_
    refine readFields_cons (within_two_words _ _ _) ?_
    refine readFields_cons (within_of_on (takes_point _).on _) ?_
    refine readFields_cons (within_of_on (takes_f64 _).on _) ?_
    refine readFields_cons (within_of_on (takes_f64 _).on _) ?_
    refine readFields_cons (within_of_on (takes_f64 _).on _) ?_
    exact congrArg (fun pattern => Except.ok (Payload.boltHoles { d with pattern })) hpattern
  case drillHoles.drillHoles d e =>
    refine readFields_cons (within_of_on (takes_f64 _).on _) ?_
    refine readFields_cons (within_of_on (takes_f64 _).on _) ?_
    exact readFields_cons (within_of_on (takes_bool _).on _) (readFields_nil _)
  case template.template d e =>
    refine readFields_cons (within_of_on (takes_point _).on _) ?_
    exact readFields_cons (within_of_on (takes_f64 _).on _) (readFields_nil _)
  case point.point => exact readFields_cons (within_of_on (takes_point _).on _) (readFields_nil _)
  case image.image d e =>
    refine readFields_cons (within_two_words _ _ _) ?_
    refine readFields_cons (within_of_on (takes_vec3 _).on _) ?_
    exact readFields_cons (within_of_on (on_singles _) _) (readFields_nil _)
  case mesh.mesh d e =>
    obtain ⟨ts, n, cs⟩ := e
    obtain rfl : cs = [] := hq
    refine readFields_cons (within_of_on (takes_u32 _).on _) ?_
    exact readFields_cons (within_of_on (on_readTriangles _) _) (readFields_nil _)
  case svg.svg => exact readFields_cons (within_of_on (on_text _) _) (readFields_nil _)
  case gerber.gerber => exact readFields_cons (within_of_on (on_text _) _) (readFields_nil _)
  case excellon.excellon => exact readFields_cons (within_of_on (on_text _) _) (readFields_nil _)

end Payload

end Toolpath
