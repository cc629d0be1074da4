/-!
# Chunks

Everything in a project file is a chunk: a tag, the length of the body in four little-endian
bytes, and the body, which is either raw bytes or further chunks. `Chunk.bytes` is that grammar.
-/

namespace Toolpath

/-- A run of bytes. -/
abbrev Bytes := List UInt8

/-- The lowest `width` bytes of a number, the lowest one first. -/
def littleEndian : Nat → Nat → Bytes
  | 0, _ => []
  | width + 1, n => UInt8.ofNat n :: littleEndian width (n / 256)

/-- The number whose bytes are given, the lowest one first. -/
def ofLittleEndian : Bytes → Nat
  | [] => 0
  | b :: bs => b.toNat + 256 * ofLittleEndian bs

@[simp] theorem length_littleEndian (width n : Nat) : (littleEndian width n).length = width := by
  induction width generalizing n with
  | zero => rfl
  | succ w ih => simp [littleEndian, ih]

theorem ofLittleEndian_littleEndian (width n : Nat) :
    ofLittleEndian (littleEndian width n) = n % Nat.pow 256 width := by
  induction width generalizing n with
  | zero => simp [littleEndian, ofLittleEndian, Nat.mod_one]
  | succ w ih =>
    have step : Nat.pow 256 (w + 1) = 256 * Nat.pow 256 w := Nat.mul_comm _ _
    have low : (UInt8.ofNat n).toNat = n % 256 := by simp
    rw [littleEndian, ofLittleEndian, ih, step, Nat.mod_mul, low]

theorem ofLittleEndian_lt (bs : Bytes) : ofLittleEndian bs < Nat.pow 256 bs.length := by
  induction bs with
  | nil => simp [ofLittleEndian]
  | cons b bs ih =>
    have := b.toNat_lt
    have step : Nat.pow 256 (bs.length + 1) = 256 * Nat.pow 256 bs.length := Nat.mul_comm _ _
    simp only [ofLittleEndian, List.length_cons, step]
    omega

theorem littleEndian_ofLittleEndian (bs : Bytes) :
    littleEndian bs.length (ofLittleEndian bs) = bs := by
  induction bs with
  | nil => rfl
  | cons b bs ih =>
    have hb := b.toNat_lt
    have hdiv : ofLittleEndian (b :: bs) / 256 = ofLittleEndian bs := by
      simp only [ofLittleEndian]; omega
    have hmod : UInt8.ofNat (ofLittleEndian (b :: bs)) = b := by
      apply UInt8.toNat_inj.mp
      simp only [ofLittleEndian, UInt8.toNat_ofNat']
      omega
    rw [List.length_cons, littleEndian, hdiv, hmod, ih]

/-- A chunk of a project file. -/
inductive Chunk where
  /-- A chunk that holds raw bytes. -/
  | leaf (tag : UInt8) (body : Bytes)
  /-- A chunk that holds chunks. -/
  | group (tag : UInt8) (parts : List Chunk)
deriving Repr

namespace Chunk

/-- A tag, the length of the body and the body. -/
def frame (tag : UInt8) (body : Bytes) : Bytes := tag :: (littleEndian 4 body.length ++ body)

mutual

/-- The bytes of a chunk. -/
def bytes : Chunk → Bytes
  | leaf tag body => frame tag body
  | group tag parts => frame tag (bytesOfAll parts)

/-- The bytes of chunks one after the other. -/
def bytesOfAll : List Chunk → Bytes
  | [] => []
  | c :: cs => bytes c ++ bytesOfAll cs

end

/-- The body of a chunk. -/
def body : Chunk → Bytes
  | leaf _ body => body
  | group _ parts => bytesOfAll parts

/-- The tag of a chunk. -/
def tag : Chunk → UInt8
  | leaf tag _ => tag
  | group tag _ => tag

@[simp] theorem bytesOfAll_eq_flatMap (cs : List Chunk) : bytesOfAll cs = cs.flatMap bytes := by
  induction cs with
  | nil => rfl
  | cons c cs ih => simp [bytesOfAll, ih]

theorem bytes_eq_frame (c : Chunk) : c.bytes = frame c.tag c.body := by
  cases c <;> simp [bytes, tag, body]

end Chunk

end Toolpath
