import Toolpath.Block.Payload

/-!
# Blocks

A block is a payload with a comment and two flags. It also carries what the last synthesis left
on it: its program text and the reason, if any, why it produced none.
-/

namespace Toolpath

/-- The flags of a block. -/
structure BlockFlags where
  /-- The block can be neither removed nor reordered. -/
  locked : Bool := false
  /-- The block stays in the project but produces nothing. -/
  suppressed : Bool := false
deriving DecidableEq, Repr, Inhabited

namespace BlockFlags

/-- The persisted bits. -/
def bits (f : BlockFlags) : UInt8 :=
  (if f.locked then 1 else 0) ||| (if f.suppressed then 2 else 0)

/-- The flags with persisted bits; bits that mean nothing are ignored. -/
def ofBits (b : UInt8) : BlockFlags := ⟨b &&& 1 != 0, b &&& 2 != 0⟩

@[simp] theorem ofBits_bits (f : BlockFlags) : ofBits f.bits = f := by
  rcases f with ⟨_ | _, _ | _⟩ <;> rfl

end BlockFlags

/-- One operation of a machining project. -/
structure Block (R S : Type) where
  /-- The payload. -/
  payload : Payload R S
  /-- A comment, carried into the program by most kinds. -/
  comment : String := ""
  /-- The flags. -/
  flags : BlockFlags := {}
  /-- The program text of the last synthesis. -/
  code : String := ""
  /-- Why the last synthesis produced nothing for the block, or empty. -/
  status : String := ""
deriving DecidableEq, Repr

namespace Block

variable {R S : Type}

/-- The kind of a block, fixed by its payload. -/
def kind (b : Block R S) : BlockKind := b.payload.kind

/-- The tool, if the block is a tool change. -/
def tool? (b : Block R S) : Option (Tool R) :=
  match b.payload with
  | .tool t => some t
  | _ => none

/-- The block with its lengths multiplied. -/
def scale [Scalar R] [Storage R S] (b : Block R S) (k : R) : Block R S :=
  { b with payload := b.payload.scale k }

/-- The block as it was before any synthesis. -/
def fresh (b : Block R S) : Block R S := { b with code := "", status := "" }

@[simp] theorem kind_scale [Scalar R] [Storage R S] (b : Block R S) (k : R) :
    (b.scale k).kind = b.kind := Payload.kind_scale k b.payload

@[simp] theorem kind_fresh (b : Block R S) : b.fresh.kind = b.kind := rfl

end Block

end Toolpath
