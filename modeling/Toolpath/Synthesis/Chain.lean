import Toolpath.Geometry.Vector

/-!
# Chains

The segments of a slice come in no particular order. `Chain.all` joins them into polylines: a chain
starts with the first segment left and grows at either end as long as some segment has an end
there. While the segments left are gone through, the one looked at is tried against the chain as it
has grown so far, first at the tail, then at the head.
-/

namespace Toolpath

/-- A polyline that grows at both ends. -/
structure Chain (R : Type) where
  /-- The first point. -/
  head : Vec2 R
  /-- The points behind the first that were put there from the front. -/
  front : List (Vec2 R)
  /-- The points before the last that were put there from the back, in reverse order. -/
  back : List (Vec2 R)
  /-- The last point. -/
  tail : Vec2 R
deriving DecidableEq, Repr

namespace Chain

variable {R : Type}

/-- A straight piece of a contour. -/
abbrev Piece (R : Type) := Vec2 R × Vec2 R

/-- The chain of one piece. -/
def single (s : Piece R) : Chain R := ⟨s.1, [], [], s.2⟩

/-- The points in order. -/
def points (c : Chain R) : List (Vec2 R) := c.head :: (c.front ++ (c.tail :: c.back).reverse)

/-- The chain with a point behind the last. -/
def push (c : Chain R) (p : Vec2 R) : Chain R := { c with back := c.tail :: c.back, tail := p }

/-- The chain with a point before the first. -/
def cons (c : Chain R) (p : Vec2 R) : Chain R := { c with front := c.head :: c.front, head := p }

@[simp] theorem points_single (s : Piece R) : (single s).points = [s.1, s.2] := rfl

@[simp] theorem points_push (c : Chain R) (p : Vec2 R) : (c.push p).points = c.points ++ [p] := by
  simp [points, push]

@[simp] theorem points_cons (c : Chain R) (p : Vec2 R) : (c.cons p).points = p :: c.points := by
  simp [points, cons]

variable [Analytic R]

/-- Whether two points are taken for the same vertex. -/
def meets (p q : Vec2 R) : Bool := decide ((p - q).norm < 1 / 1000000)

/-- The chain with a piece joined to one of its ends, if it has an end there. -/
def join? (c : Chain R) (s : Piece R) : Option (Chain R) :=
  if meets s.1 c.tail then some (c.push s.2)
  else if meets s.2 c.tail then some (c.push s.1)
  else if meets s.2 c.head then some (c.cons s.1)
  else if meets s.1 c.head then some (c.cons s.2)
  else none

/-- The chain after one pass over some pieces, and the pieces left. -/
def sweep (c : Chain R) : List (Piece R) → Chain R × List (Piece R)
  | [] => (c, [])
  | s :: rest =>
    match c.join? s with
    | some c => sweep c rest
    | none =>
      let (c, left) := sweep c rest
      (c, s :: left)

theorem length_sweep_le (c : Chain R) (pieces : List (Piece R)) :
    (c.sweep pieces).2.length ≤ pieces.length := by
  induction pieces generalizing c with
  | nil => simp [sweep]
  | cons s rest ih =>
    rw [sweep]
    cases c.join? s with
    | some c => exact Nat.le_succ_of_le (ih c)
    | none => exact Nat.succ_le_succ (ih c)

/-- The chain after as many passes as join anything, and the pieces left. -/
def grow (c : Chain R) (pieces : List (Piece R)) : Chain R × List (Piece R) :=
  let swept := c.sweep pieces
  if swept.2.length < pieces.length then grow swept.1 swept.2 else swept
termination_by pieces.length

theorem length_grow_le (c : Chain R) (pieces : List (Piece R)) :
    (c.grow pieces).2.length ≤ pieces.length := by
  fun_induction grow c pieces with
  | case1 c pieces swept h ih => exact Nat.le_trans ih (Nat.le_of_lt h)
  | case2 c pieces swept h => exact length_sweep_le c pieces

/-- The chains that some pieces form. -/
def all : List (Piece R) → List (Chain R)
  | [] => []
  | s :: rest =>
    let grown := (single s).grow rest
    grown.1 :: all grown.2
termination_by pieces => pieces.length
decreasing_by exact Nat.lt_succ_of_le (length_grow_le _ _)

end Chain

end Toolpath
