import Toolpath.Block.Payload

/-!
# Depth passes

A contour is cut in levels: every multiple of the step that stays above the full depth by more than
the precision, and then the full depth itself.
-/

namespace Toolpath

namespace Synthesis

variable {R : Type} [Scalar R]

/-- The levels at which a contour of some depth is cut. A depth within the precision has none; a
step within the precision or beyond the depth gives the depth alone. -/
def passes (step depth : R) : List R :=
  if depth ≤ Scalar.precision then []
  else if step ≤ Scalar.precision ∨ depth ≤ step then [depth]
  else Scalar.marks step (depth - Scalar.precision) ++ [depth]

/-- The feed at which a tool plunges: the one it asks for, or its feed if that is not positive. -/
def plungeFeed (t : Tool R) : R := if 0 < t.plungeFeed then t.plungeFeed else t.feed

end Synthesis

end Toolpath
