/-!
# Rounding a quotient to the nearest integer

`divEven n d` is the integer nearest to `n / d`; of two integers equally near it is the even one.
Every rounding of an exact value in this library, to a binary or to a decimal grid, goes through
this one function.
-/

namespace Toolpath

namespace Rounding

/-- The integer nearest to `n / d`, a tie going to the even neighbour. -/
def divEven (n d : Nat) : Nat :=
  let q := n / d
  let twice := 2 * (n % d)
  if twice < d then q
  else if d < twice then q + 1
  else if q % 2 = 0 then q else q + 1

end Rounding

end Toolpath
