/-!
# Ranges of code points

A class of characters is given by a list of ranges of code points in increasing order.  A look-up may stop at the
first range that starts behind the code point.
-/

namespace PlsqlLint

/-- A range of code points, given by its first and its last member. -/
abbrev CodeRange := Nat × Nat

/-- Whether one of the ranges, which stand in increasing order, holds the code point `n`. -/
def CodeRange.covers : List CodeRange → Nat → Bool
  | [], _ => false
  | (first, last) :: ranges, n => if n < first then false else decide (n ≤ last) || covers ranges n

end PlsqlLint
