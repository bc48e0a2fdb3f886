import StyleValues.Text.Basic

/-!
# Ranges of code points

Properties of characters beyond ASCII are given by tables of ranges. A table
lists its ranges in ascending order, first and last code point included.
-/

set_option autoImplicit false

namespace StyleValues

abbrev CodeRanges := List (Nat × Nat)

/-- Whether one of the ranges holds the code point. The search stops at the
first range that ends at or after it. -/
def CodeRanges.covers : CodeRanges → Nat → Bool
  | [], _ => false
  | (first, last) :: rest, n => if last < n then covers rest n else decide (first ≤ n)

end StyleValues
