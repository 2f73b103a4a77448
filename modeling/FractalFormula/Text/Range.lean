import FractalFormula.Search

/-!
# Ranges of code points

A property of characters is kept as a table of disjoint ranges in ascending order.
-/

namespace FractalFormula.Text

/-- Whether one of the ranges, which include both ends, holds `code`. -/
def inRanges (ranges : Array (Nat × Nat)) (code : Nat) : Bool :=
  (search (fun r => if r.2 < code then .lt else if code < r.1 then .gt else .eq) ranges).isSome

end FractalFormula.Text
