/-!
# Ranges of characters

A class of characters is kept as a table of code point ranges, both ends included.
-/

namespace LispLowering.Text

/-- Whether some range of the table holds `c`. -/
def inRanges (ranges : List (Nat × Nat)) (c : Char) : Bool :=
  ranges.any fun (low, high) => low ≤ c.toNat && c.toNat ≤ high

end LispLowering.Text
