/-!
Sets of characters given by ranges of code points, both ends included.
-/
namespace DepCalc.Text

abbrev CodePoints := List (Nat × Nat)

def CodePoints.contains (ranges : CodePoints) (c : Char) : Bool :=
  ranges.any fun range => range.1 ≤ c.toNat && c.toNat ≤ range.2

end DepCalc.Text
