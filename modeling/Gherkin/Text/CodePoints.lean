/-!
# Sets of code points

The properties of characters that a standard lists are kept as the closed ranges of their code
points, in increasing order.
-/

namespace Gherkin.Text

/-- Closed ranges of code points. -/
abbrev CodePoints := List (Nat × Nat)

def CodePoints.has (ranges : CodePoints) (c : Char) : Bool :=
  ranges.any fun (first, last) => first ≤ c.toNat && c.toNat ≤ last

end Gherkin.Text
