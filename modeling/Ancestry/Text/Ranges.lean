/-!
# Ranges of code points

A property of characters is a list of closed ranges of code points, in ascending order.
-/

namespace Ancestry.Text

abbrev Ranges := List (Nat × Nat)

def Ranges.covers (ranges : Ranges) (c : Char) : Bool :=
  ranges.any fun (first, last) => first ≤ c.toNat && c.toNat ≤ last

end Ancestry.Text
