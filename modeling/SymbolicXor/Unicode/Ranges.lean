/-!
# Tables of code points

A property of characters is given by the closed ranges of code points that have it.
-/

namespace SymbolicXor.Unicode

/-- Whether the code point of `c` lies in one of the closed ranges. -/
def inRanges (ranges : List (Nat × Nat)) (c : Char) : Bool :=
  ranges.any fun r => decide (r.1 ≤ c.toNat) && decide (c.toNat ≤ r.2)

end SymbolicXor.Unicode
