/-!
# Ranges of code points

A character class of the Unicode standard is a table of closed ranges of code points in
increasing order, and membership is decided by scanning the table.

## Main definitions

* `CodeRanges` : a table of closed ranges.
* `CodeRanges.has` : the code point lies in one of the ranges.
-/

namespace Typeset.Text

/-- A table of closed ranges of code points, in increasing order. -/
abbrev CodeRanges := List (Nat × Nat)

/-- The code point of `c` lies in one of the ranges. -/
def CodeRanges.has (table : CodeRanges) (c : Char) : Bool :=
  table.any fun r => r.1 ≤ c.toNat && c.toNat ≤ r.2

end Typeset.Text
