/-!
# Ranges of characters

A property of characters is held as the increasing list of the code point ranges that have it.
-/

namespace Verbatim.Text

/-- Whether the code point of a character lies in one of some inclusive ranges. -/
def inRanges (ranges : List (Nat × Nat)) (c : Char) : Bool :=
  ranges.any fun (low, high) => low ≤ c.toNat && c.toNat ≤ high

end Verbatim.Text
