import Verbatim.Text.Ranges

/-!
# Blanks and line ends

White space is the Unicode property `White_Space`. The two characters that end a line are kept apart
from the other white space, which is called blank here.
-/

namespace Verbatim.Text

/-- Inclusive ranges of the code points with the property `White_Space`. -/
def whiteSpaceRanges : List (Nat × Nat) :=
  [(0x09, 0x0d), (0x20, 0x20), (0x85, 0x85), (0xa0, 0xa0), (0x1680, 0x1680), (0x2000, 0x200a),
    (0x2028, 0x2029), (0x202f, 0x202f), (0x205f, 0x205f), (0x3000, 0x3000)]

/-- Whether a character has the property `White_Space`. -/
def isWhiteSpace (c : Char) : Bool := inRanges whiteSpaceRanges c

/-- Whether a character ends a line. -/
def isLineEnd (c : Char) : Bool := c == '\n' || c == '\r'

/-- White space that stays on its line. -/
def isBlank (c : Char) : Bool := isWhiteSpace c && !isLineEnd c

end Verbatim.Text
