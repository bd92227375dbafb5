import Verbatim.Grammar
import Verbatim.Token.Lexer
import Verbatim.View

/-!
# Parsing a text

Parsing never fails on account of the text. The tree of a text spells exactly that text: whatever
the grammar cannot place is kept in the tree as unexpected text, and whatever it needs and does not
find is stood in for.
-/

namespace Verbatim

/-- The tree of a text, made in the store at hand. -/
def parse (text : String) : Alloc View := do
  let steps ← ofExcept ((tokenize text).buildSteps text)
  let green ← Builder.run steps
  return .root (← get).tag green

end Verbatim
