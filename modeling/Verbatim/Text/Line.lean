import Verbatim.Text.Cut

/-!
# Lines and columns

Lines are separated by line feeds only; a column counts the bytes since the last one.
-/

namespace Verbatim.Text

/-- A place in a text: how many line feeds stand before it, and how many bytes since the last. -/
structure LineColumn where
  /-- Number of line feeds before the place. -/
  line : Nat
  /-- Number of bytes between the last of them and the place. -/
  column : Nat
  deriving DecidableEq, Repr

/-- Walks over the characters that start before `offset`, from the place reached so far. -/
def advanceLines (offset : Nat) (here : Nat) (place : LineColumn) : List Char → LineColumn
  | [] => place
  | c :: cs =>
    if offset ≤ here then place
    else if c = '\n' then advanceLines offset (here + 1) ⟨place.line + 1, 0⟩ cs
    else advanceLines offset (here + c.utf8Size) ⟨place.line, place.column + c.utf8Size⟩ cs

/-- Line and column of a byte offset that lies between two characters. -/
def lineColumn (text : List Char) (offset : Nat) : LineColumn := advanceLines offset 0 ⟨0, 0⟩ text

end Verbatim.Text
