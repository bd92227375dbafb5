import Verbatim.Text.Cut

/-!
# Trivia

Trivia is the text around a token that means nothing: blanks, line ends and line comments. A token
in a text owns its trivia as `Trivia`, a stored token only remembers the kind and length of each
piece.
-/

namespace Verbatim

/-- The three sorts of trivia. -/
inductive TriviaKind where
  | whitespace | newline | comment
  deriving DecidableEq, Hashable, Repr, Inhabited

namespace TriviaKind

/-- Every sort once. -/
def all : List TriviaKind := [whitespace, newline, comment]

/-- The written name of a sort. -/
def name : TriviaKind → String
  | whitespace => "Whitespace"
  | newline => "Newline"
  | comment => "SingleLineComment"

/-- Reads a sort back from its written name. -/
def ofName? (s : String) : Option TriviaKind := all.find? fun k => k.name == s

end TriviaKind

/-- The sort and the number of bytes of one piece of trivia. -/
structure TriviaPiece where
  /-- What the piece is. -/
  kind : TriviaKind
  /-- How many bytes it has. -/
  length : Nat
  deriving DecidableEq, Hashable, Repr, Inhabited

/-- Number of bytes of a list of pieces. -/
def TriviaPiece.total (pieces : List TriviaPiece) : Nat := sumOf (·.length) pieces

/-- One piece of trivia together with its text. -/
structure Trivia where
  /-- What the piece is. -/
  kind : TriviaKind
  /-- The characters of the piece. -/
  text : List Char
  deriving DecidableEq, Repr, Inhabited

namespace Trivia

/-- What a stored token remembers of the piece. -/
def piece (t : Trivia) : TriviaPiece := ⟨t.kind, Text.byteLength t.text⟩

/-- The characters of several pieces in a row. -/
def chars (pieces : List Trivia) : List Char := pieces.flatMap (·.text)

end Trivia

end Verbatim
