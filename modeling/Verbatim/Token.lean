import Verbatim.Kind
import Verbatim.Trivia
import Verbatim.Text.Span

/-!
# Tokens of a text

A token of a text is its content together with the trivia that belongs to it. Leading trivia is
everything between the previous token and the content; trailing trivia stops before the next line
end. The last token of every text is an end-of-file token that carries the trivia at the end of it.
-/

namespace Verbatim

/-- One token of a text, with its trivia and the place of its content. -/
structure Token where
  /-- The trivia before the content. -/
  leading : List Trivia
  /-- What the content is. -/
  kind : Kind
  /-- The characters of the content; empty at the end of the text only. -/
  content : List Char
  /-- Byte offset of the content. -/
  start : Nat
  /-- The trivia after the content, up to the next line end. -/
  trailing : List Trivia
  deriving DecidableEq, Repr

namespace Token

/-- The characters of the token, trivia included. -/
def chars (t : Token) : List Char :=
  Trivia.chars t.leading ++ t.content ++ Trivia.chars t.trailing

/-- Where the content stands. -/
def contentSpan (t : Token) : Text.Span := .ofWidth t.start (Text.byteLength t.content)

/-- Where the token with its trivia stands. -/
def fullSpan (t : Token) : Text.Span :=
  ⟨t.start - Text.byteLength (Trivia.chars t.leading),
    t.start + Text.byteLength t.content + Text.byteLength (Trivia.chars t.trailing)⟩

/-- The pieces of the leading trivia. -/
def leadingPieces (t : Token) : List TriviaPiece := t.leading.map Trivia.piece

/-- The pieces of the trailing trivia. -/
def trailingPieces (t : Token) : List TriviaPiece := t.trailing.map Trivia.piece

end Token

/-- All tokens of a text: those with content in order, then the end of the text. -/
structure TokenStream where
  /-- The tokens with content. -/
  tokens : List Token
  /-- The end-of-file token. -/
  eof : Token
  deriving DecidableEq, Repr

/-- The tokens of a stream in order, the end of the text last. -/
def TokenStream.toList (s : TokenStream) : List Token := s.tokens ++ [s.eof]

end Verbatim
