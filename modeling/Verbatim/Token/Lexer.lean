import Verbatim.Token
import Verbatim.Text.Blank

/-!
# Reading tokens off a text

The lexer is a place in a text: the characters still to be read and the offset they start at. It
takes the longest piece that matches at each place. Every read that does not meet the end of the
text consumes at least one character, which is why reading to the end terminates.
-/

namespace Verbatim

namespace Lexer

/-- The piece of trivia at the front, if there is one, and what follows it. Line ends count as
trivia only where `lineEnds` says so. -/
def trivia? (lineEnds : Bool) : List Char → Option (Trivia × List Char)
  | [] => none
  | '/' :: '/' :: cs =>
    some (⟨.comment, '/' :: '/' :: cs.takeWhile fun c => !Text.isLineEnd c⟩,
      cs.dropWhile fun c => !Text.isLineEnd c)
  | '\n' :: cs => if lineEnds then some (⟨.newline, ['\n']⟩, cs) else none
  | '\r' :: '\n' :: cs => if lineEnds then some (⟨.newline, ['\r', '\n']⟩, cs) else none
  | '\r' :: cs => if lineEnds then some (⟨.newline, ['\r']⟩, cs) else none
  | c :: cs =>
    if Text.isBlank c then
      some (⟨.whitespace, c :: cs.takeWhile Text.isBlank⟩, cs.dropWhile Text.isBlank)
    else none

/-- A piece of trivia is cut off the front and is not empty. -/
theorem trivia?_eq_some {lineEnds : Bool} {cs rest : List Char} {t : Trivia}
    (h : trivia? lineEnds cs = some (t, rest)) : t.text ++ rest = cs ∧ t.text ≠ [] := by
  unfold trivia? at h
  split at h
  · cases h
  · cases h
    simp
  · split at h <;> cases h
    simp
  · split at h <;> cases h
    simp
  · split at h <;> cases h
    simp
  · split at h <;> cases h
    simp

/-- What is left after a piece of trivia is shorter. -/
theorem length_lt_of_trivia? {lineEnds : Bool} {cs rest : List Char} {t : Trivia}
    (h : trivia? lineEnds cs = some (t, rest)) : rest.length < cs.length := by
  obtain ⟨happ, hne⟩ := trivia?_eq_some h
  have hpos : 0 < t.text.length := List.length_pos_iff.mpr hne
  rw [← happ, List.length_append]
  omega

/-- All trivia at the front, and what follows it. -/
def takeTrivia (lineEnds : Bool) (cs : List Char) : List Trivia × List Char :=
  match h : trivia? lineEnds cs with
  | none => ([], cs)
  | some (t, rest) =>
    have : rest.length < cs.length := length_lt_of_trivia? h
    let (ts, last) := takeTrivia lineEnds rest
    (t :: ts, last)
termination_by cs.length

/-- Taking trivia loses nothing. -/
theorem chars_takeTrivia (lineEnds : Bool) (cs : List Char) :
    Trivia.chars (takeTrivia lineEnds cs).1 ++ (takeTrivia lineEnds cs).2 = cs := by
  fun_induction takeTrivia lineEnds cs with
  | case1 cs h => simp [Trivia.chars]
  | case2 cs t rest h _ ts last he ih =>
    rw [he] at ih
    obtain ⟨happ, -⟩ := trivia?_eq_some h
    rw [← happ, ← ih]
    simp [Trivia.chars]

/-- What is left after trivia is no longer than before. -/
theorem length_takeTrivia_le (lineEnds : Bool) (cs : List Char) :
    (takeTrivia lineEnds cs).2.length ≤ cs.length := by
  have h := congrArg List.length (chars_takeTrivia lineEnds cs)
  rw [List.length_append] at h
  omega

/-- Characters that may start a name. -/
def isNameStart (c : Char) : Bool := c.isAlpha || c == '_'

/-- Characters that may continue a name. -/
def isNamePart (c : Char) : Bool := c.isAlphanum || c == '_'

/-- Characters that may continue a number. -/
def isNumberPart (c : Char) : Bool := c.isDigit || c == '_'

/-- A word is a keyword or a name. -/
def wordKind (word : List Char) : Kind :=
  if word = ['f', 'u', 'n', 'c'] then .funcKw
  else if word = ['l', 'e', 't'] then .letKw
  else if word = ['r', 'e', 't', 'u', 'r', 'n'] then .returnKw
  else .ident

/-- The kind of a character that is a token by itself. -/
def characterKind : Char → Kind
  | '(' => .lParen
  | ')' => .rParen
  | '\x7b' => .lBrace
  | '\x7d' => .rBrace
  | ',' => .comma
  | ':' => .colon
  | '=' => .eq
  | '+' => .plus
  | '*' => .star
  | '/' => .slash
  | '-' => .minus
  | _ => .unknown

/-- The content at the front: its kind, its characters and what follows; none at the end. -/
def content? : List Char → Option (Kind × List Char × List Char)
  | [] => none
  | '-' :: '>' :: cs => some (.arrow, ['-', '>'], cs)
  | c :: cs =>
    if c.isDigit then
      some (.intNumber, c :: cs.takeWhile isNumberPart, cs.dropWhile isNumberPart)
    else if isNameStart c then
      some (wordKind (c :: cs.takeWhile isNamePart), c :: cs.takeWhile isNamePart,
        cs.dropWhile isNamePart)
    else some (characterKind c, [c], cs)

/-- Content is cut off the front and is not empty. -/
theorem content?_eq_some {cs word rest : List Char} {kind : Kind}
    (h : content? cs = some (kind, word, rest)) : word ++ rest = cs ∧ word ≠ [] := by
  unfold content? at h
  split at h
  · cases h
  · cases h
    simp
  · split at h
    · cases h
      simp
    · split at h <;> cases h <;> simp

end Lexer

/-- A place in a text from which tokens are read. -/
structure Lexer where
  /-- The characters still to be read. -/
  rest : List Char
  /-- The byte offset at which they start. -/
  offset : Nat

namespace Lexer

/-- The lexer at the start of a text. -/
def ofText (text : String) : Lexer := ⟨text.toList, 0⟩

/-- Reads one token. At the end of the text this is the end-of-file token, again and again. -/
def next (l : Lexer) : Token × Lexer :=
  let leading := takeTrivia true l.rest
  let start := l.offset + Text.byteLength (Trivia.chars leading.1)
  match content? leading.2 with
  | none => (⟨leading.1, .eof, [], start, []⟩, ⟨[], start⟩)
  | some (kind, content, after) =>
    let trailing := takeTrivia false after
    let stop := start + Text.byteLength content + Text.byteLength (Trivia.chars trailing.1)
    (⟨leading.1, kind, content, start, trailing.1⟩, ⟨trailing.2, stop⟩)

/-- A read that does not meet the end of the text consumes at least one character. -/
theorem length_next_lt (l : Lexer) (h : l.next.1.kind ≠ .eof) :
    l.next.2.rest.length < l.rest.length := by
  have hbody := length_takeTrivia_le true l.rest
  cases hc : content? (takeTrivia true l.rest).2 with
  | none => simp [next, hc] at h
  | some found =>
    obtain ⟨kind, content, after⟩ := found
    have hrest := length_takeTrivia_le false after
    obtain ⟨happ, hne⟩ := content?_eq_some hc
    have hlen := congrArg List.length happ
    have hpos : 0 < content.length := List.length_pos_iff.mpr hne
    rw [List.length_append] at hlen
    simp only [next, hc]
    omega

/-- Reads up to and including the first end-of-file token; also gives the place reached. -/
def drain (l : Lexer) : TokenStream × Lexer :=
  if h : l.next.1.kind = .eof then (⟨[], l.next.1⟩, l.next.2)
  else
    have : l.next.2.rest.length < l.rest.length := length_next_lt l h
    let (stream, last) := drain l.next.2
    (⟨l.next.1 :: stream.tokens, stream.eof⟩, last)
termination_by l.rest.length

/-- The next `n` tokens, whatever they are. -/
def take : Nat → Lexer → List Token
  | 0, _ => []
  | n + 1, l => l.next.1 :: take n l.next.2

end Lexer

/-- The tokens of a text. -/
def tokenize (text : String) : TokenStream := (Lexer.ofText text).drain.1

end Verbatim
