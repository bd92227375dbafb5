import Verbatim.Token.Lexer
import Verbatim.Width

/-!
# Reading tokens with a cursor

The lexer needs less at hand than the characters that it has read. A cursor keeps those still to be
read and how many bytes were left when it was last reset, so what was read since is a difference.
A scanner keeps the pieces of trivia of a token in one list, with the index at which those after the
content start, and is always one token ahead.
-/

namespace Verbatim

/-- A place in a text. -/
structure Cursor where
  /-- The characters still to be read. -/
  rest : List Char
  /-- Number of bytes that were left at the last reset. -/
  mark : Nat

namespace Cursor

/-- The cursor at the start of a text. -/
def ofText (text : String) : Cursor := ⟨text.toList, text.utf8ByteSize⟩

/-- Number of bytes left. -/
def left (c : Cursor) : Nat := Text.byteLength c.rest

/-- Whether the text is read to its end. -/
def isDone (c : Cursor) : Bool := c.rest.isEmpty

/-- Number of bytes read since the last reset. -/
def taken (c : Cursor) : Except Fault Nat :=
  if c.mark < c.left then .error .positionUnderflow else .ok (c.mark - c.left)

/-- Starts to count anew. -/
def reset (c : Cursor) : Cursor := { c with mark := c.left }

/-- The next character. Past the end this is NUL, which may stand in a text as well. -/
def peek (c : Cursor) : Char := c.rest.headD '\x00'

/-- The character after the next one. -/
def second (c : Cursor) : Char := (c.rest.drop 1).headD '\x00'

/-- Reads a character, if there is one. -/
def advance (c : Cursor) : Option Char × Cursor := (c.rest.head?, { c with rest := c.rest.tail })

/-- Reads the next character if it is the given one, and tells whether it is. -/
def eat (c : Cursor) (wanted : Char) : Bool × Cursor :=
  if !c.isDone && c.peek == wanted then (true, c.advance.2) else (false, c)

/-- Nothing is read where another character stands. -/
theorem eat_of_ne {rest : List Char} {wanted : Char} (h : ∀ cs, rest ≠ wanted :: cs) (mark : Nat) :
    eat ⟨rest, mark⟩ wanted = (false, ⟨rest, mark⟩) := by
  cases rest with
  | nil => rfl
  | cons x rest =>
    have hx : x ≠ wanted := fun hx => h rest (hx ▸ rfl)
    simp [eat, isDone, peek, hx]

/-- Reads characters as long as they satisfy a condition. -/
def advanceWhile (p : Char → Bool) (c : Cursor) : Cursor :=
  if h : (!c.isDone && p c.peek) = true then
    have : c.rest.tail.length < c.rest.length := by
      cases hrest : c.rest <;> simp [isDone, hrest] at h ⊢
    advanceWhile p c.advance.2
  else c
termination_by c.rest.length

/-- Characters are read up to the first that does not satisfy the condition. -/
theorem advanceWhile_eq (p : Char → Bool) (rest : List Char) (mark : Nat) :
    advanceWhile p ⟨rest, mark⟩ = ⟨rest.dropWhile p, mark⟩ := by
  induction rest with
  | nil =>
    rw [advanceWhile]
    rfl
  | cons x rest ih =>
    rw [advanceWhile, List.dropWhile_cons]
    cases hx : p x with
    | true => exact (dif_pos hx).trans ih
    | false => exact dif_neg (hx ▸ Bool.false_ne_true)

/-- The piece of trivia at the cursor, if there is one, read. Line ends count as trivia only before
the content of a token. -/
def trivia? (trailing : Bool) (c : Cursor) : Option (TriviaKind × Cursor) :=
  if c.isDone then none
  else if c.peek == '/' && c.second == '/' then
    some (.comment, c.advanceWhile fun x => !Text.isLineEnd x)
  else if c.peek == '\n' then
    if trailing then none else some (.newline, c.advance.2)
  else if c.peek == '\r' then
    if trailing then none else some (.newline, (c.advance.2.eat '\n').2)
  else if Text.isBlank c.peek then some (.whitespace, c.advanceWhile Text.isBlank)
  else none

/-- A cursor reads the trivia that the lexer takes. -/
theorem trivia?_eq (trailing : Bool) (rest : List Char) (mark : Nat) :
    trivia? trailing ⟨rest, mark⟩ =
      (Lexer.trivia? (!trailing) rest).map fun found => (found.1.kind, ⟨found.2, mark⟩) := by
  unfold Lexer.trivia?
  split
  case h_1 => rfl
  case h_2 => simp [trivia?, advanceWhile_eq, isDone, peek, second, Text.isLineEnd]
  case h_3 => cases trailing <;> rfl
  case h_4 => cases trailing <;> rfl
  case h_5 cs hcs =>
    cases trailing with
    | true => rfl
    | false =>
      have heat := eat_of_ne hcs mark
      simp [trivia?, isDone, peek, second, advance, heat]
  case h_6 x cs hslash hline _ hreturn =>
    have hcomment : ¬(x = '/' ∧ (cs.headD '\x00') = '/') := by
      rintro ⟨rfl, hcs⟩
      cases cs with
      | nil => cases hcs
      | cons y cs => exact hslash cs rfl (hcs ▸ rfl)
    have hpeek : peek ⟨x :: cs, mark⟩ = x := rfl
    have hsecond : second ⟨x :: cs, mark⟩ = cs.headD '\x00' := rfl
    rw [trivia?, hpeek, hsecond, if_neg (by simp [isDone]), if_neg (by simpa using hcomment),
      if_neg (by simpa using hline), if_neg (by simpa using hreturn), advanceWhile_eq]
    cases hblank : Text.isBlank x <;> simp [hblank]

end Cursor

/-- A token as it is handed on: where its content stands, but not its characters. -/
structure RawToken where
  /-- The pieces of trivia before the content. -/
  leading : List TriviaPiece
  /-- What the content is. -/
  kind : Kind
  /-- Where the content stands. -/
  span : Text.Span
  /-- The pieces of trivia after the content. -/
  trailing : List TriviaPiece
  deriving DecidableEq, Repr

/-- Reads the tokens of a text, one ahead. -/
structure Scanner where
  /-- The whole text. -/
  text : String
  /-- What is still to be read of it. -/
  cursor : Cursor
  /-- The token that was read last and not handed on yet. -/
  current : RawToken := ⟨[], .eof, .emptyAt 0, []⟩
  /-- The pieces of trivia of the token that is being read. -/
  pieces : List TriviaPiece := []

namespace Scanner

/-- The offset of the cursor. -/
def offset (s : Scanner) : Except Fault Nat :=
  if s.text.utf8ByteSize < s.cursor.left then .error .positionUnderflow
  else .ok (s.text.utf8ByteSize - s.cursor.left)

/-- Where the characters stand that were read since the last reset. -/
def span (s : Scanner) : Except Fault Text.Span := do
  let width ← s.cursor.taken
  let offset ← s.offset
  if offset < width then throw .positionUnderflow
  return .ofWidth (offset - width) width

/-- The characters that were read since the last reset, cut out of the text. -/
def word (s : Scanner) : Except Fault String := do (← s.span).cut s.text

/-- Reads trivia, piece by piece. -/
def trivia (trailing : Bool) (s : Scanner) : Except Fault Scanner :=
  match h : s.cursor.trivia? trailing with
  | none => .ok s
  | some (kind, cursor) =>
    have : cursor.rest.length < s.cursor.rest.length := by
      obtain ⟨found, hfound, heq⟩ := Option.map_eq_some_iff.mp ((Cursor.trivia?_eq ..).symm.trans h)
      cases heq
      exact Lexer.length_lt_of_trivia? hfound
    match cursor.taken with
    | .ok length =>
      trivia trailing { s with cursor := cursor.reset, pieces := s.pieces ++ [⟨kind, length⟩] }
    | .error fault => .error fault
termination_by s.cursor.rest.length

/-- The scanner with its cursor elsewhere. -/
def move (s : Scanner) (cursor : Cursor) : Scanner := { s with cursor }

@[simp] theorem cursor_move (s : Scanner) (c : Cursor) : (s.move c).cursor = c := rfl

@[simp] theorem move_move (s : Scanner) (c d : Cursor) : (s.move c).move d = s.move d := rfl

/-- Reads the rest of a content that starts with a character, and tells what it is. -/
def contentFrom (x : Char) (s : Scanner) : Except Fault (Kind × Scanner) :=
  if x == '-' then
    let (found, cursor) := s.cursor.eat '>'
    .ok (if found then .arrow else .minus, s.move cursor)
  else if x.isDigit then
    .ok (.intNumber, s.move (s.cursor.advanceWhile Lexer.isNumberPart))
  else if Lexer.isNameStart x then do
    let s := s.move (s.cursor.advanceWhile Lexer.isNamePart)
    return (Lexer.wordKind (← s.word).toList, s)
  else .ok (Lexer.characterKind x, s)

/-- Reads the content of a token and tells what it is. -/
def content (s : Scanner) : Except Fault (Kind × Scanner) :=
  match s.cursor.advance with
  | (none, _) => .ok (.eof, s)
  | (some x, cursor) => contentFrom x (s.move cursor)

/-- Reads the trivia after content of a kind; at the end of the text there is none. -/
def triviaAfter (kind : Kind) (s : Scanner) : Except Fault Scanner :=
  if kind = .eof then .ok s else s.trivia true

/-- Hands the current token on and reads the next one. -/
def next (s : Scanner) : Except Fault (RawToken × Scanner) := do
  let s ← s.trivia false
  let split := s.pieces.length
  let (kind, s) ← s.content
  let span ← s.span
  let s ← triviaAfter kind (s.move s.cursor.reset)
  let current := ⟨s.pieces.take split, kind, span, s.pieces.drop split⟩
  return (s.current, { s with current, pieces := [] })

/-- The scanner at the first token of a text, whose bytes must be countable. -/
def ofText (text : String) : Except Fault Scanner :=
  if text.utf8ByteSize < Width.limit then
    (next { text, cursor := .ofText text }).map fun (_, s) => s
  else .error .textTooLong

/-- Hands on the next `n` tokens. -/
def take : Nat → Scanner → Except Fault (List RawToken)
  | 0, _ => .ok []
  | n + 1, s => do
    let (token, s) ← s.next
    return token :: (← take n s)

end Scanner

end Verbatim
