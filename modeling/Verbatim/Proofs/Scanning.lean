import Verbatim.Proofs.Slicing
import Verbatim.Token.Cursor

/-!
# What a scanner hands on

A scanner hands on the tokens that the lexer reads. What it counts back from the bytes that are left
is where the lexer is, its one list of pieces is cut where the content stood, and the word that
decides between a keyword and a name is the one that was just read. None of its checks ever fails.
-/

namespace Verbatim

/-- A token without its characters. -/
def Token.raw (t : Token) : RawToken := ⟨t.leadingPieces, t.kind, t.contentSpan, t.trailingPieces⟩

namespace Cursor

/-- The cursor before some characters, just reset. -/
def fresh (rest : List Char) : Cursor := ⟨rest, Text.byteLength rest⟩

theorem reset_fresh (rest : List Char) : (fresh rest).reset = fresh rest := rfl

theorem taken_eq (word rest : List Char) :
    taken ⟨rest, Text.byteLength (word ++ rest)⟩ = .ok (Text.byteLength word) := by
  have hle : ¬Text.byteLength (word ++ rest) < Text.byteLength rest := by
    rw [Text.byteLength_append]
    omega
  rw [taken, left, if_neg hle, Text.byteLength_append, Nat.add_sub_cancel]

end Cursor

namespace Scanner

variable {s : Scanner} {before word rest : List Char}

theorem trivia_of_none {trailing : Bool} (h : s.cursor.trivia? trailing = none) :
    s.trivia trailing = .ok s := by
  rw [trivia]
  split
  · rfl
  next hsome => cases h.symm.trans hsome

theorem trivia_of_some {trailing : Bool} {kind : TriviaKind} {cursor : Cursor} {length : Nat}
    (h : s.cursor.trivia? trailing = some (kind, cursor)) (hlength : cursor.taken = .ok length) :
    s.trivia trailing =
      trivia trailing
        { s with cursor := cursor.reset, pieces := s.pieces ++ [⟨kind, length⟩] } := by
  rw [trivia]
  split
  next hnone => cases h.symm.trans hnone
  next hsome =>
    cases h.symm.trans hsome
    rw [hlength]

/-- Trivia is read as the lexer takes it, and what is kept of it goes to the end of the list. -/
theorem trivia_eq (trailing : Bool) (h : s.cursor = .fresh rest) :
    s.trivia trailing =
      .ok { s with
        cursor := .fresh (Lexer.takeTrivia (!trailing) rest).2
        pieces := s.pieces ++ (Lexer.takeTrivia (!trailing) rest).1.map Trivia.piece } := by
  have hcursor := (congrArg _ h).trans (Cursor.trivia?_eq trailing rest _)
  fun_induction Lexer.takeTrivia (!trailing) rest generalizing s with
  | case1 rest hnone =>
    rw [hnone] at hcursor
    rw [trivia_of_none hcursor, List.map_nil, List.append_nil, ← h]
  | case2 rest t after hsome _ ts last htake ih =>
    rw [hsome] at hcursor
    obtain ⟨happend, -⟩ := Lexer.trivia?_eq_some hsome
    have hlength : Cursor.taken ⟨after, Text.byteLength rest⟩ = .ok (Text.byteLength t.text) := by
      rw [← happend, Cursor.taken_eq]
    rw [trivia_of_some hcursor hlength, ih rfl (Cursor.trivia?_eq ..), htake,
      List.map_cons, List.append_assoc]
    rfl

/-- The span of what was read since the last reset is counted back from the bytes that are left. -/
theorem span_eq (htext : s.text.toList = before ++ (word ++ rest))
    (h : s.cursor = ⟨rest, Text.byteLength (word ++ rest)⟩) :
    s.span = .ok (.ofWidth (Text.byteLength before) (Text.byteLength word)) := by
  have hsize : s.text.utf8ByteSize =
      Text.byteLength before + (Text.byteLength word + Text.byteLength rest) := by
    rw [← Text.byteLength_toList, htext, Text.byteLength_append, Text.byteLength_append]
  have hoffset : s.offset = .ok (Text.byteLength before + Text.byteLength word) := by
    rw [offset, hsize, h, Cursor.left, if_neg (by dsimp only; omega)]
    congr 1
    dsimp only
    omega
  rw [span, h, Cursor.taken_eq, hoffset]
  change (if _ then _ else _) = _
  rw [if_neg (by omega), Nat.add_sub_cancel]
  rfl

/-- The word that was read since the last reset can be cut out of the text. -/
theorem word_eq (htext : s.text.toList = before ++ (word ++ rest))
    (h : s.cursor = ⟨rest, Text.byteLength (word ++ rest)⟩) :
    s.word = .ok (String.ofList word) := by
  rw [Scanner.word, span_eq htext h]
  exact Text.Span.cut_eq_ok (Text.slice?_append htext)

/-- There is no content at the end of the text. -/
theorem content_of_none (h : s.cursor = .fresh rest) (hcontent : Lexer.content? rest = none) :
    s.content = .ok (.eof, s) := by
  rw [Lexer.content?_eq_none hcontent] at h
  rw [content, h]
  rfl

/-- A name is read to its end, and then cut out of the text to see whether it is a keyword. -/
theorem contentFrom_name {x : Char} {cs : List Char} (htext : s.text.toList = before ++ x :: cs)
    (hminus : x ≠ '-') (hdigit : ¬ x.isDigit = true) (hname : Lexer.isNameStart x = true) :
    contentFrom x (s.move ⟨cs, Text.byteLength (x :: cs)⟩) =
      .ok (Lexer.wordKind (x :: cs.takeWhile Lexer.isNamePart),
        s.move ⟨cs.dropWhile Lexer.isNamePart, Text.byteLength (x :: cs)⟩) := by
  have happend : (x :: cs.takeWhile Lexer.isNamePart) ++ cs.dropWhile Lexer.isNamePart =
      x :: cs := by
    rw [List.cons_append, List.takeWhile_append_dropWhile]
  rw [← happend] at htext
  have hword := @word_eq (s.move ⟨_, Text.byteLength (x :: cs)⟩) _ _ _ htext
    (by rw [happend, cursor_move])
  rw [contentFrom, if_neg (by simpa using hminus), if_neg hdigit, if_pos hname, cursor_move,
    Cursor.advanceWhile_eq, move_move]
  change Scanner.word (s.move _) >>= _ = _
  rw [hword]
  change Except.ok (Lexer.wordKind (String.ofList _).toList, _) = _
  rw [String.toList_ofList]

/-- Content is read as the lexer reads it. -/
theorem content_of_some {kind : Kind} {after : List Char}
    (htext : s.text.toList = before ++ rest) (h : s.cursor = .fresh rest)
    (hcontent : Lexer.content? rest = some (kind, word, after)) :
    s.content = .ok (kind, s.move ⟨after, Text.byteLength rest⟩) := by
  unfold Lexer.content? at hcontent
  split at hcontent
  case h_1 => cases hcontent
  case h_2 cs =>
    cases hcontent
    rw [content, h]
    rfl
  case h_3 x cs hne =>
    rw [content, h]
    change contentFrom x (s.move ⟨cs, Text.byteLength (x :: cs)⟩) = _
    by_cases hminus : x = '-'
    · subst hminus
      cases hcontent
      rw [contentFrom, if_pos (beq_self_eq_true '-'), cursor_move, Cursor.eat_of_ne (hne · rfl)]
      rfl
    · split at hcontent
      next hdigit =>
        cases hcontent
        rw [contentFrom, if_neg (by simpa using hminus), if_pos hdigit, cursor_move,
          Cursor.advanceWhile_eq, move_move]
      next hdigit =>
        split at hcontent
        next hname =>
          cases hcontent
          exact contentFrom_name htext hminus hdigit hname
        next hname =>
          cases hcontent
          rw [contentFrom, if_neg (by simpa using hminus), if_neg hdigit, if_neg hname]

/-- A token is put together from its four parts. -/
theorem next_of_ok {s₁ s₂ s₃ : Scanner} {kind : Kind} {span : Text.Span}
    (hleading : s.trivia false = .ok s₁) (hcontent : s₁.content = .ok (kind, s₂))
    (hspan : s₂.span = .ok span)
    (htrailing : triviaAfter kind (s₂.move s₂.cursor.reset) = .ok s₃) :
    s.next = .ok (s₃.current,
      { s₃ with
        current := ⟨s₃.pieces.take s₁.pieces.length, kind, span, s₃.pieces.drop s₁.pieces.length⟩
        pieces := [] }) := by
  rw [next, hleading]
  change s₁.content >>= _ = _
  rw [hcontent]
  change s₂.span >>= _ = _
  rw [hspan]
  change triviaAfter kind (s₂.move s₂.cursor.reset) >>= _ = _
  rw [htrailing]
  rfl

/-- The next token is the one that the lexer reads, and the scanner gets where the lexer gets. -/
theorem next_eq {l : Lexer} (htext : s.text.toList = before ++ l.rest)
    (hoffset : l.offset = Text.byteLength before) (h : s.cursor = .fresh l.rest)
    (hpieces : s.pieces = []) :
    s.next = .ok (s.current,
      { s with cursor := .fresh l.next.2.rest, current := l.next.1.raw }) := by
  have hchars := Lexer.chars_takeTrivia true l.rest
  have htrivia := trivia_eq false h
  rw [Bool.not_false] at htrivia
  rw [Lexer.next]
  rcases htake : Lexer.takeTrivia true l.rest with ⟨leading, body⟩
  rw [htake] at hchars htrivia
  have hplace : s.text.toList = (before ++ Trivia.chars leading) ++ body := by
    rw [htext, List.append_assoc, hchars]
  cases hcontent : Lexer.content? body with
  | none =>
    obtain rfl := Lexer.content?_eq_none hcontent
    refine (next_of_ok htrivia (content_of_none rfl hcontent)
      (@span_eq _ _ [] [] hplace rfl) rfl).trans ?_
    simp [hpieces, hoffset, move, Cursor.reset_fresh, Token.raw, Token.leadingPieces,
      Token.trailingPieces, Token.contentSpan, List.take_of_length_le]
  | some found =>
    obtain ⟨kind, word, after⟩ := found
    obtain ⟨happend, -⟩ := Lexer.content?_eq_some hcontent
    obtain ⟨-, hkind⟩ := Lexer.kind_of_content? hcontent
    have hspan := @span_eq (Scanner.move { s with
      pieces := s.pieces ++ leading.map Trivia.piece } ⟨after, Text.byteLength body⟩) _ word after
      (happend ▸ hplace) (by rw [happend, cursor_move])
    refine (next_of_ok htrivia (content_of_some hplace rfl hcontent) hspan
      ((if_neg hkind).trans (trivia_eq true rfl))).trans ?_
    simp [hpieces, hoffset, move, Token.raw, Token.leadingPieces,
      Token.trailingPieces, Token.contentSpan]

/-- The scanner that is one token ahead of a lexer. -/
def ahead (text : String) (l : Lexer) : Scanner :=
  { text, cursor := .fresh l.next.2.rest, current := l.next.1.raw }

/-- A scanner that is one token ahead of a lexer hands on what the lexer reads, and stays one token
ahead of it. -/
theorem next_ahead {text : String} {l : Lexer} (htext : text.toList = before ++ l.rest)
    (hoffset : l.offset = Text.byteLength before) :
    (ahead text l).next = .ok (l.next.1.raw, ahead text l.next.2) := by
  refine @next_eq (ahead text l) (before ++ l.next.1.chars) l.next.2 ?_ ?_ rfl rfl
  · rw [List.append_assoc, l.chars_next]
    exact htext
  · rw [l.offset_next, hoffset, Text.byteLength_append]

/-- However many tokens are handed on, they are those that the lexer reads. -/
theorem take_ahead {text : String} {l : Lexer} (htext : text.toList = before ++ l.rest)
    (hoffset : l.offset = Text.byteLength before) (n : Nat) :
    (ahead text l).take n = .ok ((l.take n).map Token.raw) := by
  induction n generalizing before l with
  | zero => rfl
  | succ n ih =>
    have hrest := @ih (before ++ l.next.1.chars) l.next.2
      (by rw [List.append_assoc, l.chars_next, htext])
      (by rw [l.offset_next, hoffset, Text.byteLength_append])
    rw [take, next_ahead htext hoffset]
    change take n (ahead text l.next.2) >>= _ = _
    rw [hrest]
    rfl

/-- The scanner of a text starts one token ahead of the lexer of the text, unless the text is too
long. -/
theorem ofText_eq (text : String) :
    ofText text =
      if text.utf8ByteSize < Width.limit then .ok (ahead text (.ofText text))
      else .error .textTooLong := by
  have hfirst := @next_eq { text, cursor := .ofText text } [] (.ofText text) rfl rfl
    (by rw [Cursor.ofText, Cursor.fresh, ← Text.byteLength_toList]; rfl) rfl
  rw [ofText, hfirst]
  rfl

end Scanner

/-- What a scanner hands on of a text is what the lexer reads of it, up to any number of tokens, and
every text whose bytes can be counted is read. -/
theorem scan_eq_lex {text : String} (h : text.utf8ByteSize < Width.limit) (n : Nat) :
    (do (← Scanner.ofText text).take n) = .ok (((Lexer.ofText text).take n).map Token.raw) := by
  rw [Scanner.ofText_eq, if_pos h]
  exact @Scanner.take_ahead [] text (.ofText text) rfl rfl n

end Verbatim
