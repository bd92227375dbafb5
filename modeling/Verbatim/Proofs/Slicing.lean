import Verbatim.Proofs.Lexing
import Verbatim.Proofs.Sketch

/-!
# Cutting tokens out of their text

A token says where it stands: its content starts at an offset, and its trivia has so many bytes
before and after it. For the tokens that are read from a text all of this is so, piece by piece.
Pieces that stand next to each other are cut out as one, so the whole token can be cut out of the
text, which is what the tree of the text is built from.
-/

namespace Verbatim

namespace Text

variable {text part : String} {start middle stop : Nat}

/-- What stands between two parts of a text can be cut out. -/
theorem slice?_append {x y z : List Char} (h : text.toList = x ++ (y ++ z)) :
    slice? text (byteLength x) (byteLength x + byteLength y) = some (String.ofList y) := by
  simp only [slice?, h, splitBytes?_byteLength, Nat.add_sub_cancel_left, Option.bind_eq_bind,
    Option.bind_some, Option.pure_def]

/-- What is cut out of a text stands in it between the two offsets. -/
theorem exists_of_slice?_eq_some (h : slice? text start stop = some part) (hle : start ≤ stop) :
    ∃ before after, text.toList = before ++ (part.toList ++ after) ∧
      byteLength before = start ∧ start + byteLength part.toList = stop := by
  obtain ⟨⟨before, rest⟩, hfirst, h⟩ := Option.bind_eq_some_iff.mp h
  obtain ⟨⟨middle, after⟩, hsecond, h⟩ := Option.bind_eq_some_iff.mp h
  obtain rfl := Option.some.inj h
  obtain ⟨happend, hbefore⟩ := splitBytes?_eq_some hfirst
  obtain ⟨hrest, hmiddle⟩ := splitBytes?_eq_some hsecond
  refine ⟨before, after, ?_, hbefore, ?_⟩
  · rw [String.toList_ofList, hrest, happend]
  · rw [String.toList_ofList, hmiddle]
    omega

/-- Two parts of a text that meet are cut out together. -/
theorem slice?_trans {x y : List Char} (hx : slice? text start middle = some (String.ofList x))
    (hy : slice? text middle stop = some (String.ofList y)) (hstart : start ≤ middle)
    (hstop : middle ≤ stop) : slice? text start stop = some (String.ofList (x ++ y)) := by
  obtain ⟨before, rest, htext, rfl, rfl⟩ := exists_of_slice?_eq_some hx hstart
  obtain ⟨front, after, htext', hfront, rfl⟩ := exists_of_slice?_eq_some hy hstop
  rw [String.toList_ofList] at htext htext' hfront ⊢
  rw [String.toList_ofList]
  -- both cuts split the text after the same number of bytes
  have hcut : some (before ++ x, rest) = some (front, y ++ after) := by
    rw [← splitBytes?_byteLength, ← splitBytes?_byteLength, hfront, byteLength_append,
      List.append_assoc, ← htext, htext']
  obtain ⟨-, rfl⟩ := Prod.mk.inj (Option.some.inj hcut)
  have hslice := @slice?_append text before (x ++ y) after (by rw [htext, List.append_assoc])
  rwa [byteLength_append, ← Nat.add_assoc] at hslice

end Text

/-- Pieces of trivia fill what lies between two offsets of a text: each can be cut out of the text
where the one before it ends. -/
def Trivia.Fill (text : String) (start : Nat) : List Trivia → Nat → Prop
  | [], stop => start = stop
  | piece :: rest, stop =>
    Text.slice? text start (start + piece.piece.length) = some (String.ofList piece.text) ∧
      Fill text (start + piece.piece.length) rest stop

/-- A token stands in a text where its spans and the lengths of its trivia say. -/
structure Token.Placed (text : String) (t : Token) : Prop where
  leading : Trivia.Fill text t.fullSpan.start t.leading t.contentSpan.start
  content : Text.slice? text t.contentSpan.start t.contentSpan.stop =
    some (String.ofList t.content)
  trailing : Trivia.Fill text t.contentSpan.stop t.trailing t.fullSpan.stop
  leading_total : t.fullSpan.start + TriviaPiece.total t.leadingPieces = t.contentSpan.start
  trailing_total : t.contentSpan.stop + TriviaPiece.total t.trailingPieces = t.fullSpan.stop

namespace Trivia

variable {text : String} {start stop : Nat} {pieces : List Trivia}

/-- Pieces fill the part of a text that they spell. -/
theorem fill_of_append {x z : List Char} (h : text.toList = x ++ (chars pieces ++ z)) :
    Fill text (Text.byteLength x) pieces (Text.byteLength (x ++ chars pieces)) := by
  induction pieces generalizing x with
  | nil => simp [Fill, chars]
  | cons p pieces ih =>
    have hchars : text.toList = x ++ (p.text ++ (chars pieces ++ z)) := by
      rw [h, chars, List.flatMap_cons, List.append_assoc, chars]
    have htail := @ih (x ++ p.text) (by rw [hchars, List.append_assoc])
    refine ⟨Text.slice?_append hchars, ?_⟩
    simpa [piece, chars, Nat.add_assoc] using htail

theorem Fill.le (h : Fill text start pieces stop) : start ≤ stop := by
  induction pieces generalizing start with
  | nil => exact Nat.le_of_eq h
  | cons p pieces ih => exact Nat.le_trans (Nat.le_add_right _ _) (ih h.2)

/-- Pieces that fill what lies before a part of a text are cut out together with it. -/
theorem Fill.slice?_before {x : List Char} {middle : Nat} (h : Fill text start pieces middle)
    (hx : Text.slice? text middle stop = some (String.ofList x)) (hle : middle ≤ stop) :
    Text.slice? text start stop = some (String.ofList (chars pieces ++ x)) := by
  induction pieces generalizing start with
  | nil =>
    obtain rfl : start = middle := h
    exact hx
  | cons p pieces ih =>
    obtain ⟨hp, hrest⟩ := h
    have hall := Text.slice?_trans hp (ih hrest) (Nat.le_add_right _ _)
      (Nat.le_trans hrest.le hle)
    rw [← List.append_assoc] at hall
    exact hall

/-- Pieces that fill what lies after a part of a text are cut out together with it. -/
theorem Fill.slice?_after {x : List Char} {middle : Nat} (h : Fill text middle pieces stop)
    (hx : Text.slice? text start middle = some (String.ofList x)) (hle : start ≤ middle) :
    Text.slice? text start stop = some (String.ofList (x ++ chars pieces)) := by
  induction pieces generalizing x middle with
  | nil =>
    obtain rfl : middle = stop := h
    simpa [chars] using hx
  | cons p pieces ih =>
    obtain ⟨hp, hrest⟩ := h
    have hall := ih hrest (Text.slice?_trans hx hp hle (Nat.le_add_right _ _))
      (Nat.le_trans hle (Nat.le_add_right _ _))
    rw [List.append_assoc] at hall
    exact hall

end Trivia

namespace Token

variable {text : String} {t : Token}

/-- The pieces that a store keeps of some trivia are as wide as the trivia. -/
theorem total_pieces (pieces : List Trivia) :
    TriviaPiece.total (pieces.map Trivia.piece) = Text.byteLength (Trivia.chars pieces) := by
  induction pieces with
  | nil => rfl
  | cons p pieces ih =>
    simp only [TriviaPiece.total, Trivia.chars, List.map_cons, sumOf_cons, List.flatMap_cons,
      Text.byteLength_append] at ih ⊢
    rw [ih]
    rfl

/-- A token stands in a text where its characters do. -/
theorem placed_of_append {before after : List Char}
    (htext : text.toList = before ++ (t.chars ++ after))
    (hspan : t.fullSpan = ⟨Text.byteLength before, Text.byteLength (before ++ t.chars)⟩)
    (hstart : t.start = Text.byteLength (before ++ Trivia.chars t.leading)) : t.Placed text := by
  have hfull : text.toList = before ++ (Trivia.chars t.leading ++
      (t.content ++ (Trivia.chars t.trailing ++ after))) := by
    rw [htext, chars]
    simp only [List.append_assoc]
  have hcontent : text.toList =
      (before ++ Trivia.chars t.leading) ++ (t.content ++ (Trivia.chars t.trailing ++ after)) := by
    rw [hfull, List.append_assoc]
  have htrailing : text.toList =
      (before ++ Trivia.chars t.leading ++ t.content) ++ (Trivia.chars t.trailing ++ after) := by
    rw [hcontent, List.append_assoc _ t.content]
  have hstop : t.contentSpan.stop =
      Text.byteLength (before ++ Trivia.chars t.leading ++ t.content) := by
    rw [contentSpan, Text.Span.stop_ofWidth, hstart, ← Text.byteLength_append]
  refine ⟨?_, ?_, ?_, ?_, ?_⟩
  · rw [hspan, contentSpan, Text.Span.start_ofWidth, hstart]
    exact Trivia.fill_of_append hfull
  · rw [contentSpan, Text.Span.stop_ofWidth, Text.Span.start_ofWidth, hstart]
    exact Text.slice?_append hcontent
  · rw [hspan, hstop]
    simpa [chars] using Trivia.fill_of_append htrailing
  · rw [hspan, contentSpan, Text.Span.start_ofWidth, hstart, leadingPieces, total_pieces]
    exact (Text.byteLength_append ..).symm
  · rw [hspan, hstop, trailingPieces, total_pieces, chars]
    simp only [Text.byteLength_append, Nat.add_assoc]

/-- A token that stands in a text is cut out of it whole. -/
theorem Placed.slice?_fullSpan (h : t.Placed text) :
    Text.slice? text t.fullSpan.start t.fullSpan.stop = some (String.ofList t.chars) := by
  have hle : t.contentSpan.start ≤ t.contentSpan.stop := Nat.le_add_right _ _
  exact h.trailing.slice?_after (h.leading.slice?_before h.content hle)
    (Nat.le_trans h.leading.le hle)

/-- The build step of a token that stands in a text succeeds: it holds what the token carries. -/
theorem Placed.tokenStep_eq (h : t.Placed text) : Event.tokenStep text t = .ok t.step := by
  have hle : ¬ t.start < TriviaPiece.total t.leadingPieces :=
    Nat.not_lt_of_le (Nat.le_trans (Nat.le_add_left ..) (Nat.le_of_eq h.leading_total))
  rw [Event.tokenStep, if_neg hle, Text.Span.cut_eq_ok h.slice?_fullSpan]
  rfl

end Token

namespace Lexer

/-- A token that is read starts where the lexer is, and ends where the lexer gets. -/
theorem fullSpan_next (l : Lexer) : l.next.1.fullSpan = ⟨l.offset, l.next.2.offset⟩ := by
  cases hc : content? (takeTrivia true l.rest).2 <;> simp [next, hc, Token.fullSpan, Trivia.chars]

theorem start_next (l : Lexer) :
    l.next.1.start = l.offset + Text.byteLength (Trivia.chars l.next.1.leading) := by
  cases hc : content? (takeTrivia true l.rest).2 <;> simp [next, hc]

variable {l : Lexer} {text : String} {before : List Char}

/-- A token that is read from a text stands in it. -/
theorem placed_next (htext : text.toList = before ++ l.rest)
    (hoffset : l.offset = Text.byteLength before) : l.next.1.Placed text := by
  apply Token.placed_of_append
  · rw [htext, ← l.chars_next]
  · rw [l.fullSpan_next, l.offset_next, hoffset, Text.byteLength_append]
  · rw [l.start_next, hoffset, Text.byteLength_append]

/-- Every token that is read up to the end of a text stands in it. -/
theorem placed_of_mem_drain (htext : text.toList = before ++ l.rest)
    (hoffset : l.offset = Text.byteLength before) : ∀ t ∈ l.drain.1.toList, t.Placed text := by
  fun_induction drain l generalizing before with
  | case1 l heof =>
    intro t ht
    obtain rfl := List.mem_singleton.mp ht
    exact placed_next htext hoffset
  | case2 l _ _ stream last hdrain ih =>
    have htext' : text.toList = (before ++ l.next.1.chars) ++ l.next.2.rest := by
      rw [htext, List.append_assoc, l.chars_next]
    have hoffset' : l.next.2.offset = Text.byteLength (before ++ l.next.1.chars) := by
      rw [offset_next, hoffset, Text.byteLength_append]
    have hrest := ih htext' hoffset'
    rw [hdrain] at hrest
    intro t ht
    rcases List.mem_cons.mp ht with rfl | ht
    · exact placed_next htext hoffset
    · exact hrest t ht

end Lexer

/-- Every token of a text stands in it. -/
theorem placed_of_mem_tokenize (text : String) : ∀ t ∈ (tokenize text).toList, t.Placed text :=
  @Lexer.placed_of_mem_drain (Lexer.ofText text) text [] rfl rfl

end Verbatim
