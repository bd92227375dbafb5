import Verbatim.Proofs.Lexical

/-!
# Reading from the boundary of a token

The lexer remembers nothing but its offset. So the tokens before a boundary are read in the same way
from a text that ends there, and the tokens behind it from a text that starts there, with all their
places moved.
-/

namespace Verbatim

namespace Token

/-- The token as it stands so many bytes further on. -/
def moved (k : Nat) (t : Token) : Token := { t with start := t.start + k }

/-- A token with content stays lexed when the text is cut off behind it. -/
theorem Lexed.of_shorter {before after more : List Char} {t : Token} (h : t.Lexed before more)
    (hkind : t.kind ≠ .eof) (hafter : after <+: more) : t.Lexed before after := by
  have htrailing : Trivia.chars t.trailing ++ after <+: Trivia.chars t.trailing ++ more :=
    (List.prefix_append_right_inj _).mpr hafter
  have hcontent := (List.prefix_append_right_inj t.content).mpr htrailing
  exact ⟨h.start_eq, h.leading.of_shorter hcontent, h.leading_stops.of_shorter hcontent,
    fun _ => (h.word hkind).of_shorter htrailing, fun heof => absurd heof hkind,
    h.trailing.of_shorter hafter, h.trailing_line, h.trailing_stops.of_shorter hafter⟩

end Token

/-- All tokens of a stream so many bytes further on. -/
def TokenStream.moved (k : Nat) (s : TokenStream) : TokenStream :=
  ⟨s.tokens.map (Token.moved k), s.eof.moved k⟩

namespace Lexer

open Lexical

/-- The lexer so many bytes further on. -/
def moved (k : Nat) (l : Lexer) : Lexer := ⟨l.rest, l.offset + k⟩

/-- What is read further on is what would be read here, moved. -/
theorem next_moved (k : Nat) (l : Lexer) :
    (l.moved k).next = (l.next.1.moved k, l.next.2.moved k) := by
  cases hc : content? (takeTrivia true l.rest).2 <;>
    simp [next, moved, Token.moved, hc, Nat.add_assoc, Nat.add_comm k]

theorem drain_moved (k : Nat) (l : Lexer) : (l.moved k).drain.1 = l.drain.1.moved k := by
  fun_induction drain l with
  | case1 l heof =>
    rw [drain, dif_pos (by rwa [next_moved])]
    simp [next_moved, TokenStream.moved]
  | case2 l hkind _ stream last hdrain ih =>
    rw [drain, dif_neg (by rwa [next_moved])]
    rw [hdrain] at ih
    simp [next_moved, ih, TokenStream.moved]

/-- A token with content is followed by what is read behind it. -/
theorem drain_of_next {l l' : Lexer} {t : Token} (h : l.next = (t, l')) (hkind : t.kind ≠ .eof) :
    l.drain.1 = ⟨t :: l'.drain.1.tokens, l'.drain.1.eof⟩ := by
  rw [drain]
  simp only [h, hkind, dite_false]

/-- The first token comes from the next read, and the others are read where that ends. -/
theorem of_tokens_drain {l : Lexer} {t : Token} {tokens : List Token}
    (h : l.drain.1.tokens = t :: tokens) :
    t.kind ≠ .eof ∧ l.next.1 = t ∧ l.next.2.drain.1 = ⟨tokens, l.drain.1.eof⟩ := by
  by_cases heof : l.next.1.kind = .eof
  · rw [drain, dif_pos heof] at h
    cases h
  · have hdrain := @drain_of_next l l.next.2 l.next.1 rfl heof
    rw [hdrain] at h ⊢
    obtain ⟨rfl, rfl⟩ := List.cons.inj h
    exact ⟨heof, rfl, rfl⟩

/-- The tokens behind a boundary are read from there. -/
theorem drain_behind {l : Lexer} {front back : List Token} (h : l.drain.1.tokens = front ++ back) :
    (drain ⟨(back ++ [l.drain.1.eof]).flatMap Token.chars,
      l.offset + Text.byteLength (front.flatMap Token.chars)⟩).1 = ⟨back, l.drain.1.eof⟩ := by
  induction front generalizing l with
  | nil =>
    have hchars := l.drain_spec.2.2
    rw [TokenStream.toList, h, List.nil_append] at hchars
    rw [hchars, ← List.nil_append back, ← h]
    rfl
  | cons t front ih =>
    obtain ⟨-, rfl, hrest⟩ := of_tokens_drain h
    have htail := @ih l.next.2 (congrArg TokenStream.tokens hrest)
    rw [hrest, l.offset_next] at htail
    simpa [Nat.add_assoc] using htail

/-- The tokens before a boundary are read in the same way when the text ends there. -/
theorem drain_until {l : Lexer} {before : List Char} (hoffset : l.offset = Text.byteLength before)
    (hseam : Seam before l.rest) {front back : List Token}
    (h : l.drain.1.tokens = front ++ back) :
    (drain ⟨front.flatMap Token.chars, l.offset⟩).1 =
      ⟨front, ⟨[], .eof, [], l.offset + Text.byteLength (front.flatMap Token.chars), []⟩⟩ := by
  induction front generalizing l before with
  | nil =>
    rw [List.flatMap_nil, drain, dif_pos (by rw [next_nil]), next_nil]
    rfl
  | cons t front ih =>
    obtain ⟨hkind, rfl, hrest⟩ := of_tokens_drain h
    obtain ⟨hlexed, hseam'⟩ := lexed_next hoffset hseam
    have hoffset' : l.next.2.offset = Text.byteLength (before ++ l.next.1.chars) := by
      rw [offset_next, hoffset, Text.byteLength_append]
    have hcut : front.flatMap Token.chars <+: l.next.2.rest := by
      rw [← l.next.2.drain_spec.2.2, TokenStream.toList, hrest]
      simp
    have hnext := next_of_lexed (hlexed.of_shorter hkind hcut)
    rw [← hoffset, ← hoffset'] at hnext
    have htokens := ih hoffset' hseam' (congrArg TokenStream.tokens hrest)
    rw [List.flatMap_cons, drain_of_next hnext hkind, htokens, l.offset_next,
      Text.byteLength_append, Nat.add_assoc]

end Lexer

/-- The tokens of a text before a boundary are the tokens of the text before it, and those behind it
are the tokens of the text behind it, moved by the length of the first. -/
theorem tokenize_cut {text first second : String} {front back : List Token}
    (h : (tokenize text).tokens = front ++ back) (hfirst : first.toList = front.flatMap Token.chars)
    (hsecond : second.toList = (back ++ [(tokenize text).eof]).flatMap Token.chars) :
    tokenize first = ⟨front, ⟨[], .eof, [], first.utf8ByteSize, []⟩⟩ ∧
      (tokenize second).moved first.utf8ByteSize = ⟨back, (tokenize text).eof⟩ := by
  have huntil := @Lexer.drain_until (Lexer.ofText text) [] rfl (Lexical.seam_nil _) _ _ h
  have hbehind := Lexer.drain_behind h
  rw [← hfirst, Text.byteLength_toList] at huntil hbehind
  constructor
  · rw [tokenize, Lexer.ofText]
    simpa [Lexer.ofText] using huntil
  · rw [tokenize, ← Lexer.drain_moved, Lexer.moved, Lexer.ofText, hsecond]
    exact hbehind

end Verbatim
