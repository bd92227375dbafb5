import Verbatim.Token.Lexer

/-!
# What the lexer reads

Every read but the last gives a token with content, the last one is the end of the text, and the
characters of all tokens in order are the characters of the text. Since every token with content has
at least one byte, there are no more of them than bytes.
-/

namespace Verbatim

namespace Lexer

/-- Content is never labelled as the end of the text, nor as a node. -/
theorem kind_of_content? {cs word rest : List Char} {kind : Kind}
    (h : content? cs = some (kind, word, rest)) : kind.isToken = true ∧ kind ≠ .eof := by
  have hword (word : List Char) : (wordKind word).isToken = true ∧ wordKind word ≠ .eof := by
    unfold wordKind
    split
    · decide
    · split
      · decide
      · split <;> decide
  have hchar (c : Char) : (characterKind c).isToken = true ∧ characterKind c ≠ .eof := by
    unfold characterKind
    split <;> decide
  unfold content? at h
  split at h
  · cases h
  · cases h
    decide
  · split at h
    · cases h
      decide
    · split at h
      · cases h
        exact hword _
      · cases h
        exact hchar _

/-- There is content unless the text ends. -/
theorem content?_eq_none {cs : List Char} (h : content? cs = none) : cs = [] := by
  unfold content? at h
  split at h
  · rfl
  · cases h
  · split at h
    · cases h
    · split at h <;> cases h

end Lexer

/-- A token with content that was read from a text. -/
structure Token.Solid (t : Token) : Prop where
  isToken : t.kind.isToken = true
  ne_eof : t.kind ≠ .eof
  content_ne_nil : t.content ≠ []

/-- The token at the end of a text. -/
structure Token.Final (t : Token) : Prop where
  eq_eof : t.kind = .eof
  content_eq_nil : t.content = []
  trailing_eq_nil : t.trailing = []

namespace Lexer

/-- A read cuts the characters of its token off the front. -/
theorem chars_next (l : Lexer) : l.next.1.chars ++ l.next.2.rest = l.rest := by
  have hleading := chars_takeTrivia true l.rest
  cases hc : content? (takeTrivia true l.rest).2 with
  | none =>
    rw [content?_eq_none hc] at hleading
    simpa [next, hc, Token.chars, Trivia.chars] using hleading
  | some found =>
    obtain ⟨kind, content, after⟩ := found
    obtain ⟨happ, -⟩ := content?_eq_some hc
    have htrailing := chars_takeTrivia false after
    simp only [next, hc, Token.chars, List.append_assoc, htrailing, happ, hleading]

/-- A read moves the lexer by the characters of its token. -/
theorem offset_next (l : Lexer) :
    l.next.2.offset = l.offset + Text.byteLength l.next.1.chars := by
  cases hc : content? (takeTrivia true l.rest).2 <;>
    simp [next, hc, Token.chars, Trivia.chars, Nat.add_assoc]

/-- A read gives a token with content, or the token at the end of the text. -/
theorem solid_or_final_next (l : Lexer) :
    l.next.1.Solid ∨ l.next.1.Final ∧ l.next.2.rest = [] := by
  cases hc : content? (takeTrivia true l.rest).2 with
  | none => exact .inr (by simp only [next, hc]; exact ⟨⟨rfl, rfl, rfl⟩, trivial⟩)
  | some found =>
    obtain ⟨kind, content, after⟩ := found
    obtain ⟨htoken, hkind⟩ := kind_of_content? hc
    exact .inl (by simp only [next, hc]; exact ⟨htoken, hkind, (content?_eq_some hc).2⟩)

theorem solid_next {l : Lexer} (h : l.next.1.kind ≠ .eof) : l.next.1.Solid :=
  l.solid_or_final_next.resolve_right fun hfinal => h hfinal.1.eq_eof

theorem final_next {l : Lexer} (h : l.next.1.kind = .eof) :
    l.next.1.Final ∧ l.next.2.rest = [] :=
  l.solid_or_final_next.resolve_left fun hsolid => hsolid.ne_eof h

/-- Reading to the end gives tokens with content and then the end. -/
theorem drain_spec (l : Lexer) :
    (∀ t ∈ l.drain.1.tokens, t.Solid) ∧ l.drain.1.eof.Final ∧
      l.drain.1.toList.flatMap Token.chars = l.rest := by
  fun_induction drain l with
  | case1 l h =>
    obtain ⟨hfinal, hrest⟩ := final_next h
    have hchars := l.chars_next
    rw [hrest, List.append_nil] at hchars
    exact ⟨nofun, hfinal, by simpa [TokenStream.toList] using hchars⟩
  | case2 l h _ stream last hdrain ih =>
    rw [hdrain] at ih
    obtain ⟨hsolid, hfinal, hchars⟩ := ih
    refine ⟨fun t ht => ?_, hfinal, ?_⟩
    · rcases List.mem_cons.mp ht with rfl | ht
      · exact solid_next h
      · exact hsolid t ht
    · rw [← l.chars_next, ← hchars]
      simp [TokenStream.toList]

end Lexer

/-- A token with content has at least one byte. -/
theorem Token.Solid.byteLength_pos {t : Token} (h : t.Solid) : 0 < Text.byteLength t.chars := by
  obtain ⟨c, cs, hc⟩ := List.exists_cons_of_ne_nil h.content_ne_nil
  have := c.utf8Size_pos
  simp only [Token.chars, hc, Text.byteLength_append, Text.byteLength_cons]
  omega

namespace Token

/-- Number of bytes of some tokens, trivia included. -/
def widthOf (tokens : List Token) : Nat := sumOf (fun t => Text.byteLength t.chars) tokens

theorem widthOf_cons (t : Token) (tokens : List Token) :
    widthOf (t :: tokens) = Text.byteLength t.chars + widthOf tokens := by
  simp [widthOf]

theorem widthOf_append (a b : List Token) : widthOf (a ++ b) = widthOf a + widthOf b := by
  simp [widthOf]

theorem widthOf_eq (tokens : List Token) :
    widthOf tokens = Text.byteLength (tokens.flatMap chars) := by
  induction tokens with
  | nil => rfl
  | cons t tokens ih => simp [widthOf_cons, ih]

/-- There are no more tokens with content than bytes. -/
theorem length_le_widthOf {tokens : List Token} (h : ∀ t ∈ tokens, t.Solid) :
    tokens.length ≤ widthOf tokens := by
  induction tokens with
  | nil => exact Nat.le_refl _
  | cons t tokens ih =>
    have hpos := (h t List.mem_cons_self).byteLength_pos
    have htail := ih fun u hu => h u (List.mem_cons_of_mem _ hu)
    rw [List.length_cons, widthOf_cons]
    omega

end Token

section Tokenize

variable (text : String)

theorem solid_of_mem_tokenize : ∀ t ∈ (tokenize text).tokens, t.Solid :=
  (Lexer.ofText text).drain_spec.1

theorem final_tokenize : (tokenize text).eof.Final := (Lexer.ofText text).drain_spec.2.1

/-- The tokens of a text spell the text. -/
theorem chars_tokenize : (tokenize text).toList.flatMap Token.chars = text.toList :=
  (Lexer.ofText text).drain_spec.2.2

/-- The bytes of the tokens of a text are the bytes of the text. -/
theorem widthOf_tokenize : Token.widthOf (tokenize text).toList = text.utf8ByteSize := by
  rw [Token.widthOf_eq, chars_tokenize, Text.byteLength_toList]

/-- A text has no more tokens with content than bytes. -/
theorem length_tokenize_le : (tokenize text).tokens.length ≤ text.utf8ByteSize := by
  have hlength := Token.length_le_widthOf (solid_of_mem_tokenize text)
  have hwidth := widthOf_tokenize text
  rw [TokenStream.toList, Token.widthOf_append] at hwidth
  omega

end Tokenize

end Verbatim
