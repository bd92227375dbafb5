import Verbatim.Proofs.Cutting
import Verbatim.Proofs.Lexical

/-!
# Tokens tile their text

Each read takes a token that starts where the read before it ended, and that can be cut out of the
text in all its parts: every piece of trivia at the place that the lengths of the pieces before it
give, and the content between leading and trailing trivia. Reading on at the end of the text gives
the end again, without trivia.
-/

namespace Verbatim

/-- Each token starts where the one before it ends, from one offset to another. -/
def Token.Tile (start : Nat) : List Token → Nat → Prop
  | [], stop => start = stop
  | t :: rest, stop => t.fullSpan.start = start ∧ Tile t.fullSpan.stop rest stop

/-- The last of tokens that tile a text ends where they do. -/
theorem Token.Tile.stop_eq {start stop : Nat} {tokens : List Token} {last : Token}
    (h : Tile start (tokens ++ [last]) stop) : last.fullSpan.stop = stop := by
  induction tokens generalizing start with
  | nil => exact h.2
  | cons t tokens ih => exact ih h.2

namespace Lexer

/-- Reading to the end of a text takes tokens that tile what was left of it. -/
theorem tile_drain {l : Lexer} {text : String} {before : List Char}
    (htext : text.toList = before ++ l.rest) (hoffset : l.offset = Text.byteLength before) :
    Token.Tile l.offset l.drain.1.toList text.utf8ByteSize := by
  fun_induction drain l generalizing before with
  | case1 l heof =>
    have hrest := (final_next heof).2
    have hsize : l.next.2.offset = text.utf8ByteSize := by
      rw [l.offset_next, ← Text.byteLength_toList, htext, hoffset, Text.byteLength_append,
        ← l.chars_next, hrest, List.append_nil]
    exact ⟨by rw [fullSpan_next], by rw [fullSpan_next, hsize]; rfl⟩
  | case2 l _ _ stream last hdrain ih =>
    have htext' : text.toList = (before ++ l.next.1.chars) ++ l.next.2.rest := by
      rw [htext, List.append_assoc, l.chars_next]
    have hoffset' : l.next.2.offset = Text.byteLength (before ++ l.next.1.chars) := by
      rw [offset_next, hoffset, Text.byteLength_append]
    have htile := ih htext' hoffset'
    rw [hdrain] at htile
    exact ⟨by rw [fullSpan_next], by rw [fullSpan_next]; exact htile⟩

/-- At the end of a text every read gives the end. -/
theorem take_nil (offset n : Nat) :
    take n ⟨[], offset⟩ = List.replicate n ⟨[], .eof, [], offset, []⟩ := by
  induction n with
  | zero => rfl
  | succ n ih => rw [take, next_nil, ih, List.replicate_succ]

/-- Reads up to the first end of the text give its tokens, and all later ones the end again. -/
theorem take_length_drain (l : Lexer) (n : Nat) :
    l.take (l.drain.1.toList.length + n) = l.drain.1.toList ++
      List.replicate n ⟨[], .eof, [], l.offset + Text.byteLength l.rest, []⟩ := by
  fun_induction drain l with
  | case1 l heof =>
    have hrest := (final_next heof).2
    have hoffset : l.next.2.offset = l.offset + Text.byteLength l.rest := by
      rw [l.offset_next, ← l.chars_next, hrest, List.append_nil]
    rw [← hoffset, ← take_nil, ← hrest, Nat.add_comm]
    rfl
  | case2 l _ _ stream last hdrain ih =>
    have hoffset : l.next.2.offset + Text.byteLength l.next.2.rest =
        l.offset + Text.byteLength l.rest := by
      rw [l.offset_next, ← l.chars_next, Text.byteLength_append, Nat.add_assoc]
    rw [hdrain, hoffset] at ih
    simpa [TokenStream.toList, Nat.add_right_comm, take] using ih

end Lexer

/-- The tokens of a text tile it. Reading meets the end of the text after finitely many tokens with
content; the tokens follow each other from the start of the text to its end, and each stands there
with its content and all its trivia between characters; what is read later is the end of the text
without trivia. -/
theorem tokenize_tiles (text : String) :
    (∀ n, (Lexer.ofText text).take ((tokenize text).toList.length + n) = (tokenize text).toList ++
      List.replicate n ⟨[], .eof, [], text.utf8ByteSize, []⟩) ∧
    Token.Tile 0 (tokenize text).toList text.utf8ByteSize ∧
    (∀ t ∈ (tokenize text).toList, t.Placed text) ∧
    (∀ t ∈ (tokenize text).tokens, t.kind ≠ .eof ∧ t.contentSpan.start < t.contentSpan.stop) ∧
    (tokenize text).eof.kind = .eof ∧
    (tokenize text).eof.contentSpan = .emptyAt text.utf8ByteSize ∧
    (tokenize text).eof.trailing = [] := by
  have htile := @Lexer.tile_drain (Lexer.ofText text) text [] rfl rfl
  obtain ⟨hkind, hcontent, htrailing⟩ := final_tokenize text
  refine ⟨fun n => ?_, htile, placed_of_mem_tokenize text, fun t ht => ?_, hkind, ?_, htrailing⟩
  · have hread := (Lexer.ofText text).take_length_drain n
    rwa [Lexer.ofText, Nat.zero_add, Text.byteLength_toList] at hread
  · obtain ⟨-, hne, hcontent⟩ := solid_of_mem_tokenize text t ht
    have hpos := Nat.pos_of_ne_zero fun h => hcontent (Text.eq_nil_of_byteLength h)
    exact ⟨hne, Nat.lt_add_of_pos_right hpos⟩
  · have hstop : (tokenize text).eof.fullSpan.stop = _ := htile.stop_eq
    simp only [Token.fullSpan, hcontent, htrailing, Trivia.chars, List.flatMap_nil,
      Text.byteLength_nil, Nat.add_zero] at hstop
    rw [Token.contentSpan, hcontent, hstop]
    rfl

/-- A blank of three bytes, a letter of two with a comment behind it, and a comment at the end. -/
theorem tokenize_tiles_comments :
    ∃ t u, (tokenize "\u3000é \t// ü\r\n//").toList = [t, u] ∧
      t.contentSpan = ⟨3, 5⟩ ∧ t.fullSpan = ⟨0, 12⟩ ∧ t.trailing.length = 2 ∧
      t.Placed "\u3000é \t// ü\r\n//" ∧ u.leading.length = 2 ∧ u.Placed "\u3000é \t// ü\r\n//" ∧
      (Lexer.ofText "\u3000é \t// ü\r\n//").take 3 = [t, u, ⟨[], .eof, [], 16, []⟩] := by
  obtain ⟨hread, -, hplaced, -⟩ := tokenize_tiles "\u3000é \t// ü\r\n//"
  have h : (tokenize "\u3000é \t// ü\r\n//").toList =
      [⟨[⟨.whitespace, ['\u3000']⟩], .unknown, ['é'], 3,
          [⟨.whitespace, [' ', '\t']⟩, ⟨.comment, ['/', '/', ' ', 'ü']⟩]⟩,
        ⟨[⟨.newline, ['\r', '\n']⟩, ⟨.comment, ['/', '/']⟩], .eof, [], 16, []⟩] := by
    decide +kernel
  rw [h] at hplaced
  refine ⟨_, _, h, rfl, rfl, rfl, hplaced _ List.mem_cons_self, rfl,
    hplaced _ (List.mem_cons_of_mem _ List.mem_cons_self), ?_⟩
  have hthree := hread 1
  rwa [h] at hthree

end Verbatim
