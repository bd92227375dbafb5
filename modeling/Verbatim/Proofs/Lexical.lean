import Verbatim.Proofs.Lexical.Pieces
import Verbatim.Proofs.Lexical.Words

/-!
# The lexical grammar

A token is lexed if its content is the longest word that starts where its leading trivia ends, and
if it has all the trivia there is on either side of it. What the lexer reads is lexed, and whatever
is lexed in a text is what the lexer reads there. By induction over the reads every token of a text
is lexed.
-/

namespace Verbatim

/-- A token with the characters before it and those after it, as the lexical grammar says. -/
structure Token.Lexed (before : List Char) (t : Token) (after : List Char) : Prop where
  start_eq : t.start = Text.byteLength (before ++ Trivia.chars t.leading)
  leading : Trivia.StandAll before t.leading (t.content ++ (Trivia.chars t.trailing ++ after))
  leading_stops : Lexical.NoTrivia true (t.content ++ (Trivia.chars t.trailing ++ after))
  word : t.kind ≠ .eof →
    Lexical.Longest t.kind t.content (t.content ++ (Trivia.chars t.trailing ++ after))
  final : t.kind = .eof → t.content = [] ∧ t.trailing = [] ∧ after = []
  trailing : Trivia.StandAll (before ++ Trivia.chars t.leading ++ t.content) t.trailing after
  trailing_line : ∀ piece ∈ t.trailing, piece.kind ≠ .newline
  trailing_stops : Lexical.NoTrivia false after

namespace Lexical

/-- The characters that longer words are made of are no blanks. -/
theorem isBlank_eq_false {c : Char} (h : IsLetter c ∨ IsDigit c ∨ c = '>') :
    Text.isBlank c = false := by
  have hcode : 0x21 ≤ c.toNat ∧ c.toNat < 0x85 := by
    have hle (d : Char) : (d ≤ c ↔ d.toNat ≤ c.toNat) ∧ (c ≤ d ↔ c.toNat ≤ d.toNat) := by
      simp [Char.le_def, UInt32.le_iff_toNat_le]
    simp only [IsLetter, IsDigit, hle] at h
    rcases h with (h | h | rfl) | h | rfl
    · exact ⟨Nat.le_trans (by decide) h.1, Nat.lt_of_le_of_lt h.2 (by decide)⟩
    · exact ⟨Nat.le_trans (by decide) h.1, Nat.lt_of_le_of_lt h.2 (by decide)⟩
    · decide
    · exact ⟨Nat.le_trans (by decide) h.1, Nat.lt_of_le_of_lt h.2 (by decide)⟩
    · decide
  simp [Text.isBlank, Text.isWhiteSpace, Text.inRanges, Text.whiteSpaceRanges]
  omega

/-- No blank stands behind the first character of a word. -/
theorem Lexeme.isBlank_of_mem_tail {kind : Kind} {c d : Char} {cs : List Char}
    (h : Lexeme kind (c :: cs)) (hd : d ∈ cs) : Text.isBlank d = false := by
  apply isBlank_eq_false
  rcases h.shape with ⟨-, hcs⟩ | ⟨-, hcs⟩ | ⟨-, rfl⟩ | rfl
  · exact (hcs d hd).imp_right .inl
  · exact (hcs d hd).elim (fun hd => .inr (.inl hd)) fun hd => .inl (.inr (.inr hd))
  · exact .inr (.inr (List.mem_singleton.mp hd))
  · cases hd

/-- No word ends with a blank where no trivia starts. -/
theorem Lexeme.isBlank_getLast? {kind : Kind} {word after : List Char} (h : Lexeme kind word)
    (hstart : NoTrivia true (word ++ after)) : ∀ c ∈ word.getLast?, Text.isBlank c = false := by
  obtain ⟨c, cs, rfl⟩ := List.exists_cons_of_ne_nil h.ne_nil
  intro d hd
  rcases List.mem_cons.mp (List.mem_of_getLast? hd) with rfl | hmem
  · exact (hstart.2 d rfl).1
  · exact h.isBlank_of_mem_tail hmem

end Lexical

namespace Lexer

open Lexical

/-- What the lexer reads is lexed, if no blanks meet where it starts, and none meet where it
ends. -/
theorem lexed_next {l : Lexer} {before : List Char} (hoffset : l.offset = Text.byteLength before)
    (hseam : Seam before l.rest) :
    l.next.1.Lexed before l.next.2.rest ∧ Seam (before ++ l.next.1.chars) l.next.2.rest := by
  obtain ⟨hleading, -, hstops, hmiddle⟩ := @standAll_takeTrivia true _ _ hseam
  cases hc : content? (takeTrivia true l.rest).2 with
  | none =>
    have hnil := content?_eq_none hc
    rw [hnil] at hleading hstops hmiddle
    simp only [next, hc]
    refine ⟨⟨by simp [hoffset], hleading, hstops, fun h => absurd rfl h,
      fun _ => ⟨rfl, rfl, rfl⟩, trivial, fun piece hp => absurd hp List.not_mem_nil, ?_⟩, ?_⟩
    · exact trivia?_eq_none_iff.mp rfl
    · simpa [Token.chars, Trivia.chars] using hmiddle
  | some found =>
    obtain ⟨kind, content, rest⟩ := found
    obtain ⟨happ, -⟩ := content?_eq_some hc
    have hword := longest_of_content? hc
    rw [← happ] at hleading hstops hmiddle hword
    have hlast := hword.lexeme.isBlank_getLast? hstops
    have hseam' : Seam (before ++ Trivia.chars (takeTrivia true l.rest).1 ++ content) rest := by
      intro c hc hblank
      obtain ⟨d, hd⟩ := List.getLast?_isSome.mpr hword.lexeme.ne_nil |> Option.isSome_iff_exists.mp
      rw [List.getLast?_append, hd, Option.some_or, ← hd] at hc
      exact absurd hblank (by simp [hlast c hc])
    obtain ⟨htrailing, hline, hend, hseam''⟩ := @standAll_takeTrivia false _ _ hseam'
    have hrest := chars_takeTrivia false rest
    simp only [next, hc]
    rw [← hrest] at hleading hstops hword
    refine ⟨⟨by simp [hoffset], hleading, hstops, fun _ => hword, ?_, htrailing, ?_, hend⟩, ?_⟩
    · exact fun h => absurd h (kind_of_content? hc).2
    · exact fun piece hpiece hnewline => Bool.false_ne_true (hline piece hpiece hnewline)
    · simpa [Token.chars] using hseam''

/-- The lexer reads what is lexed. -/
theorem next_of_lexed {before after : List Char} {t : Token} (h : t.Lexed before after) :
    next ⟨t.chars ++ after, Text.byteLength before⟩ =
      (t, ⟨after, Text.byteLength (before ++ t.chars)⟩) := by
  obtain ⟨leading, kind, content, start, trailing⟩ := t
  have hstart : start = Text.byteLength before + Text.byteLength (Trivia.chars leading) := by
    simpa using h.start_eq
  have hleading : takeTrivia true
      (Trivia.chars leading ++ (content ++ (Trivia.chars trailing ++ after))) = _ :=
    takeTrivia_of_standAll h.leading (fun _ _ _ => rfl) h.leading_stops
  by_cases hkind : kind = .eof
  · obtain ⟨rfl, rfl, rfl⟩ := h.final hkind
    have hcontent : content? [] = none := rfl
    simp only [Token.chars, Trivia.chars, List.flatMap_nil, List.append_nil] at hleading ⊢
    simp [next, hleading, hcontent, hkind, hstart, Trivia.chars]
  · have hcontent : content? (content ++ (Trivia.chars trailing ++ after)) = _ :=
      content?_of_longest (h.word hkind)
    have htrailing : takeTrivia false (Trivia.chars trailing ++ after) = _ :=
      takeTrivia_of_standAll h.trailing
        (fun piece hpiece hnewline => absurd hnewline (h.trailing_line piece hpiece))
        h.trailing_stops
    simp only [Token.chars, List.append_assoc, next, hleading, hcontent, htrailing]
    simp [hstart, Nat.add_assoc]

/-- At the end of a text the end is read, without trivia. -/
theorem next_nil (offset : Nat) :
    next ⟨[], offset⟩ = (⟨[], .eof, [], offset, []⟩, ⟨[], offset⟩) := by
  have htrivia : takeTrivia true [] = ([], []) := by
    unfold takeTrivia
    rfl
  have hcontent : content? [] = none := rfl
  simp [next, htrivia, hcontent, Trivia.chars]

/-- Every token that is read up to the end of the text is lexed where it stands, and no trivia that
fits on the line of the token before it starts in front of it. -/
theorem lexed_of_drain {l : Lexer} {before : List Char}
    (hoffset : l.offset = Text.byteLength before) (hseam : Seam before l.rest)
    {front back : List Token} {t : Token} (h : l.drain.1.toList = front ++ t :: back) :
    t.Lexed (before ++ front.flatMap Token.chars) (back.flatMap Token.chars) ∧
      (front ≠ [] → NoTrivia false (t.chars ++ back.flatMap Token.chars)) := by
  fun_induction drain l generalizing before front with
  | case1 l heof =>
    obtain ⟨rfl, rfl, rfl⟩ : front = [] ∧ t = l.next.1 ∧ back = [] := by
      rcases front with _ | ⟨u, front⟩
      · obtain ⟨ht, hback⟩ := List.cons.inj h
        exact ⟨rfl, ht.symm, hback.symm⟩
      · simp [TokenStream.toList] at h
    have hlexed := (lexed_next hoffset hseam).1
    rw [(final_next heof).2] at hlexed
    exact ⟨by simpa using hlexed, fun hne => absurd rfl hne⟩
  | case2 l hkind _ stream last hdrain ih =>
    have hlist : l.next.1 :: stream.toList = front ++ t :: back := by
      simpa [TokenStream.toList] using h
    have hrest := l.next.2.drain_spec.2.2
    rw [hdrain] at hrest
    obtain ⟨hlexed, hseam'⟩ := lexed_next hoffset hseam
    rcases front with _ | ⟨u, front⟩
    · obtain ⟨rfl, rfl⟩ := List.cons.inj hlist
      rw [hrest]
      exact ⟨by simpa using hlexed, fun hne => absurd rfl hne⟩
    · obtain ⟨rfl, htail⟩ := List.cons.inj hlist
      have hoffset' : l.next.2.offset = Text.byteLength (before ++ l.next.1.chars) := by
        rw [offset_next, hoffset, Text.byteLength_append]
      rw [hdrain] at ih
      obtain ⟨ht, hstart⟩ := ih hoffset' hseam' htail
      refine ⟨by simpa using ht, fun _ => ?_⟩
      rcases front with _ | ⟨v, front⟩
      · have hchars : t.chars ++ back.flatMap Token.chars = l.next.2.rest := by
          simpa [htail] using hrest
        rw [hchars]
        exact hlexed.trailing_stops
      · exact hstart (List.cons_ne_nil _ _)

end Lexer

namespace Token.Lexed

open Lexical

variable {before after : List Char} {t : Token}

/-- A token has a kind that is spelled in one way exactly if it is spelled so. -/
theorem kind_eq_iff (h : t.Lexed before after) {kind : Kind} {text : String}
    (htext : kind.fixedText? = some text) : t.kind = kind ↔ String.ofList t.content = text := by
  have hfixed : IsFixed kind text.toList := ⟨text, htext, rfl⟩
  by_cases heof : t.kind = .eof
  · rw [heof, (h.final heof).1]
    constructor
    · rintro rfl
      cases htext
    · rintro rfl
      exact absurd rfl (Lexeme.fixed hfixed).ne_nil
  · have hword := (h.word heof).lexeme
    constructor
    · rintro rfl
      rw [hword.eq_of_fixedText? htext, String.ofList_toList]
    · rintro rfl
      rw [String.toList_ofList] at hfixed
      exact hword.kind_unique (.fixed hfixed)

/-- Leading trivia that could not be trailing trivia of the token before starts with a line end. -/
theorem kind_of_mem_head?_leading (h : t.Lexed before after)
    (hstart : NoTrivia false (t.chars ++ after)) :
    ∀ piece ∈ t.leading.head?, piece.kind = .newline := by
  intro piece hpiece
  obtain ⟨rest, hrest⟩ := List.head?_eq_some_iff.mp hpiece
  have hstands := h.leading
  rw [hrest] at hstands
  have hchars : t.chars ++ after = piece.text ++
      (Trivia.chars rest ++ (t.content ++ (Trivia.chars t.trailing ++ after))) := by
    simp [chars, hrest, Trivia.chars]
  have hnone := Lexer.trivia?_eq_none_iff.mpr hstart
  cases hkind : piece.kind with
  | newline => rfl
  | _ =>
    have hread := @Lexer.trivia?_of_stands false _ _ _ hstands.1 (by simp [hkind])
    rw [← hchars, hnone] at hread
    cases hread

end Token.Lexed

/-- Every token of a text is lexed as the lexical grammar says. Its content is the longest word that
starts where its leading trivia ends, of the kind that the word has; pieces of trivia are line ends,
all the blanks in a row, or comments up to the end of their line; trailing trivia goes as far as it
can on its line, so that all leading trivia but the first starts with a line end. -/
theorem tokenize_lexed (text : String) {front back : List Token} {t : Token}
    (h : (tokenize text).toList = front ++ t :: back) :
    text.toList = front.flatMap Token.chars ++ (t.chars ++ back.flatMap Token.chars) ∧
      t.Lexed (front.flatMap Token.chars) (back.flatMap Token.chars) ∧
      (∀ kind word, Kind.fixedText? kind = some word →
        (t.kind = kind ↔ String.ofList t.content = word)) ∧
      (front ≠ [] → ∀ piece ∈ t.leading.head?, piece.kind = .newline) := by
  obtain ⟨hlexed, hstart⟩ :=
    @Lexer.lexed_of_drain (Lexer.ofText text) [] rfl (Lexical.seam_nil _) _ _ _ h
  refine ⟨?_, hlexed, fun kind word hword => hlexed.kind_eq_iff hword, fun hfront => ?_⟩
  · simp [← chars_tokenize text, h]
  · exact hlexed.kind_of_mem_head?_leading (hstart hfront)

/-- An arrow after a comment, with a lone line end and a number behind it. -/
theorem tokenize_lexed_arrow :
    ∃ front t back, (tokenize "x//é\r\n\r ->1_ ?").toList = front ++ t :: back ∧
      t.kind = .arrow ∧ front ≠ [] ∧
      t.Lexed (front.flatMap Token.chars) (back.flatMap Token.chars) ∧
      ∀ piece ∈ t.leading.head?, piece.kind = .newline := by
  have h : (tokenize "x//é\r\n\r ->1_ ?").toList =
      [⟨[], .ident, ['x'], 0, [⟨.comment, ['/', '/', 'é']⟩]⟩] ++
        ⟨[⟨.newline, ['\r', '\n']⟩, ⟨.newline, ['\r']⟩, ⟨.whitespace, [' ']⟩], .arrow,
          ['-', '>'], 9, []⟩ ::
        [⟨[], .intNumber, ['1', '_'], 11, [⟨.whitespace, [' ']⟩]⟩, ⟨[], .unknown, ['?'], 14, []⟩,
          ⟨[], .eof, [], 15, []⟩] := by
    decide +kernel
  obtain ⟨-, hlexed, -, hnewline⟩ := tokenize_lexed _ h
  exact ⟨_, _, _, h, rfl, List.cons_ne_nil _ _, hlexed, hnewline (List.cons_ne_nil _ _)⟩

end Verbatim
