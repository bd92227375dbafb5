import Verbatim.Proofs.Restarting
import Verbatim.Proofs.Tiling

/-!
# Boundaries between tokens

Where a token starts with its trivia, a text can be cut. Since tokens tile their text and have text
of their own, the tokens before such a boundary are those that start before it, and both parts of
the text are read as they were read together.
-/

namespace Verbatim

/-- The span so many bytes further on. -/
def Text.Span.moved (k : Nat) (s : Text.Span) : Text.Span := ⟨s.start + k, s.stop + k⟩

namespace Token

variable {start stop : Nat} {front back tokens : List Token} {t u : Token}

/-- No token starts behind its end, and one with content starts before it. -/
theorem fullSpan_start_le (t : Token) : t.fullSpan.start ≤ t.fullSpan.stop := by
  simp only [fullSpan]
  omega

theorem Solid.fullSpan_start_lt (h : t.Solid) : t.fullSpan.start < t.fullSpan.stop := by
  have hpos := Nat.pos_of_ne_zero fun hzero => h.content_ne_nil (Text.eq_nil_of_byteLength hzero)
  simp only [fullSpan]
  omega

/-- Tokens that tile a stretch of a text do not start before it. -/
theorem Tile.le_start (h : Tile start tokens stop) (hu : u ∈ tokens) :
    start ≤ u.fullSpan.start := by
  induction tokens generalizing start with
  | nil => cases hu
  | cons t tokens ih =>
    obtain ⟨rfl, htail⟩ := h
    rcases List.mem_cons.mp hu with rfl | hu
    · exact Nat.le_refl _
    · exact Nat.le_trans t.fullSpan_start_le (ih htail hu)

/-- Tokens from a boundary on start there or behind it. -/
theorem Tile.start_le_of_mem (h : Tile start (front ++ t :: back) stop) (hu : u ∈ t :: back) :
    t.fullSpan.start ≤ u.fullSpan.start := by
  induction front generalizing start with
  | nil =>
    rw [List.nil_append] at h
    rw [h.1]
    exact h.le_start hu
  | cons _ front ih => exact ih h.2

/-- Tokens with content start before a boundary that they stand before. -/
theorem Tile.start_lt_of_mem (h : Tile start (front ++ t :: back) stop)
    (hsolid : ∀ u ∈ front, u.Solid) (hu : u ∈ front) : u.fullSpan.start < t.fullSpan.start := by
  induction front generalizing start with
  | nil => cases hu
  | cons v front ih =>
    rcases List.mem_cons.mp hu with rfl | hu
    · have hbehind := h.2.le_start (List.mem_append_right front List.mem_cons_self)
      exact Nat.lt_of_lt_of_le (hsolid u List.mem_cons_self).fullSpan_start_lt hbehind
    · exact ih h.2 (fun w hw => hsolid w (List.mem_cons_of_mem _ hw)) hu

/-- A boundary parts tokens by where they start. -/
theorem Tile.filter_eq (h : Tile start (front ++ t :: back) stop) (hsolid : ∀ u ∈ front, u.Solid) :
    (front ++ t :: back).filter (fun u => u.fullSpan.start < t.fullSpan.start) = front ∧
      (front ++ t :: back).filter (fun u => t.fullSpan.start ≤ u.fullSpan.start) = t :: back := by
  have hfront := fun u (hu : u ∈ front) => h.start_lt_of_mem hsolid hu
  have hback := fun u (hu : u ∈ t :: back) => h.start_le_of_mem hu
  constructor
  · rw [List.filter_append, List.filter_eq_self.mpr (by simpa using hfront),
      List.filter_eq_nil_iff.mpr (by simpa using hback), List.append_nil]
  · rw [List.filter_append, List.filter_eq_nil_iff.mpr (by simpa using hfront),
      List.filter_eq_self.mpr (by simpa using hback), List.nil_append]

theorem contentSpan_moved (k : Nat) (t : Token) :
    (t.moved k).contentSpan = t.contentSpan.moved k := by
  simp [contentSpan, moved, Text.Span.moved, Text.Span.ofWidth, Nat.add_right_comm]

/-- A token that stands in a text is moved with its trivia. -/
theorem Placed.fullSpan_moved {text : String} (h : t.Placed text) (k : Nat) :
    (t.moved k).fullSpan = t.fullSpan.moved k := by
  have hleading := h.leading_total
  rw [leadingPieces, total_pieces, contentSpan, Text.Span.start_ofWidth] at hleading
  simp only [fullSpan, moved, Text.Span.moved, Text.Span.mk.injEq] at hleading ⊢
  omega

end Token

/-- The tokens from one of them on are tokens with content and the end of the text. -/
theorem TokenStream.exists_of_toList {s : TokenStream} {front back : List Token} {t : Token}
    (h : s.toList = front ++ t :: back) :
    ∃ rest, s.tokens = front ++ rest ∧ t :: back = rest ++ [s.eof] := by
  rw [← List.dropLast_concat_getLast (List.cons_ne_nil t back), ← List.append_assoc] at h
  obtain ⟨htokens, heof⟩ := List.append_inj' h rfl
  refine ⟨_, htokens, ?_⟩
  rw [List.singleton_inj.mp heof, List.dropLast_concat_getLast]

/-- A text can be cut in front of a token. -/
theorem exists_cut_of_toList {text : String} {t : Token} {front back : List Token}
    (h : (tokenize text).toList = front ++ t :: back) :
    ∃ first second : String, first.toList = front.flatMap Token.chars ∧
      second.toList = (t :: back).flatMap Token.chars ∧
      first.utf8ByteSize = t.fullSpan.start ∧
      first.utf8ByteSize + second.utf8ByteSize = text.utf8ByteSize ∧
      Text.slice? text 0 t.fullSpan.start = some first ∧
      Text.slice? text t.fullSpan.start text.utf8ByteSize = some second := by
  obtain ⟨hlexed, -⟩ :=
    @Lexer.lexed_of_drain (Lexer.ofText text) [] rfl (Lexical.seam_nil _) _ _ _ h
  have hchars : text.toList = front.flatMap Token.chars ++ (t :: back).flatMap Token.chars := by
    rw [← chars_tokenize text, h, List.flatMap_append]
  have hstart : t.fullSpan.start = Text.byteLength (front.flatMap Token.chars) := by
    simp [Token.fullSpan, hlexed.start_eq]
  have hsize : Text.byteLength (front.flatMap Token.chars) +
      Text.byteLength ((t :: back).flatMap Token.chars) = text.utf8ByteSize := by
    rw [← Text.byteLength_append, ← hchars, Text.byteLength_toList]
  refine ⟨String.ofList _, String.ofList _, String.toList_ofList, String.toList_ofList, ?_, ?_, ?_,
    ?_⟩
  · rw [Text.utf8ByteSize_ofList, hstart]
  · rw [Text.utf8ByteSize_ofList, Text.utf8ByteSize_ofList, hsize]
  · have hslice := @Text.slice?_append text [] _ _ hchars
    rwa [Text.byteLength_nil, Nat.zero_add, ← hstart] at hslice
  · have hslice := @Text.slice?_append text _ _ [] (by rw [hchars, List.append_nil])
    rwa [hsize, ← hstart] at hslice

/-- Reading can be taken up at any token. Let a text be cut where a token starts with its trivia.
The text before the cut has the tokens that start before it, and then an end without trivia; the
text behind the cut has the tokens that start there or later, the end with its trivia among them,
with all their spans moved back by the place of the cut. -/
theorem tokenize_restarts {text : String} {t : Token} (ht : t ∈ (tokenize text).toList) :
    ∃ first second, Text.slice? text 0 t.fullSpan.start = some first ∧
      Text.slice? text t.fullSpan.start text.utf8ByteSize = some second ∧
      (tokenize first).toList =
        ((tokenize text).toList.filter fun u => u.fullSpan.start < t.fullSpan.start) ++
          [⟨[], .eof, [], t.fullSpan.start, []⟩] ∧
      (tokenize second).toList.map (Token.moved t.fullSpan.start) =
        ((tokenize text).toList.filter fun u => t.fullSpan.start ≤ u.fullSpan.start) ∧
      ∀ u ∈ (tokenize second).toList,
        (u.moved t.fullSpan.start).contentSpan = u.contentSpan.moved t.fullSpan.start ∧
          (u.moved t.fullSpan.start).fullSpan = u.fullSpan.moved t.fullSpan.start := by
  obtain ⟨front, back, hlist⟩ := List.append_of_mem ht
  obtain ⟨first, second, hfirst, hsecond, hsize, -, hslice₁, hslice₂⟩ := exists_cut_of_toList hlist
  obtain ⟨rest, htokens, hrest⟩ := TokenStream.exists_of_toList hlist
  rw [hrest] at hsecond
  obtain ⟨hfront, hback⟩ := tokenize_cut htokens hfirst hsecond
  rw [hsize] at hfront hback
  have hsolid : ∀ u ∈ front, u.Solid := fun u hu =>
    solid_of_mem_tokenize text u (htokens ▸ List.mem_append_left _ hu)
  have htile := @Lexer.tile_drain (Lexer.ofText text) text [] rfl rfl
  change Token.Tile 0 (tokenize text).toList _ at htile
  rw [hlist] at htile
  obtain ⟨hbefore, hbehind⟩ := htile.filter_eq hsolid
  refine ⟨first, second, hslice₁, hslice₂, ?_, ?_, fun u hu => ⟨u.contentSpan_moved _, ?_⟩⟩
  · rw [hfront, hlist, hbefore]
    rfl
  · rw [hlist, hbehind, hrest]
    have htoList := congrArg TokenStream.toList hback
    simpa [TokenStream.toList, TokenStream.moved] using htoList
  · exact (placed_of_mem_tokenize second u hu).fullSpan_moved _

/-- Cut behind a comment and in front of a line end, and cut where the end of the text starts. -/
theorem tokenize_restarts_arrow :
    (∃ t ∈ (tokenize "a - // é\r\n-> 1_ \n").toList, t.kind = .arrow ∧ t.fullSpan.start = 9 ∧
      (tokenize "a - // é").toList =
        ((tokenize "a - // é\r\n-> 1_ \n").toList.filter fun u => u.fullSpan.start < 9) ++
          [⟨[], .eof, [], 9, []⟩] ∧
      (tokenize "\r\n-> 1_ \n").toList.map (Token.moved 9) =
        (tokenize "a - // é\r\n-> 1_ \n").toList.filter fun u => 9 ≤ u.fullSpan.start) ∧
    ∃ t ∈ (tokenize "a - // é\r\n-> 1_ \n").toList, t.kind = .eof ∧ t.fullSpan.start = 17 ∧
      (tokenize "\n").toList.map (Token.moved 17) =
        (tokenize "a - // é\r\n-> 1_ \n").toList.filter fun u => 17 ≤ u.fullSpan.start := by
  constructor
  · have ht : ⟨[⟨.newline, ['\r', '\n']⟩], .arrow, ['-', '>'], 11, [⟨.whitespace, [' ']⟩]⟩ ∈
        (tokenize "a - // é\r\n-> 1_ \n").toList := by
      decide +kernel
    obtain ⟨first, second, hfirst, hsecond, hbefore, hbehind, -⟩ := tokenize_restarts ht
    cases hfirst.symm.trans (by decide +kernel : _ = some "a - // é")
    cases hsecond.symm.trans (by decide +kernel : _ = some "\r\n-> 1_ \n")
    exact ⟨_, ht, rfl, rfl, hbefore, hbehind⟩
  · have ht : ⟨[⟨.newline, ['\n']⟩], .eof, [], 18, []⟩ ∈
        (tokenize "a - // é\r\n-> 1_ \n").toList := by
      decide +kernel
    obtain ⟨first, second, -, hsecond, -, hbehind, -⟩ := tokenize_restarts ht
    cases hsecond.symm.trans (by decide +kernel : _ = some "\n")
    exact ⟨_, ht, rfl, rfl, hbehind⟩

end Verbatim
