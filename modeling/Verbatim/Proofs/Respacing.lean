import Verbatim.Proofs.Recovery
import Verbatim.Proofs.Restarting

/-!
# Other blanks in a text

Blanks separate, and how many of them there are and which ones does not matter. If every run of
blanks between tokens is replaced by other blanks, each token stays lexed where it stands: what is
looked at behind a word, a line end or a comment is at most whether a blank is there. So the same
tokens are read with the new blanks around them, and the tree of the text has the same markers.
-/

namespace Verbatim

namespace Text

/-- A run of blanks. -/
structure Blanks (cs : List Char) : Prop where
  ne_nil : cs ≠ []
  isBlank : ∀ c ∈ cs, Text.isBlank c = true

/-- Two texts that differ in runs of blanks at most. -/
inductive Respaced : List Char → List Char → Prop
  | nil : Respaced [] []
  | keep (c : Char) {cs ds : List Char} : Respaced cs ds → Respaced (c :: cs) (c :: ds)
  | blanks {old new cs ds : List Char} (hold : Blanks old) (hnew : Blanks new) :
    Respaced cs ds → Respaced (old ++ cs) (new ++ ds)

namespace Respaced

variable {cs ds cs' ds' : List Char}

theorem refl (cs : List Char) : Respaced cs cs := by
  induction cs with
  | nil => exact .nil
  | cons c cs ih => exact .keep c ih

theorem append (h : Respaced cs ds) (h' : Respaced cs' ds') :
    Respaced (cs ++ cs') (ds ++ ds') := by
  induction h with
  | nil => exact h'
  | keep c _ ih => exact .keep c ih
  | blanks hold hnew _ ih =>
    rw [List.append_assoc, List.append_assoc]
    exact .blanks hold hnew ih

theorem reverse (h : Respaced cs ds) : Respaced cs.reverse ds.reverse := by
  have hblanks {cs : List Char} (h : Blanks cs) : Blanks cs.reverse :=
    ⟨by simpa using h.ne_nil, by simpa using h.isBlank⟩
  induction h with
  | nil => exact .nil
  | keep c _ ih =>
    rw [List.reverse_cons, List.reverse_cons]
    exact ih.append (refl [c])
  | blanks hold hnew _ ih =>
    have hlast := Respaced.blanks (hblanks hold) (hblanks hnew) .nil
    rw [List.append_nil, List.append_nil] at hlast
    rw [List.reverse_append, List.reverse_append]
    exact ih.append hlast

theorem eq_nil (h : Respaced [] ds) : ds = [] := by
  generalize hcs : [] = cs at h
  cases h with
  | nil => rfl
  | keep c _ => cases hcs
  | blanks hold _ _ => exact absurd (List.append_eq_nil_iff.mp hcs.symm).1 hold.ne_nil

/-- Either text starts with a blank, or they start alike. -/
theorem mem_head? (h : Respaced cs ds) {d : Char} (hd : d ∈ ds.head?) :
    d ∈ cs.head? ∨ Text.isBlank d = true ∧ ∃ c ∈ cs.head?, Text.isBlank c = true := by
  cases h with
  | nil => cases hd
  | keep c _ => exact .inl hd
  | blanks hold hnew _ =>
    obtain ⟨b, bs, rfl⟩ := List.exists_cons_of_ne_nil hold.ne_nil
    obtain ⟨e, es, rfl⟩ := List.exists_cons_of_ne_nil hnew.ne_nil
    obtain rfl := Option.some.inj hd
    exact .inr ⟨hnew.isBlank _ List.mem_cons_self, b, rfl, hold.isBlank _ List.mem_cons_self⟩

theorem mem_getLast? (h : Respaced cs ds) {d : Char} (hd : d ∈ ds.getLast?) :
    d ∈ cs.getLast? ∨ Text.isBlank d = true ∧ ∃ c ∈ cs.getLast?, Text.isBlank c = true := by
  rw [← List.head?_reverse] at hd ⊢
  exact h.reverse.mem_head? hd

/-- What has no blanks in it stands at the front of either text or of none. -/
theorem isPrefix_of_isPrefix (h : Respaced cs ds) {word : List Char} (hword : word <+: ds)
    (hsolid : ∀ c ∈ word, Text.isBlank c = false) : word <+: cs := by
  induction h generalizing word with
  | nil => exact hword
  | keep c _ ih =>
    cases word with
    | nil => exact List.nil_prefix
    | cons d word =>
      obtain ⟨rfl, htail⟩ := List.cons_prefix_cons.mp hword
      have htail := ih htail fun e he => hsolid e (List.mem_cons_of_mem _ he)
      exact List.cons_prefix_cons.mpr ⟨rfl, htail⟩
  | @blanks _ new _ _ _ hnew _ _ =>
    cases word with
    | nil => exact List.nil_prefix
    | cons d word =>
      obtain ⟨e, es, rfl⟩ := List.exists_cons_of_ne_nil hnew.ne_nil
      obtain ⟨rfl, -⟩ := List.cons_prefix_cons.mp hword
      have hblank := hnew.isBlank d List.mem_cons_self
      rw [hsolid d List.mem_cons_self] at hblank
      cases hblank

end Respaced

end Text

/-- Other blanks for the blanks of a text. What a run of blanks becomes may depend on where it
starts and on what it was. -/
structure Respacing where
  /-- What the blanks at an offset become. -/
  blanks : Nat → List Char → List Char
  spaced : ∀ (offset : Nat) {old : List Char}, Text.Blanks old → Text.Blanks (blanks offset old)

namespace Respacing

variable (r : Respacing)

/-- What a piece of trivia at an offset becomes. -/
def piece (offset : Nat) (t : Trivia) : Trivia :=
  if t.kind = .whitespace then ⟨.whitespace, r.blanks offset t.text⟩ else t

/-- What pieces of trivia one after the other become, the first of them at an offset. -/
def pieces : Nat → List Trivia → List Trivia
  | _, [] => []
  | offset, t :: ts => r.piece offset t :: pieces (offset + Text.byteLength t.text) ts

/-- What a token becomes that comes to stand with its trivia at an offset. -/
def token (offset : Nat) (t : Token) : Token :=
  let leading := r.pieces t.fullSpan.start t.leading
  { t with
    leading := leading
    start := offset + Text.byteLength (Trivia.chars leading)
    trailing := r.pieces t.contentSpan.stop t.trailing }

/-- What tokens one after the other become, where the first of them comes to stand at an offset. -/
def tokens : Nat → List Token → List Token
  | _, [] => []
  | offset, t :: ts =>
    r.token offset t :: tokens (offset + Text.byteLength (r.token offset t).chars) ts

/-- A text with the other blanks in it. -/
def text (text : String) : String :=
  String.ofList ((r.tokens 0 (tokenize text).toList).flatMap Token.chars)

@[simp] theorem kind_piece (offset : Nat) (t : Trivia) : (r.piece offset t).kind = t.kind := by
  unfold piece
  split
  · next h => exact h.symm
  · rfl

theorem map_kind_pieces (offset : Nat) (ts : List Trivia) :
    (r.pieces offset ts).map Trivia.kind = ts.map Trivia.kind := by
  induction ts generalizing offset with
  | nil => rfl
  | cons t ts ih => rw [pieces, List.map_cons, List.map_cons, kind_piece, ih]

end Respacing

namespace Trivia

open Text

variable {r : Respacing} {before after before' after' : List Char} {t : Trivia} {ts : List Trivia}

/-- A piece of trivia is respaced. -/
theorem Stands.respaced_text (h : t.Stands before after) (offset : Nat) :
    Respaced t.text (r.piece offset t).text := by
  cases h with
  | blanks hne htext _ _ =>
    have hblanks : Blanks _ := ⟨hne, htext⟩
    have hspaced := Respaced.blanks hblanks (r.spaced offset hblanks) .nil
    rwa [List.append_nil, List.append_nil] at hspaced
  | _ => exact .refl _

/-- A piece of trivia stands between respaced texts with the other blanks. -/
theorem Stands.respaced (h : t.Stands before after) (hbefore : Respaced before before')
    (hafter : Respaced after after') (offset : Nat) : (r.piece offset t).Stands before' after' := by
  cases h with
  | lineFeed => exact .lineFeed
  | crlf => exact .crlf
  | carriageReturn hlf =>
    refine .carriageReturn fun hlf' => ?_
    rcases hafter.mem_head? hlf' with hsame | ⟨hblank, -⟩
    · exact hlf hsame
    · exact absurd hblank (by decide)
  | blanks hne htext hlast hhead =>
    obtain ⟨hne', htext'⟩ := r.spaced offset ⟨hne, htext⟩
    refine .blanks hne' htext' (fun d hd => ?_) fun d hd => ?_
    · rcases hbefore.mem_getLast? hd with hsame | ⟨-, c, hc, hblank⟩
      · exact hlast d hsame
      · exact absurd hblank (by rw [hlast c hc]; decide)
    · rcases hafter.mem_head? hd with hsame | ⟨-, c, hc, hblank⟩
      · exact hhead d hsame
      · exact absurd hblank (by rw [hhead c hc]; decide)
  | comment hbody hhead =>
    refine .comment hbody fun d hd => ?_
    rcases hafter.mem_head? hd with hsame | ⟨-, c, hc, hblank⟩
    · exact hhead d hsame
    · exact absurd hblank (by rw [isBlank_eq_false_of_isLineEnd (hhead c hc)]; decide)

theorem StandAll.respaced_chars (h : StandAll before ts after) (offset : Nat) :
    Respaced (chars ts) (chars (r.pieces offset ts)) := by
  induction ts generalizing before offset with
  | nil => exact .nil
  | cons t ts ih => exact (h.1.respaced_text offset).append (ih h.2 _)

theorem StandAll.respaced (h : StandAll before ts after) (hbefore : Respaced before before')
    (hafter : Respaced after after') (offset : Nat) :
    StandAll before' (r.pieces offset ts) after' := by
  induction ts generalizing before before' offset with
  | nil => trivial
  | cons t ts ih =>
    have hbehind := (h.2.respaced_chars (r := r) (offset + byteLength t.text)).append hafter
    exact ⟨h.1.respaced hbefore hbehind offset,
      ih h.2 (hbefore.append (h.1.respaced_text offset)) _⟩

end Trivia

namespace Lexical

open Text

variable {cs ds : List Char}

/-- No trivia starts where blanks were replaced by blanks. -/
theorem NoTrivia.respaced {lineEnds : Bool} (h : NoTrivia lineEnds cs) (hds : Respaced cs ds) :
    NoTrivia lineEnds ds := by
  refine ⟨fun hslash => h.1 (hds.isPrefix_of_isPrefix hslash (by simp; decide)), fun d hd => ?_⟩
  rcases hds.mem_head? hd with hsame | ⟨-, c, hc, hblank⟩
  · exact h.2 d hsame
  · exact absurd hblank (by rw [(h.2 c hc).1]; decide)

/-- The longest word stays the longest one when blanks behind it are replaced. -/
theorem Longest.respaced {kind : Kind} {word : List Char} (h : Longest kind word (word ++ cs))
    (hds : Respaced cs ds) : Longest kind word (word ++ ds) := by
  refine ⟨h.lexeme, List.prefix_append _ _, fun kind' word' hword' hfront => ?_⟩
  rcases List.prefix_or_prefix_of_prefix hfront (List.prefix_append word ds) with hle | ⟨more, rfl⟩
  · exact hle.length_le
  · have hmore : more <+: ds := (List.prefix_append_right_inj word).mp hfront
    obtain ⟨c, tail, rfl⟩ := List.exists_cons_of_ne_nil h.lexeme.ne_nil
    have hsolid : ∀ d ∈ more, Text.isBlank d = false := fun d hd =>
      hword'.isBlank_of_mem_tail (List.mem_append_right tail hd)
    exact h.longest kind' _ hword'
      ((List.prefix_append_right_inj _).mpr (hds.isPrefix_of_isPrefix hmore hsolid))

end Lexical

namespace Token.Lexed

open Text

variable {r : Respacing} {before after before' after' : List Char} {t : Token}

theorem respaced_chars (h : t.Lexed before after) (offset : Nat) :
    Respaced t.chars (r.token offset t).chars :=
  ((h.leading.respaced_chars _).append (.refl t.content)).append (h.trailing.respaced_chars _)

/-- A token stays lexed when blanks are replaced in it and around it. -/
theorem respaced (h : t.Lexed before after) (hbefore : Respaced before before')
    (hafter : Respaced after after') :
    (r.token (byteLength before') t).Lexed before' after' := by
  have htrailing := (h.trailing.respaced_chars (r := r) t.contentSpan.stop).append hafter
  have hcontent := (Respaced.refl t.content).append htrailing
  have hleading := h.leading.respaced_chars (r := r) t.fullSpan.start
  refine ⟨(byteLength_append ..).symm, h.leading.respaced hbefore hcontent _,
    h.leading_stops.respaced hcontent, fun hkind => (h.word hkind).respaced htrailing,
    fun hkind => ?_, ?_, fun piece hpiece hnewline => ?_, h.trailing_stops.respaced hafter⟩
  · obtain ⟨hnil, hnone, rfl⟩ := h.final hkind
    refine ⟨hnil, ?_, hafter.eq_nil⟩
    rw [Respacing.token, hnone]
    rfl
  · exact h.trailing.respaced ((hbefore.append hleading).append (.refl t.content)) hafter _
  · have hmem := List.mem_map_of_mem (f := Trivia.kind) hpiece
    rw [Respacing.token, r.map_kind_pieces] at hmem
    obtain ⟨old, hold, hkind⟩ := List.mem_map.mp hmem
    exact h.trailing_line old hold (hkind.trans hnewline)

end Token.Lexed

namespace Lexer

open Lexical Text

/-- The tokens of a text with other blanks are read with them. -/
theorem drain_respaced (r : Respacing) {l : Lexer} {before before' : List Char}
    (hoffset : l.offset = byteLength before) (hseam : Seam before l.rest)
    (hbefore : Respaced before before') :
    Respaced l.rest ((r.tokens (byteLength before') l.drain.1.toList).flatMap Token.chars) ∧
      (drain ⟨(r.tokens (byteLength before') l.drain.1.toList).flatMap Token.chars,
        byteLength before'⟩).1.toList = r.tokens (byteLength before') l.drain.1.toList := by
  fun_induction drain l generalizing before before' with
  | case1 l heof =>
    obtain ⟨hlexed, -⟩ := lexed_next hoffset hseam
    have hrest := (final_next heof).2
    have hchars := l.chars_next
    rw [hrest, List.append_nil] at hchars
    rw [hrest] at hlexed
    have hread := next_of_lexed (hlexed.respaced (r := r) hbefore .nil)
    have hlist : r.tokens (byteLength before') (TokenStream.toList ⟨[], l.next.1⟩) =
        [r.token (byteLength before') l.next.1] := rfl
    simp only [hlist, List.flatMap_cons, List.flatMap_nil]
    constructor
    · rw [← hchars, List.append_nil]
      exact hlexed.respaced_chars _
    · have hkind : (r.token (byteLength before') l.next.1).kind = .eof := heof
      rw [drain, dif_pos (by rw [hread]; exact hkind), hread]
      rfl
  | case2 l hkind _ stream last hdrain ih =>
    obtain ⟨hlexed, hseam'⟩ := lexed_next hoffset hseam
    have hoffset' : l.next.2.offset = byteLength (before ++ l.next.1.chars) := by
      rw [offset_next, hoffset, byteLength_append]
    have hchars := hlexed.respaced_chars (r := r) (byteLength before')
    obtain ⟨hafter, hread⟩ := ih hoffset' hseam' (hbefore.append hchars)
    rw [hdrain, byteLength_append] at hafter hread
    have hnext := next_of_lexed (hlexed.respaced (r := r) hbefore hafter)
    have hlist : r.tokens (byteLength before')
        (TokenStream.toList ⟨l.next.1 :: stream.tokens, stream.eof⟩) =
          r.token (byteLength before') l.next.1 :: r.tokens (byteLength before' +
            byteLength (r.token (byteLength before') l.next.1).chars) stream.toList := rfl
    simp only [hlist, List.flatMap_cons]
    constructor
    · rw [← l.chars_next]
      exact hchars.append hafter
    · rw [drain_of_next hnext hkind, byteLength_append]
      exact congrArg (List.cons _) hread

end Lexer

namespace Respacing

variable (r : Respacing)

/-- A text with other blanks has the tokens of the text with the other blanks around them. -/
theorem toList_tokenize_text (text : String) :
    (tokenize (r.text text)).toList = r.tokens 0 (tokenize text).toList := by
  have hread := (@Lexer.drain_respaced r (Lexer.ofText text) [] [] rfl (Lexical.seam_nil _) .nil).2
  rw [tokenize, Lexer.ofText, Respacing.text, String.toList_ofList]
  exact hread

end Respacing

/-- What blanks do not matter for: the kind and the content of a token and the kinds of the pieces
of trivia around it. -/
def Token.outline (t : Token) : List TriviaKind × Kind × List Char × List TriviaKind :=
  (t.leading.map Trivia.kind, t.kind, t.content, t.trailing.map Trivia.kind)

theorem Respacing.map_outline_tokens (r : Respacing) (offset : Nat) (ts : List Token) :
    (r.tokens offset ts).map Token.outline = ts.map Token.outline := by
  induction ts generalizing offset with
  | nil => rfl
  | cons t ts ih =>
    rw [tokens, List.map_cons, List.map_cons, ih]
    simp only [Token.outline, token, map_kind_pieces]

namespace View

/-- The places of all markers of a tree, with their kinds and whether they are placeholders. -/
def marks (v : View) : List (List Nat × Kind × Bool) :=
  (v.descendants.filter isMarker).map fun d => (d.path, d.kind, d.isMissing)

theorem marks_relabel (r : Relabelling) (v : View) : (v.relabel r).marks = v.marks := by
  rw [marks, marks, descendants_relabel, filter_relabel r (by simp), List.map_map]
  exact List.map_congr_left fun d _ => by simp

/-- Trees with the same shape have the same markers. -/
theorem marks_of_shape {v v' : View} (h : v.shape = v'.shape) : v.marks = v'.marks := by
  rw [← marks_relabel .shape v, ← marks_relabel .shape v', relabel_shape, h]

end View

/-- Blanks can be replaced by other blanks. Let every run of blanks between the tokens of a text
become any other run of blanks. The new text has the tokens of the old one with the new blanks
around them, so that kinds, contents and the kinds of the pieces of trivia stay as they were. If
both texts have less than 2^28 bytes, trees come out of both in any coherent stores. Whenever trees
come out, they have the same placeholders and the same unexpected nodes at the same paths. -/
theorem respacing_harmless (r : Respacing) (text : String) {st st' : Store} (hst : st.Coherent)
    (hst' : st'.Coherent) :
    (tokenize (r.text text)).toList = r.tokens 0 (tokenize text).toList ∧
    (tokenize (r.text text)).toList.map Token.outline = (tokenize text).toList.map Token.outline ∧
    (text.utf8ByteSize < 1 <<< 28 → (r.text text).utf8ByteSize < 1 <<< 28 →
      ∃ v s v' s', parse text st = (.ok v, s) ∧ parse (r.text text) st' = (.ok v', s')) ∧
    ∀ v s v' s', parse text st = (.ok v, s) → parse (r.text text) st' = (.ok v', s') →
      v'.marks = v.marks := by
  have htokens := r.toList_tokenize_text text
  have houtline : (tokenize (r.text text)).toList.map Token.outline =
      (tokenize text).toList.map Token.outline := by
    rw [htokens, r.map_outline_tokens]
  refine ⟨htokens, houtline, fun hlen hlen' => ?_, fun v s v' s' hparse hparse' => ?_⟩
  · obtain ⟨v, s, hparse⟩ := exists_parse_eq_ok hst hlen
    obtain ⟨v', s', hparse'⟩ := exists_parse_eq_ok hst' hlen'
    exact ⟨v, s, v', s', hparse, hparse'⟩
  · obtain ⟨-, g, items, y, rfl, -, hg⟩ := exists_of_parse_eq_ok hst hparse
    obtain ⟨-, g', items', y', rfl, -, hg'⟩ := exists_of_parse_eq_ok hst' hparse'
    have hkinds : (tokenize (r.text text)).toList.map Token.kind =
        (tokenize text).toList.map Token.kind := by
      have hkind := congrArg (List.map fun outline => outline.2.1) houtline
      simpa [Token.outline, Function.comp_def] using hkind
    exact View.marks_of_shape (View.shape_root (hg'.shape_eq hg hkinds) _ _)

/-- Every run of blanks twice. -/
def Respacing.doubled : Respacing where
  blanks _ old := old ++ old
  spaced _ _ h := ⟨fun hnil => h.ne_nil (List.append_eq_nil_iff.mp hnil).1,
    fun c hc => (List.mem_append.mp hc).elim (h.isBlank c) (h.isBlank c)⟩

/-- Blanks doubled around a comment that has blanks in it, and around a lone carriage return. -/
theorem respacing_harmless_doubled :
    ({ tag := 0 } : Store).Coherent ∧
      Respacing.doubled.text "let x= // a b\r\n\t( 1 + \r ?" =
        "let  x=  // a b\r\n\t\t(  1  +  \r  ?" ∧
      (tokenize "let  x=  // a b\r\n\t\t(  1  +  \r  ?").toList.map Token.outline =
        (tokenize "let x= // a b\r\n\t( 1 + \r ?").toList.map Token.outline ∧
      ∃ v s v' s', parse "let x= // a b\r\n\t( 1 + \r ?" { tag := 0 } = (.ok v, s) ∧
        parse "let  x=  // a b\r\n\t\t(  1  +  \r  ?" { tag := 0 } = (.ok v', s') ∧
        v'.marks = v.marks := by
  have hst : ({ tag := 0 } : Store).Coherent := Store.coherent_empty 0 {}
  have htext : Respacing.doubled.text "let x= // a b\r\n\t( 1 + \r ?" =
      "let  x=  // a b\r\n\t\t(  1  +  \r  ?" := by
    decide +kernel
  obtain ⟨-, houtline, hexists, hmarks⟩ :=
    respacing_harmless .doubled "let x= // a b\r\n\t( 1 + \r ?" hst hst
  rw [htext] at houtline hexists hmarks
  obtain ⟨v, s, v', s', hparse, hparse'⟩ := hexists (by decide) (by decide)
  exact ⟨hst, htext, houtline, v, s, v', s', hparse, hparse', hmarks v s v' s' hparse hparse'⟩

end Verbatim
