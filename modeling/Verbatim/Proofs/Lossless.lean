import Verbatim.Proofs.Leaves
import Verbatim.Proofs.Parsing

/-!
# Nothing is lost

The present tokens of the tree of a text are the tokens of the text, each with its text and its
trivia; every other token of the tree is a placeholder without text. So the tree spells the text.
-/

namespace Verbatim

namespace Sketch

/-- A statement about the tokens of a slot follows from one about the slots of its node. -/
private theorem leaves_induct {P : List TokenData → List Token → Prop} (nil : P [] [])
    (token : ∀ t, P [t.stored] [t]) (placeholder : ∀ kind, P [placeholder kind] [])
    (append : ∀ {a b : List TokenData} {c d : List Token}, P a c → P b d → P (a ++ b) (c ++ d))
    (s : Sketch) : P s.leaves s.tokens := by
  induction s using Sketch.induct with
  | token t => exact token t
  | missing kind =>
    rw [leaves, tokens]
    split
    · exact placeholder kind
    · exact nil
  | absent => exact nil
  | node kind late slots ih =>
    rw [leaves, tokens]
    induction slots with
    | nil => exact nil
    | cons s slots ihslots =>
      exact append (ih s List.mem_cons_self)
        (ihslots fun t ht => ih t (List.mem_cons_of_mem _ ht))

/-- The present tokens of a sketch are those that were read. -/
theorem filter_leaves (s : Sketch) :
    (s.leaves.filter fun d => d.presence == .present) = s.tokens.map Token.stored :=
  leaves_induct (P := fun leaves tokens =>
      (leaves.filter fun d => d.presence == .present) = tokens.map Token.stored)
    rfl (fun _ => rfl) (fun _ => rfl)
    (fun ha hb => by rw [List.filter_append, List.map_append, ha, hb]) s

/-- The other tokens of a sketch are placeholders. -/
theorem eq_placeholder_of_mem_leaves (s : Sketch) :
    ∀ d ∈ s.leaves, d.presence = .missing → d = placeholder d.kind :=
  leaves_induct (P := fun leaves _ =>
      ∀ d ∈ leaves, d.presence = .missing → d = placeholder d.kind)
    nofun (by simp [Token.stored]) (by simp [placeholder])
    (fun ha hb d hd => (List.mem_append.mp hd).elim (ha d) (hb d)) s

/-- The tokens of a sketch spell what was read. -/
theorem flatMap_leaves (s : Sketch) :
    (s.leaves.flatMap fun d => d.text.toList) = s.tokens.flatMap Token.chars :=
  leaves_induct (P := fun leaves tokens =>
      (leaves.flatMap fun d => d.text.toList) = tokens.flatMap Token.chars)
    rfl (by simp [Token.stored]) (by simp [placeholder])
    (fun ha hb => by rw [List.flatMap_append, List.flatMap_append, ha, hb]) s

end Sketch

/-- The text of a tree is spelled by its leaves. -/
theorem Green.toList_text (g : Green) :
    g.text.toList = g.leaves.flatMap fun t => t.data.text.toList := by
  have hfoldl (tokens : List GreenToken) (before : String) :
      (tokens.foldl (fun text t => text ++ t.data.text) before).toList =
        before.toList ++ tokens.flatMap fun t => t.data.text.toList := by
    induction tokens generalizing before with
    | nil => simp
    | cons t tokens ih => simp [ih]
  rw [text, hfoldl, tokens_eq]
  rfl

/-- What was built from a sketch spells what was read into it. -/
theorem Sketch.Built.toList_text {s : Sketch} {g : Green} (h : s.Built (some g)) :
    g.text.toList = s.tokens.flatMap Token.chars := by
  have hleaves := h.leaves_eq
  rw [Green.leavesOf, Green.leavesOf, List.append_nil] at hleaves
  rw [Green.toList_text, ← s.flatMap_leaves, ← hleaves, List.flatMap_map]

namespace Green.Parsed

variable {g : Green} {text : String} {items : List Sketch} {n : Nesting}

/-- The leaves of the tree of a text are those of the sketch of its file. -/
theorem leaves_eq (h : g.Parsed text items n) :
    g.tokens.map GreenToken.data = (Sketch.file items (tokenize text).eof).leaves := by
  have hleaves := h.built.leaves_eq
  rwa [leavesOf, leavesOf, List.append_nil, ← tokens_eq] at hleaves

/-- The tree of a text spells the text. -/
theorem text_eq (h : g.Parsed text items n) : g.text = text := by
  apply String.toList_inj.mp
  calc g.text.toList
    _ = (tokenize text).toList.flatMap Token.chars := by
      rw [h.built.toList_text, h.reads.tokens_file]
    _ = text.toList := chars_tokenize text

/-- The tree of a text is as wide as the text. -/
theorem width_eq (h : g.Parsed text items n) : g.width = text.utf8ByteSize :=
  h.built.width_eq.trans h.reads.width_file

end Green.Parsed

/-- For every text of less than 2^28 bytes and every coherent store, a tree comes out of the parse.
Its present tokens are the tokens of the text up to the end of file, in order and with their trivia,
all its other tokens are placeholders without text, and it spells the text. -/
theorem parse_lossless {st : Store} (hst : st.Coherent) {text : String}
    (hlen : text.utf8ByteSize < 1 <<< 28) :
    ∃ v st', parse text st = (.ok v, st') ∧ st'.Coherent ∧
      v.tokens.map View.green = v.green.tokens.map Green.token ∧
      (v.green.tokens.filter fun t => t.data.presence == .present).map GreenToken.data =
        (tokenize text).toList.map Token.stored ∧
      (∀ t ∈ v.green.tokens, t.data.presence = .missing →
        t.data.text = "" ∧ t.data.leading = [] ∧ t.data.trailing = []) ∧
      v.text = text ∧ v.span = ⟨0, text.utf8ByteSize⟩ := by
  obtain ⟨v, st', hparse⟩ := exists_parse_eq_ok hst hlen
  obtain ⟨hst', g, items, y, rfl, -, hg⟩ := exists_of_parse_eq_ok hst hparse
  refine ⟨_, st', hparse, hst', View.map_green_tokens _, ?_, fun t ht hmissing => ?_,
    hg.text_eq, ?_⟩
  · rw [← hg.reads.tokens_file, ← Sketch.filter_leaves, ← hg.leaves_eq, List.filter_map]
    rfl
  · have hmem : t.data ∈ (Sketch.file items (tokenize text).eof).leaves :=
      hg.leaves_eq ▸ List.mem_map_of_mem ht
    have hdata := Sketch.eq_placeholder_of_mem_leaves _ _ hmem hmissing
    rw [hdata]
    exact ⟨rfl, rfl, rfl⟩
  · simp [View.span, Text.Span.ofWidth, View.offset, View.width, View.green, hg.width_eq]

/-- A text that fits no production, with a comment at its end, in a store that has made nothing. -/
theorem parse_lossless_stray :
    ({ tag := 0 } : Store).Coherent ∧ "let = ) (é // é".utf8ByteSize < 1 <<< 28 ∧
      ∃ v st', parse "let = ) (é // é" { tag := 0 } = (.ok v, st') ∧
        (v.green.tokens.filter fun t => t.data.presence == .present).map GreenToken.data =
          (tokenize "let = ) (é // é").toList.map Token.stored ∧
        v.text = "let = ) (é // é" ∧ v.span = ⟨0, 17⟩ := by
  have hst : ({ tag := 0 } : Store).Coherent := Store.coherent_empty 0 {}
  have hlen : "let = ) (é // é".utf8ByteSize < 1 <<< 28 := by decide
  obtain ⟨v, st', hparse, -, -, htokens, -, htext, hspan⟩ := parse_lossless hst hlen
  exact ⟨hst, hlen, v, st', hparse, htokens, htext, hspan⟩

end Verbatim
