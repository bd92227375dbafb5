import Verbatim.Proofs.Findings
import Verbatim.Proofs.Lossless
import Verbatim.Proofs.Standing

/-!
# The content of tokens and of unexpected text

What a store keeps of a token can be cut where its trivia ends and where its trailing trivia starts.
A placeholder is trimmed to an empty span. Unexpected text is trimmed to what stands from the
content of its first token to the content of its last.
-/

namespace Verbatim

namespace Token

/-- The content of a token that was stored is that of the token. -/
theorem trimmedText_stored (t : Token) : t.stored.trimmedText = .ok (String.ofList t.content) := by
  have htext : t.stored.text.toList =
      Trivia.chars t.leading ++ (t.content ++ Trivia.chars t.trailing) := by
    simp [stored, chars]
  have hwidth : t.stored.width - t.stored.trailingWidth =
      Text.byteLength (Trivia.chars t.leading) + Text.byteLength t.content := by
    rw [width_stored, trailingWidth_stored, chars, Text.byteLength_append, Text.byteLength_append,
      Nat.add_sub_cancel]
  rw [TokenData.trimmedText, TokenData.cut, hwidth, leadingWidth_stored, Text.slice?_append htext]

/-- Where the contents of tokens stand that follow each other from an offset on. -/
def contentSpans (offset : Nat) : List Token → List Text.Span
  | [] => []
  | t :: rest =>
    ⟨offset + t.stored.leadingWidth, offset + t.stored.width - t.stored.trailingWidth⟩ ::
      contentSpans (offset + t.stored.width) rest

/-- The last content ends where the trailing trivia of the last token begins. -/
theorem stop_getLast?_contentSpans (offset : Nat) (tokens : List Token) :
    (contentSpans offset tokens).getLast?.map Text.Span.stop =
      tokens.getLast?.map fun u => offset + widthOf tokens - u.stored.trailingWidth := by
  induction tokens generalizing offset with
  | nil => rfl
  | cons t rest ih =>
    cases rest with
    | nil => simp [contentSpans, widthOf, width_stored]
    | cons u rest =>
      have htail := ih (offset + t.stored.width)
      rw [contentSpans] at htail
      rw [contentSpans, contentSpans, List.getLast?_cons_cons, List.getLast?_cons_cons, htail]
      simp [widthOf, width_stored, Nat.add_assoc]

/-- Between the leading trivia of the first token and the trailing trivia of the last one stands
something. -/
theorem exists_middle {t u : Token} {rest : List Token} (hlast : (t :: rest).getLast? = some u) :
    ∃ middle, (t :: rest).flatMap chars =
      Trivia.chars t.leading ++ (middle ++ Trivia.chars u.trailing) := by
  induction rest generalizing t with
  | nil =>
    obtain rfl := Option.some.inj hlast
    exact ⟨t.content, by simp [chars]⟩
  | cons x rest ih =>
    obtain ⟨middle, hmiddle⟩ := ih (by rwa [List.getLast?_cons_cons] at hlast)
    refine ⟨t.content ++ Trivia.chars t.trailing ++ Trivia.chars x.leading ++ middle, ?_⟩
    rw [List.flatMap_cons, hmiddle]
    simp [chars]

end Token

namespace View

/-- A traversal of slots with tokens enters these tokens. -/
theorem entriesIn_tokens {closed : View → Bool} {parent : View} {index start : Nat}
    {tokens : List Token} {built : List Slot}
    (h : Sketch.BuiltAll (tokens.map Sketch.token) built) :
    (entriesIn closed parent index start built).map contentSpan =
        Token.contentSpans start tokens ∧
      ∀ c ∈ entriesIn closed parent index start built, c.isNode = false ∧
        ∃ t ∈ tokens, c.trimmedText = .ok (String.ofList t.content) := by
  induction tokens generalizing index start built with
  | nil =>
    obtain rfl := h
    exact ⟨rfl, nofun⟩
  | cons t tokens ih =>
    obtain ⟨_, rest, rfl, ⟨g, rfl, hg⟩, hrest⟩ := h
    obtain ⟨hspans, hcontent⟩ := @ih (index + 1) (start + g.data.width) rest hrest
    rw [entriesIn, entriesAt, List.singleton_append]
    refine ⟨?_, fun c hc => ?_⟩
    · rw [List.map_cons, Green.width, hspans, Token.contentSpans, hg]
      simp [contentSpan, green, span, offset, width, Green.width, hg]
    · rcases List.mem_cons.mp hc with rfl | hc
      · refine ⟨rfl, t, List.mem_cons_self, ?_⟩
        simp only [trimmedText, green, hg, t.trimmedText_stored]
      · obtain ⟨hnode, u, hu, htext⟩ := hcontent c hc
        exact ⟨hnode, u, List.mem_cons_of_mem _ hu, htext⟩

/-- A token of a tree that was built from a sketch can be cut. -/
theorem exists_trimmedText {v : View} {s : Sketch} (h : s.Built (some v.green))
    (hnode : v.isNode = false) : ∃ text, v.trimmedText = .ok text := by
  cases s with
  | token t =>
    obtain ⟨g, hg, hdata⟩ := h
    refine ⟨String.ofList t.content, ?_⟩
    simp only [trimmedText, Option.some.inj hg, hdata, t.trimmedText_stored]
  | missing kind =>
    simp only [Sketch.Built] at h
    split at h
    · obtain ⟨g, hg, hdata⟩ := h
      refine ⟨"", ?_⟩
      rw [trimmedText, Option.some.inj hg]
      simp only [hdata]
      rfl
    · obtain ⟨id, hg⟩ := h
      simp [isNode, Option.some.inj hg, Green.isNode] at hnode
  | absent => cases h
  | node kind late slots =>
    obtain ⟨id, built, hg, -⟩ := h
    simp [isNode, Option.some.inj hg, Green.isNode] at hnode

/-- A placeholder is trimmed to an empty span. -/
theorem trimmedSpan_of_missing {v : View} {kind : Kind}
    (h : (Sketch.missing kind).Built (some v.green)) :
    v.trimmedSpan = .ok ⟨v.offset, v.offset⟩ := by
  simp only [Sketch.Built] at h
  split at h
  · obtain ⟨g, hg, hdata⟩ := h
    have hg := Option.some.inj hg
    simp [trimmedSpan, isNode, hg, Green.isNode, contentSpan, span, width, Green.width, hdata,
      TokenData.width, TokenData.leadingWidth, TokenData.trailingWidth, TriviaPiece.total, pure,
      Except.pure]
  · obtain ⟨id, hg⟩ := h
    have hg := Option.some.inj hg
    have hnode : v.isNode = true := by rw [isNode, hg]; rfl
    have htokens : v.tokens = [] := by
      rw [tokens, descendants_eq, hg, entriesAt, entriesIn_replicate_none]
      simp [hnode]
    rw [trimmedSpan, if_pos hnode, solidTokens, htokens]
    rfl

section Stray

variable {v : View} {late : Bool} {t u : Token} {rest : List Token}

/-- All tokens of unexpected text have content, and it stands where the tokens put it. -/
theorem solidTokens_of_stray
    (h : (Sketch.node .unexpected late ((t :: rest).map Sketch.token)).Built (some v.green))
    (hsolid : ∀ x ∈ t :: rest, x.content ≠ []) :
    v.isNode = true ∧ v.solidTokens = .ok v.tokens ∧
      v.tokens.map contentSpan = Token.contentSpans v.offset (t :: rest) := by
  obtain ⟨id, built, hg, hbuilt⟩ := h
  have hg := Option.some.inj hg
  have hnode : v.isNode = true := by rw [isNode, hg]; rfl
  obtain ⟨hspans, hcontent⟩ := @entriesIn_tokens (fun _ => false) v 0 v.offset _ _ hbuilt
  have htokens : v.tokens = entriesIn (fun _ => false) v 0 v.offset built := by
    rw [tokens, descendants_eq, hg, entriesAt, List.filter_cons, if_neg (by simp [hnode]),
      if_neg (by simp), List.filter_eq_self]
    exact fun c hc => by simp [(hcontent c hc).1]
  have htest : ∀ c ∈ v.tokens, (do return !(← trimmedText c).isEmpty : Except Fault Bool) =
      .ok true := by
    intro c hc
    rw [htokens] at hc
    obtain ⟨-, x, hx, htext⟩ := hcontent c hc
    have hempty : (String.ofList x.content).isEmpty = false := by simp [hsolid x hx]
    rw [htext]
    simp only [bind, Except.bind, hempty]
    rfl
  have hall : v.solidTokens = .ok v.tokens := by
    rw [solidTokens, filterM_eq_ok htest, List.filter_eq_self.mpr fun _ _ => rfl]
  exact ⟨hnode, hall, by rw [htokens, hspans]⟩

/-- Unexpected text is trimmed from the content of its first token to the content of its last. -/
theorem trimmedSpan_of_stray
    (h : (Sketch.node .unexpected late ((t :: rest).map Sketch.token)).Built (some v.green))
    (hsolid : ∀ x ∈ t :: rest, x.content ≠ []) (hlast : (t :: rest).getLast? = some u) :
    v.trimmedSpan = .ok ⟨v.offset + t.stored.leadingWidth,
      v.offset + Token.widthOf (t :: rest) - u.stored.trailingWidth⟩ := by
  obtain ⟨hnode, hfound, hspans⟩ := solidTokens_of_stray h hsolid
  cases htokens : v.tokens with
  | nil =>
    rw [htokens] at hspans
    cases hspans
  | cons c cs =>
    rw [htokens] at hfound hspans
    have hfirst : c.contentSpan.start = v.offset + t.stored.leadingWidth := by
      rw [List.map_cons, Token.contentSpans, List.cons.injEq] at hspans
      rw [hspans.1]
    obtain ⟨d, hd⟩ : ∃ d, (c :: cs).getLast? = some d := ⟨_, List.getLast?_cons ..⟩
    have hstop : d.contentSpan.stop =
        v.offset + Token.widthOf (t :: rest) - u.stored.trailingWidth := by
      have hmap := Token.stop_getLast?_contentSpans v.offset (t :: rest)
      rw [← hspans, List.getLast?_map, hd, hlast] at hmap
      exact Option.some.inj hmap
    rw [trimmedSpan, if_pos hnode, hfound]
    simp only [bind, Except.bind, hd, ← hfirst, ← hstop]
    rfl

/-- The text of unexpected text from its first content to its last can be cut out. -/
theorem exists_innerText_of_stray
    (h : (Sketch.node .unexpected late ((t :: rest).map Sketch.token)).Built (some v.green))
    (hsolid : ∀ x ∈ t :: rest, x.content ≠ []) : ∃ text, v.innerText = .ok text := by
  obtain ⟨u, hlast⟩ : ∃ u, (t :: rest).getLast? = some u := ⟨_, List.getLast?_cons ..⟩
  obtain ⟨middle, hmiddle⟩ := Token.exists_middle hlast
  have htext : v.text.toList =
      Trivia.chars t.leading ++ (middle ++ Trivia.chars u.trailing) := by
    rw [← hmiddle, text, h.toList_text, Sketch.tokens, Sketch.tokensOf_map_token]
  have hwidth := Token.widthOf_eq (t :: rest)
  rw [hmiddle, Text.byteLength_append, Text.byteLength_append, ← u.trailingWidth_stored] at hwidth
  have hstart : v.offset + t.stored.leadingWidth - v.offset =
      Text.byteLength (Trivia.chars t.leading) := by
    rw [Nat.add_sub_cancel_left, t.leadingWidth_stored]
  have hstop : v.offset + Token.widthOf (t :: rest) - u.stored.trailingWidth - v.offset =
      Text.byteLength (Trivia.chars t.leading) + Text.byteLength middle := by
    omega
  refine ⟨String.ofList middle, ?_⟩
  rw [innerText, trimmedSpan_of_stray h hsolid hlast]
  simp only [bind, Except.bind, hstart, hstop, Text.slice?_append htext]
  rfl

end Stray

end View

end Verbatim
