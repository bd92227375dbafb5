import Verbatim.Proofs.Assembling
import Verbatim.Proofs.Diagnosing
import Verbatim.Proofs.Keywords

/-!
# Where the diagnostics of a text point

The markers of the tree of a text stand between its tokens, so the text of a marker is found in the
whole text at the offset of the marker, and what is cut out of the one can be cut out of the other.
A placeholder points between two characters. Tokens that were set aside all have content, so they
are pointed at from the content of the first to the content of the last, and quoted from there.
-/

namespace Verbatim

namespace Text

variable {text part whole : String} {start stop : Nat}

/-- What is cut out of a text can be cut out where the text stands in a longer one. -/
theorem slice?_within {front back : List Char}
    (hwhole : whole.toList = front ++ (text.toList ++ back))
    (h : slice? text start stop = some part) (hle : start ≤ stop) :
    slice? whole (byteLength front + start) (byteLength front + stop) = some part := by
  obtain ⟨before, after, htext, rfl, rfl⟩ := exists_of_slice?_eq_some h hle
  have hsplit : whole.toList = (front ++ before) ++ (part.toList ++ (after ++ back)) := by
    rw [hwhole, htext]
    simp only [List.append_assoc]
  have hslice := slice?_append hsplit
  rwa [byteLength_append, String.ofList_toList, Nat.add_assoc] at hslice

/-- A text is cut at offsets within it that lie between characters. -/
theorem boundaries_of_slice?_eq_some (h : slice? text start stop = some part) (hle : start ≤ stop) :
    stop ≤ text.utf8ByteSize ∧ isBoundary text.toList start = true ∧
      isBoundary text.toList stop = true := by
  obtain ⟨before, after, htext, rfl, rfl⟩ := exists_of_slice?_eq_some h hle
  have hsplit : text.toList = (before ++ part.toList) ++ after := by
    rw [htext, List.append_assoc]
  refine ⟨?_, isBoundary_iff.mpr ⟨_, _, htext, rfl⟩,
    isBoundary_iff.mpr ⟨_, _, hsplit, byteLength_append ..⟩⟩
  rw [← byteLength_toList, hsplit, byteLength_append, byteLength_append]
  omega

end Text

/-- Tokens with content cover a span that is not empty. -/
theorem Token.Covers.start_lt_stop {before tokens : List Token} {span : Text.Span}
    (h : Covers before tokens span) (hne : tokens ≠ []) (hsolid : ∀ t ∈ tokens, t.Solid) :
    span.start < span.stop := by
  cases h with
  | nothing => exact absurd rfl hne
  | @stretch t u rest hlast =>
    have ht := (hsolid t List.mem_cons_self).trivia_lt
    rw [widthOf_cons]
    cases rest with
    | nil =>
      obtain rfl : t = u := Option.some.inj hlast
      have hnone : widthOf [] = 0 := rfl
      simp only
      omega
    | cons x rest =>
      rw [List.getLast?_cons_cons] at hlast
      have hu := trailingWidth_lt_widthOf (fun y hy => hsolid y (List.mem_cons_of_mem _ hy)) hlast
      simp only
      omega

/-- What was built from a sketch that conforms and fits is genuine. -/
theorem Sketch.Built.genuine {s : Sketch} {g : Green} (h : s.Built (some g)) (hs : s.Conforms)
    (hwidth : s.width < Width.limit) : g.Genuine := by
  induction s using Sketch.induct generalizing g with
  | token t =>
    obtain ⟨built, hg, hdata⟩ := h
    obtain rfl := Option.some.inj hg
    have hfits : Text.byteLength t.chars < Width.limit := by
      simpa [width, tokens] using hwidth
    exact .token (hdata ▸ Token.check_stored hfits) (hdata ▸ hs)
  | missing kind =>
    simp only [Built] at h
    split at h
    · next hkind =>
      obtain ⟨built, hg, hdata⟩ := h
      obtain rfl := Option.some.inj hg
      have hpos : 0 < Width.limit := by decide
      refine .token (hdata ▸ TokenData.check_eq_ok_iff.mpr ⟨Nat.le_refl 0, hpos, .inr rfl⟩) ?_
      rw [hdata]
      exact hkind
    · obtain ⟨id, hg⟩ := h
      obtain rfl := Option.some.inj hg
      have hempty (c : Green) : some c ∉ List.replicate kind.slotSpecs.length none := by simp
      have hblank := @Green.Genuine.node id kind .missing _ (fun c hc => absurd hc (hempty c))
        (by rw [Green.slotsWidth_replicate_none]; decide) fun _ c hc => absurd hc (hempty c)
      rwa [Green.slotsWidth_replicate_none] at hblank
  | absent => cases h
  | node kind late slots ih =>
    obtain ⟨id, built, hg, hbuilt⟩ := h
    obtain rfl := Option.some.inj hg
    have hslots : Green.slotsWidth built = widthOf slots :=
      hbuilt.slotsWidth_eq fun s _ slot hs => hs.width_eq
    refine .node (fun c hc => ?_) (hslots ▸ hwidth) (by simp)
    obtain ⟨s, hmem, hc⟩ := hbuilt.exists_of_mem hc
    exact ih s hmem hc (hs.of_mem hmem) (Nat.lt_of_le_of_lt (width_le_widthOf hmem) hwidth)

namespace View

variable {whole s : Sketch} {v d m : View} {before : List Token} {quoted : String}

/-- A node whose tokens all have content is trimmed to the content of the first and the last. -/
theorem exists_trimmedSpan_of_solidTokens (hnode : v.isNode = true)
    (hsolid : v.solidTokens = .ok v.tokens) (hne : v.tokens ≠ []) :
    ∃ first last, v.tokens.head? = some first ∧ v.tokens.getLast? = some last ∧
      v.trimmedSpan = .ok ⟨first.contentSpan.start, last.contentSpan.stop⟩ := by
  obtain ⟨first, rest, htokens⟩ := List.exists_cons_of_ne_nil hne
  obtain ⟨last, hlast⟩ : ∃ last, (first :: rest).getLast? = some last :=
    ⟨_, List.getLast?_cons ..⟩
  rw [htokens] at hsolid
  refine ⟨first, last, by rw [htokens]; rfl, by rw [htokens, hlast], ?_⟩
  rw [trimmedSpan, if_pos hnode, hsolid]
  simp only [bind, Except.bind, hlast]
  rfl

/-- About unexpected text its text is said, and that it stands at the top level if it does. -/
theorem Legible.finding_of_unexpected (h : m.Legible) (hnode : m.isNode = true)
    (hkind : m.kind = .unexpected) (hquoted : m.innerText = .ok quoted) :
    m.finding = .ok (if m.parent?.any (·.kind == .itemList) then
      (.extraneousTopLevelCode, s!"`{quoted}` is not allowed at the top level")
      else (.unexpectedText, s!"unexpected `{quoted}`")) := by
  cases htop : m.parent?.any (·.kind == .itemList) with
  | true =>
    have hrule : topLevelCode ∈ contextualRules := by simp [contextualRules]
    refine h.finding_eq_of_rule hrule ?_
    rw [topLevelCode, if_pos (by simp [hnode, hkind, htop]), hquoted]
    rfl
  | false =>
    have hnone : ∀ rule ∈ contextualRules, rule m = .ok none := by
      intro rule hrule
      obtain ⟨found, hfound⟩ := exists_rule h hrule
      cases found with
      | none => exact hfound
      | some found =>
        simp only [contextualRules, List.mem_cons, List.not_mem_nil, or_false] at hrule
        rcases hrule with rfl | rfl | rfl | rfl
        · exact absurd (hkind.symm.trans (of_missingOperand hfound).2) (by decide)
        · exact absurd (hnode.symm.trans (of_unclosedDelimiter hfound)) (by decide)
        · exact absurd (hkind.symm.trans (of_missingBody hfound).2) (by decide)
        · rw [topLevelCode, if_neg (by simp [htop])] at hfound
          cases hfound
    rw [finding_eq_generalFinding hnone, generalFinding, if_neg (by simp [hnode]), if_pos hkind,
      hquoted]
    rfl

/-- What was set aside is pointed at from the content of its first token to the content of its
last. -/
theorem exists_trimmedSpan_of_stray {late : Bool} {t : Token} {rest : List Token}
    (h : (Sketch.node .unexpected late ((t :: rest).map Sketch.token)).Built (some v.green))
    (hsolid : ∀ x ∈ t :: rest, x.content ≠ []) :
    ∃ first last, v.tokens.head? = some first ∧ v.tokens.getLast? = some last ∧
      v.trimmedSpan = .ok ⟨first.contentSpan.start, last.contentSpan.stop⟩ := by
  obtain ⟨hnode, hall, hspans⟩ := solidTokens_of_stray h hsolid
  refine exists_trimmedSpan_of_solidTokens hnode hall fun hnil => ?_
  rw [hnil] at hspans
  cases hspans

/-- A marker shows tokens just if nothing is missing. -/
theorem Shows.tokens_eq_nil_iff (hs : s.IsMark) (h : Shows whole d s before) :
    s.tokens = [] ↔ d.isMissing = true := by
  have hbuilt := h.built
  cases hs with
  | missing kind =>
    refine ⟨fun _ => ?_, fun _ => rfl⟩
    simp only [Sketch.Built] at hbuilt
    split at hbuilt
    · obtain ⟨t, hg, hdata⟩ := hbuilt
      simp [isMissing, Option.some.inj hg, Green.isMissing, Green.presence, hdata]
    · obtain ⟨id, hg⟩ := hbuilt
      simp [isMissing, Option.some.inj hg, Green.isMissing, Green.presence]
  | stray hsolid =>
    obtain ⟨id, built, hg, -⟩ := hbuilt
    rw [Sketch.tokens, Sketch.tokensOf_map_token]
    simp [isMissing, Option.some.inj hg, Green.isMissing, Green.presence]

/-- The text of a node is cut out of its own text. -/
theorem slice?_of_innerText {span : Text.Span} (hspan : v.trimmedSpan = .ok span)
    (hquoted : v.innerText = .ok quoted) :
    Text.slice? v.text (span.start - v.offset) (span.stop - v.offset) = some quoted := by
  rw [innerText, hspan] at hquoted
  simp only [bind, Except.bind] at hquoted
  split at hquoted
  · next part hpart =>
    rw [hpart, Except.ok.inj hquoted]
  · cases hquoted

/-- The text of a marker stands in the text behind the tokens before it. -/
theorem Shows.exists_toList_eq {text : String} {after : List Token} (h : Shows whole d s before)
    (htokens : (tokenize text).tokens = before ++ (s.tokens ++ after)) :
    ∃ front back, text.toList = front ++ (d.text.toList ++ back) ∧
      Text.byteLength front = d.offset := by
  refine ⟨before.flatMap Token.chars, (after ++ [(tokenize text).eof]).flatMap Token.chars, ?_, ?_⟩
  · rw [← chars_tokenize, TokenStream.toList, htokens, View.text, h.built.toList_text]
    simp only [List.flatMap_append, List.append_assoc]
  · rw [h.offset_eq, Token.widthOf_eq]

end View

namespace Green.Parsed

variable {g : Green} {text : String} {items : List Sketch} {n : Nesting} {store : Nat} {d : View}

/-- The text of a marker can be cut out of the whole text where the marker points. -/
theorem exists_quoted (h : g.Parsed text items n) (hd : d ∈ (View.root store g).markers) :
    ∃ span quoted, d.trimmedSpan = .ok span ∧ d.innerText = .ok quoted ∧
      span.start ≤ span.stop ∧ Text.slice? text span.start span.stop = some quoted ∧
      (span.start = span.stop ↔ d.isMissing = true) := by
  obtain ⟨s, before, after, hshows, hs, htokens⟩ := h.exists_of_mem_markers hd
  obtain ⟨span, hspan, hcovers⟩ := View.exists_trimmedSpan hs hshows
  obtain ⟨quoted, hquoted⟩ := View.exists_innerText hs hshows.built
  obtain ⟨front, back, htext, hfront⟩ := hshows.exists_toList_eq htokens
  have hsolid : ∀ t ∈ s.tokens, t.Solid := fun t ht =>
    solid_of_mem_tokenize text t (by simp [htokens, ht])
  have hempty : span.start ≤ span.stop ∧ (span.start = span.stop ↔ s.tokens = []) := by
    by_cases hnil : s.tokens = []
    · rw [hnil] at hcovers
      cases hcovers with
      | nothing => simp [hnil]
    · have hlt := hcovers.start_lt_stop hnil hsolid
      simp only [hnil, iff_false]
      omega
  have hoffset : d.offset ≤ span.start := hshows.offset_eq ▸ hcovers.le_start
  have hslice := Text.slice?_within htext (View.slice?_of_innerText hspan hquoted) (by omega)
  rw [hfront, Nat.add_sub_cancel' hoffset, Nat.add_sub_cancel' (by omega)] at hslice
  exact ⟨span, quoted, hspan, hquoted, hempty.1, hslice,
    hempty.2.trans (hshows.tokens_eq_nil_iff hs)⟩

/-- What is missing is pointed at where it stands. -/
theorem trimmedSpan_of_isMissing (h : g.Parsed text items n)
    (hd : d ∈ (View.root store g).markers) (hmissing : d.isMissing = true) :
    d.trimmedSpan = .ok ⟨d.offset, d.offset⟩ := by
  obtain ⟨s, before, after, hshows, hs, -⟩ := h.exists_of_mem_markers hd
  have hnil := (hshows.tokens_eq_nil_iff hs).mpr hmissing
  cases hs with
  | missing kind => exact View.trimmedSpan_of_missing hshows.built
  | stray _ => simp [Sketch.tokens, Sketch.tokensOf] at hnil

/-- A marker that misses nothing is unexpected text. -/
theorem kind_of_present (h : g.Parsed text items n) (hd : d ∈ (View.root store g).markers)
    (hpresent : d.isMissing = false) : d.kind = .unexpected := by
  obtain ⟨hmarker, -⟩ := View.exists_shows_of_mem_markers (h.shows store) hd
  simp only [View.isMarker, hpresent, Bool.false_or, Bool.and_eq_true, beq_iff_eq] at hmarker
  exact hmarker.2

/-- Unexpected text is pointed at from the content of its first token to the content of its
last. -/
theorem exists_trimmedSpan_of_unexpected (h : g.Parsed text items n)
    (hd : d ∈ (View.root store g).markers) (hkind : d.kind = .unexpected) :
    d.isNode = true ∧ ∃ first last, d.tokens.head? = some first ∧ d.tokens.getLast? = some last ∧
      d.trimmedSpan = .ok ⟨first.contentSpan.start, last.contentSpan.stop⟩ := by
  obtain ⟨s, before, after, hshows, hs, -⟩ := h.exists_of_mem_markers hd
  have hwhole : (Sketch.file items (tokenize text).eof).AllAttentive False :=
    h.reads.allAttentive_file False.elim (final_tokenize text).eq_eof
  cases hs with
  | missing kind =>
    obtain ⟨_, _, _, hstray, -⟩ := hshows.exists_tokens hwhole hkind
    cases hstray
  | stray hsolid =>
    exact ⟨(View.solidTokens_of_stray hshows.built hsolid).1,
      View.exists_trimmedSpan_of_stray hshows.built hsolid⟩

theorem legible (h : g.Parsed text items n) (hd : d ∈ (View.root store g).markers) :
    d.Legible := by
  obtain ⟨s, before, after, hshows, hs, -⟩ := h.exists_of_mem_markers hd
  exact hshows.legible hs

/-- Each marker of the tree of a text that fits is diagnosed once, and what is found there is
said. -/
theorem exists_diagnostics_of_fits (h : g.Parsed text items n)
    (hfits : text.utf8ByteSize < Width.limit) (store : Nat) :
    ∃ ds, (View.root store g).diagnostics = .ok ds ∧
      (ds.map Diagnostic.anchor).Perm (View.root store g).markers ∧
      ∀ d ∈ ds, d.anchor.finding = .ok (d.id, d.message) := by
  have hroot : View.Stands (.root store g) (.root store g) := ⟨trivial, rfl⟩
  have hgenuine : g.Genuine :=
    h.built.genuine h.reads.conforms_file (by rw [h.reads.width_file]; exact hfits)
  have hnode : (View.root store g).isNode = true := by
    obtain ⟨id, built, hg, -⟩ := h.built
    rw [View.isNode, View.green, Option.some.inj hg]
    rfl
  refine hroot.exists_diagnostics_said hgenuine hnode (fun m hm => h.legible hm) fun m hm => ?_
  obtain ⟨span, quoted, hspan, -⟩ := h.exists_quoted hm
  exact ⟨span, hspan⟩

end Green.Parsed

/-- In the tree of every text diagnostics come out, with their conditions and messages, and each of
them has a span. A span lies in the text, and its ends lie between characters. It is empty just if
what is diagnosed is missing, and then it lies at its offset. Everything else is unexpected text:
its span runs from the content of its first token to the content of its last, and its message
quotes what stands there in the text. -/
theorem parse_diagnostics_pinpointed {st : Store} (hst : st.Coherent) (text : String) :
    (text.utf8ByteSize < 1 <<< 28 → ∃ v st', parse text st = (.ok v, st')) ∧
      ∀ v st', parse text st = (.ok v, st') → ∃ ds, v.diagnostics = .ok ds ∧
        ∀ d ∈ ds, ∃ span quoted, d.span = .ok span ∧
          (span.start ≤ span.stop ∧ span.stop ≤ text.utf8ByteSize) ∧
          Text.isBoundary text.toList span.start = true ∧
          Text.isBoundary text.toList span.stop = true ∧
          Text.slice? text span.start span.stop = some quoted ∧
          (span.start = span.stop ↔ d.anchor.isMissing = true) ∧
          (d.anchor.isMissing = true → span.start = d.anchor.offset) ∧
          (d.anchor.isMissing = false → d.anchor.kind = .unexpected) ∧
          (d.anchor.kind = .unexpected →
            (∃ first last, d.anchor.tokens.head? = some first ∧
              d.anchor.tokens.getLast? = some last ∧
              span = ⟨first.contentSpan.start, last.contentSpan.stop⟩) ∧
            (d.id, d.message) = if d.anchor.parent?.any (·.kind == .itemList) then
              (.extraneousTopLevelCode, s!"`{quoted}` is not allowed at the top level")
              else (.unexpectedText, s!"unexpected `{quoted}`")) := by
  refine ⟨exists_parse_eq_ok hst, fun v st' hparse => ?_⟩
  obtain ⟨hfits, -, g, items, y, rfl, -, hg⟩ := exists_fitting_of_parse_eq_ok hst hparse
  obtain ⟨ds, hds, hperm, hsaid⟩ := hg.exists_diagnostics_of_fits hfits st.tag
  refine ⟨ds, hds, fun d hd => ?_⟩
  have hmarker := hperm.mem_iff.mp (List.mem_map_of_mem hd)
  obtain ⟨span, quoted, hspan, hquoted, hle, hslice, hempty⟩ := hg.exists_quoted hmarker
  obtain ⟨hstop, hstart⟩ := Text.boundaries_of_slice?_eq_some hslice hle
  refine ⟨span, quoted, hspan, ⟨hle, hstop⟩, hstart.1, hstart.2, hslice, hempty, fun hmissing => ?_,
    hg.kind_of_present hmarker, fun hkind => ?_⟩
  · have htrimmed := hg.trimmedSpan_of_isMissing hmarker hmissing
    rw [Except.ok.inj (hspan.symm.trans htrimmed)]
  · obtain ⟨hnode, first, last, hfirst, hlast, htrimmed⟩ :=
      hg.exists_trimmedSpan_of_unexpected hmarker hkind
    refine ⟨⟨first, last, hfirst, hlast, Except.ok.inj (hspan.symm.trans htrimmed)⟩, ?_⟩
    have hfinding := (hg.legible hmarker).finding_of_unexpected hnode hkind hquoted
    exact Except.ok.inj ((hsaid d hd).symm.trans hfinding)

/-- A name is missing between characters of two bytes, and a brace is unexpected. -/
theorem parse_diagnostics_pinpointed_name :
    ({ tag := 0 } : Store).Coherent ∧
      ∃ v st' ds, parse "/* é */ let = 1 /* ü */ \x7d" { tag := 0 } = (.ok v, st') ∧
        v.diagnostics = .ok ds ∧ ∀ d ∈ ds, ∃ span, d.span = .ok span ∧ span.stop ≤ 27 ∧
          (span.start = span.stop ↔ d.anchor.isMissing = true) := by
  have hst : ({ tag := 0 } : Store).Coherent := Store.coherent_empty 0 {}
  obtain ⟨htotal, hexact⟩ := parse_diagnostics_pinpointed hst "/* é */ let = 1 /* ü */ \x7d"
  obtain ⟨v, st', hparse⟩ := htotal (by decide)
  obtain ⟨ds, hds, hspans⟩ := hexact v st' hparse
  refine ⟨hst, v, st', ds, hparse, hds, fun d hd => ?_⟩
  obtain ⟨span, quoted, hspan, hin, -, -, -, hempty, -⟩ := hspans d hd
  exact ⟨span, hspan, hin.2, hempty⟩

end Verbatim
