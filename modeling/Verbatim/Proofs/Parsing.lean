import Verbatim.Parse
import Verbatim.Proofs.Building
import Verbatim.Proofs.EventCount
import Verbatim.Proofs.Lexing

/-!
# The tree of a text

The tree that comes out of a parse is the one the grammar draws: the derivation of the items of the
text, with the end of the text after them. This holds of every text for which a tree comes out, and
for every text of less than 2^28 bytes one does. Everything else that is known of the trees of texts
follows from the derivation.
-/

namespace Verbatim

/-- A tree is what the derivation of the items of a text shows; the nesting is what the derivation
ends with. -/
structure Green.Parsed (g : Green) (text : String) (items : List Sketch) (n : Nesting) : Prop where
  reads : Reads Phrase.items ⟨(tokenize text).tokens, {}⟩ items ⟨[], n⟩
  built : (Sketch.file items (tokenize text).eof).Built (some g)

variable {text : String} {items : List Sketch} {n : Nesting}

/-- The sketch of a file holds the tokens of its text. -/
theorem Reads.tokens_file (h : Reads Phrase.items ⟨(tokenize text).tokens, {}⟩ items ⟨[], n⟩) :
    (Sketch.file items (tokenize text).eof).tokens = (tokenize text).toList := by
  have htokens := h.tokensOf_append_rest
  simp only [List.append_nil, Goal.held, Sketch.tokensOf, List.nil_append] at htokens
  simp [Sketch.file, Sketch.tokens, Sketch.tokensOf, htokens, TokenStream.toList]

/-- The sketch of a file follows the layouts. -/
theorem Reads.conforms_file (h : Reads Phrase.items ⟨(tokenize text).tokens, {}⟩ items ⟨[], n⟩) :
    (Sketch.file items (tokenize text).eof).Conforms := by
  have hitems : ∀ s ∈ items, s.Conforms :=
    h.conforms rfl (fun t ht => (solid_of_mem_tokenize text t ht).isToken) nofun
  have hlist : (Sketch.node .itemList false items).Conforms := by
    have hseq : Reads (Phrase.seq [.items]) ⟨(tokenize text).tokens, {}⟩ (items ++ []) ⟨[], n⟩ :=
      .cons h .nil
    rw [List.append_nil] at hseq
    exact hseq.conforms_node (by decide) (by decide) hitems
  have heof := (final_tokenize text).eq_eof
  refine ⟨by decide, ?_, nofun, nofun, hlist, ?_, trivial⟩
  · simp only [List.map_cons, List.map_nil, Sketch.kind?, heof]
    decide
  · rw [Sketch.Conforms, heof]
    rfl

/-- The sketch of a file is as wide as its text. -/
theorem Reads.width_file (h : Reads Phrase.items ⟨(tokenize text).tokens, {}⟩ items ⟨[], n⟩) :
    (Sketch.file items (tokenize text).eof).width = text.utf8ByteSize := by
  rw [Sketch.width, h.tokens_file]
  exact widthOf_tokenize text

/-- The steps of a text are those of the sketch of its file, if every node starts at a position that
fits. -/
theorem TokenStream.buildSteps_eq {y : Parser} (hparsed : (tokenize text).parsed = .ok y)
    (hreads : Reads Phrase.items ⟨(tokenize text).tokens, {}⟩ items ⟨[], n⟩)
    (hevents : y.events.toList = (Sketch.file items (tokenize text).eof).events none)
    (hfits : Event.Fits ((Sketch.file items (tokenize text).eof).events none)) :
    (tokenize text).buildSteps text = .ok (Sketch.file items (tokenize text).eof).steps := by
  rw [buildSteps, hparsed]
  change Event.resolve text y.events.toList = _
  rw [hevents]
  exact Event.resolve_events hreads.conforms_file
    (hreads.tokens_file ▸ placed_of_mem_tokenize text) hfits

/-- The events of a text of less than 2^28 bytes are those of the sketch of its file, and every node
starts at a position that fits. -/
theorem TokenStream.exists_parsed_events (hlen : text.utf8ByteSize < 1 <<< 28) :
    ∃ y items, (tokenize text).parsed = .ok y ∧
      Reads Phrase.items ⟨(tokenize text).tokens, {}⟩ items ⟨[], y.nesting⟩ ∧
      Event.Fits ((Sketch.file items (tokenize text).eof).events none) ∧
      y.events.toList = (Sketch.file items (tokenize text).eof).events none := by
  obtain ⟨items, q, hreads, hrest, hparsed⟩ := (tokenize text).exists_parsed
    fun t ht => (solid_of_mem_tokenize text t ht).ne_eof
  obtain ⟨rest, n⟩ := q
  obtain rfl : rest = [] := hrest
  have hfits := Sketch.fits_file hreads (tokenize text).eof
    (Nat.lt_of_le_of_lt (length_tokenize_le text) hlen)
  rcases hparsed with ⟨y, hy, hreader, -, hshows⟩ | ⟨-, hnot⟩
  · obtain rfl : y.nesting = n := congrArg Reader.nesting hreader
    have hevents := hshows.exact (by rwa [Draft.events_fill_empty])
    rw [Draft.events_fill_empty] at hevents
    exact ⟨y, items, hy, hreads, hfits, hevents⟩
  · rw [Draft.events_fill_empty] at hnot
    exact absurd hfits hnot

/-- Every node that a sketch opens is named. -/
theorem Sketch.Conforms.isNamed {s : Sketch} (h : s.Conforms) (forward : Option UInt32) :
    ∀ e ∈ s.events forward, e.isStart = true → e.isNamed = true := by
  induction s using Sketch.induct generalizing forward with
  | token t | missing k | absent => simp [events]
  | node k late slots ih =>
    intro e he hstart
    rcases mem_events_node he with rfl | rfl | ⟨s, hs, f, he⟩
    · exact bne_iff_ne.mpr h.1
    · cases hstart
    · exact ih s hs (h.of_mem hs) f e he hstart

/-- In a text of less than 2^28 bytes the parser completes every marker that it opens: no start is
left without a kind, and as many nodes end as start. -/
theorem TokenStream.markers_completed (hlen : text.utf8ByteSize < 1 <<< 28) :
    ∃ y, (tokenize text).parsed = .ok y ∧
      (∀ e ∈ y.events.toList, e.isStart = true → e.isNamed = true) ∧
      y.events.toList.countP Event.isStart = y.events.toList.countP Event.isFinish := by
  obtain ⟨y, items, hy, hreads, -, hevents⟩ := exists_parsed_events hlen
  refine ⟨y, hy, ?_⟩
  rw [hevents]
  exact ⟨hreads.conforms_file.isNamed none, Sketch.countP_events _ none⟩

section Store

variable {st st' : Store} {v : View}

/-- If a tree comes out of a parse, then the text fits, the tree is the one the grammar draws, and
the store stays coherent. -/
theorem exists_fitting_of_parse_eq_ok (hst : st.Coherent) (h : parse text st = (.ok v, st')) :
    text.utf8ByteSize < Width.limit ∧ st'.Coherent ∧
      ∃ g items y, v = .root st.tag g ∧ (tokenize text).parsed = .ok y ∧
        g.Parsed text items y.nesting := by
  obtain ⟨r, hr⟩ := hst
  obtain ⟨steps, _, hmade, hbuild⟩ := Alloc.exists_of_bind_eq_ok h
  obtain ⟨hsteps, rfl⟩ := Alloc.of_ofExcept_eq_ok hmade
  obtain ⟨g, st'', hrun, hroot⟩ := Alloc.exists_of_bind_eq_ok hbuild
  cases hroot
  obtain ⟨items, q, hreads, hrest, hparsed⟩ := (tokenize text).exists_parsed
    fun t ht => (solid_of_mem_tokenize text t ht).ne_eof
  obtain ⟨rest, n⟩ := q
  obtain rfl : rest = [] := hrest
  rcases hparsed with ⟨y, hy, hreader, -, hshows⟩ | ⟨⟨fault, hfault, -⟩, -⟩
  · obtain rfl : y.nesting = n := congrArg Reader.nesting hreader
    have hresolve : Event.resolve text y.events.toList = .ok steps := by
      rw [TokenStream.buildSteps, hy] at hsteps
      exact hsteps
    obtain ⟨hfits, hevents⟩ := hshows.events_eq_of_run hresolve hrun
    rw [TokenStream.buildSteps_eq hy hreads hevents hfits] at hsteps
    cases hsteps
    by_cases hwidth : (Sketch.file items (tokenize text).eof).width < Width.limit
    · obtain ⟨g', t, r', hrun', ht, -, htag, hbuilt⟩ :=
        Sketch.makes_run hreads.conforms_file hwidth hr
      rw [Sketch.file, hrun'] at hrun
      cases hrun
      exact ⟨hreads.width_file ▸ hwidth, ⟨r', ht⟩, g, items, y, by rw [← htag], hy, hreads, hbuilt⟩
    · obtain ⟨fault, t, herror⟩ :=
        Sketch.run_eq_error hreads.conforms_file (Nat.le_of_not_lt hwidth) hr
      rw [hrun] at herror
      cases herror
  · rw [TokenStream.buildSteps, hfault] at hsteps
    cases hsteps

/-- A tree that comes out of a parse is the one the grammar draws, and the store stays coherent. -/
theorem exists_of_parse_eq_ok (hst : st.Coherent) (h : parse text st = (.ok v, st')) :
    st'.Coherent ∧ ∃ g items y, v = .root st.tag g ∧ (tokenize text).parsed = .ok y ∧
      g.Parsed text items y.nesting :=
  (exists_fitting_of_parse_eq_ok hst h).2

/-- Every text of less than 2^28 bytes has a tree. -/
theorem exists_parse_eq_ok (hst : st.Coherent) (hlen : text.utf8ByteSize < 1 <<< 28) :
    ∃ v st', parse text st = (.ok v, st') := by
  obtain ⟨r, hr⟩ := hst
  obtain ⟨y, items, hy, hreads, hfits, hevents⟩ := TokenStream.exists_parsed_events hlen
  have hwidth : (Sketch.file items (tokenize text).eof).width < Width.limit := by
    rw [hreads.width_file]
    exact Nat.lt_trans hlen (by decide)
  obtain ⟨g, t, r', hrun, -⟩ := Sketch.makes_run hreads.conforms_file hwidth hr
  have hsteps := TokenStream.buildSteps_eq hy hreads hevents hfits
  refine ⟨.root t.tag g, t, ?_⟩
  rw [parse, Alloc.bind_eq_of_ok (Alloc.ofExcept_eq_of_ok hsteps), Sketch.file,
    Alloc.bind_eq_of_ok hrun]
  rfl

end Store

end Verbatim
