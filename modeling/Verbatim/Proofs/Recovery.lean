import Verbatim.Proofs.Ordering

/-!
# Recovery depends on kinds only

Two texts whose tokens have the same kinds are drawn alike, whatever their contents and their trivia
are. So their trees have the same shape, and the same conditions are diagnosed at the same places,
in the same order.
-/

namespace Verbatim

/-- Items that are read from tokens of the same kinds agree up to the tokens in them. -/
theorem Reads.bareAll_items {tokens tokens' : List Token} {items items' : List Sketch}
    {n n' : Nesting} (h : Reads Phrase.items ⟨tokens, {}⟩ items ⟨[], n⟩)
    (h' : Reads Phrase.items ⟨tokens', {}⟩ items' ⟨[], n'⟩)
    (hkinds : tokens.map Token.kind = tokens'.map Token.kind) :
    Sketch.bareAll items = Sketch.bareAll items' := by
  have hbare := h.bare
  rw [Reader.bare_eq_bare hkinds] at hbare
  exact (hbare.unique h'.bare).1

namespace View

/-- Trees with the same shape are seen alike from their roots. -/
theorem shape_root {g g' : Green} (h : g.shape = g'.shape) (store store' : Nat) :
    (root store g).shape = (root store' g').shape := by
  rw [shape, shape, h]

/-- The same paths lead to elements of the same kind and presence in trees with the same shape. -/
theorem map_descend?_of_shape {v v' : View} (h : v.shape = v'.shape) (path : List Nat) :
    ((v.descend? path).map fun d => (d.kind, d.presence)) =
      (v'.descend? path).map fun d => (d.kind, d.presence) := by
  have hpath (v : View) : ((v.descend? path).map fun d => (d.kind, d.presence)) =
      (v.shape.descend? path).map fun d => (d.kind, d.presence) := by
    rw [descend?_shape, Option.map_map]
    exact congrArg (fun f => (v.descend? path).map f) (funext fun d => by simp)
  rw [hpath v, h, ← hpath v']

end View

namespace Green.Parsed

variable {g g' : Green} {text text' : String} {items items' : List Sketch} {n n' : Nesting}

/-- The shape of the tree of a text is decided by the kinds of its tokens. -/
theorem shape_eq (h : g.Parsed text items n) (h' : g'.Parsed text' items' n')
    (hkinds : (tokenize text).toList.map Token.kind = (tokenize text').toList.map Token.kind) :
    g.shape = g'.shape := by
  rw [TokenStream.toList, TokenStream.toList, List.map_append, List.map_append] at hkinds
  obtain ⟨htokens, heof⟩ := List.append_inj' hkinds rfl
  have hitems := h.reads.bareAll_items h'.reads htokens
  have hbare : (tokenize text).eof.bare = (tokenize text').eof.bare := by
    rw [Token.bare, Token.bare, List.singleton_inj.mp heof]
  refine h.built.shape_congr h'.built ?_
  simp only [Sketch.file, Sketch.bare, Sketch.bareAll, hitems, hbare]

/-- The same conditions are diagnosed at the same places of trees with the same shape. -/
theorem exists_diagnostics_of_shape (h : g.Parsed text items n) (h' : g'.Parsed text' items' n')
    (hshape : g.shape = g'.shape) (store store' : Nat) :
    ∃ ds ds', (View.root store g).diagnostics = .ok ds ∧
      (View.root store' g').diagnostics = .ok ds' ∧
      (ds.map fun d => (d.id, d.anchor.path)) = ds'.map fun d => (d.id, d.anchor.path) := by
  obtain ⟨sink, ds, hsink, hds, hgist⟩ := h.exists_diagnostics store
  obtain ⟨sink', ds', hsink', hds', hgist'⟩ := h'.exists_diagnostics store'
  have hroot := View.shape_root hshape store store'
  have hsame : ds.map Diagnostic.gist = ds'.map Diagnostic.gist := by
    rw [hgist, hgist', View.map_gist_reported hroot hsink hsink']
  have hpath (l : List Diagnostic) : (l.map fun d => (d.id, d.anchor.path)) =
      (l.map Diagnostic.gist).map fun x => (x.1, x.2.path) := by
    rw [List.map_map]
    exact List.map_congr_left fun d _ => by simp [Diagnostic.gist]
  exact ⟨ds, ds', hds, hds', by rw [hpath, hpath, hsame]⟩

end Green.Parsed

/-- Let two texts have tokens of the same kinds, whatever stands in the tokens and between them, and
let them be parsed in any two coherent stores. If both have less than 2^28 bytes, trees come out.
Whenever trees come out, the same paths lead to something in both of them, to an element of the same
kind and the same presence, and both have diagnostics, with the same conditions at the same paths in
the same order. -/
theorem parse_agree_of_kinds {st st' : Store} (hst : st.Coherent) (hst' : st'.Coherent)
    {text text' : String}
    (hkinds : (tokenize text).toList.map Token.kind = (tokenize text').toList.map Token.kind) :
    (text.utf8ByteSize < 1 <<< 28 → text'.utf8ByteSize < 1 <<< 28 →
      ∃ v r v' r', parse text st = (.ok v, r) ∧ parse text' st' = (.ok v', r')) ∧
    ∀ v r v' r', parse text st = (.ok v, r) → parse text' st' = (.ok v', r') →
      (∀ path, ((v.descend? path).map fun d => (d.kind, d.presence)) =
        (v'.descend? path).map fun d => (d.kind, d.presence)) ∧
      ∃ ds ds', v.diagnostics = .ok ds ∧ v'.diagnostics = .ok ds' ∧
        (ds.map fun d => (d.id, d.anchor.path)) = ds'.map fun d => (d.id, d.anchor.path) := by
  constructor
  · intro hlen hlen'
    obtain ⟨v, r, hparse⟩ := exists_parse_eq_ok hst hlen
    obtain ⟨v', r', hparse'⟩ := exists_parse_eq_ok hst' hlen'
    exact ⟨v, r, v', r', hparse, hparse'⟩
  · intro v r v' r' hparse hparse'
    obtain ⟨-, g, items, y, rfl, -, hg⟩ := exists_of_parse_eq_ok hst hparse
    obtain ⟨-, g', items', y', rfl, -, hg'⟩ := exists_of_parse_eq_ok hst' hparse'
    have hshape := hg.shape_eq hg' hkinds
    have hroot := View.shape_root hshape st.tag st'.tag
    exact ⟨View.map_descend?_of_shape hroot,
      hg.exists_diagnostics_of_shape hg' hshape st.tag st'.tag⟩

/-- Two broken texts with other names, other numbers and other trivia. -/
theorem parse_agree_of_kinds_broken :
    ({ tag := 0 } : Store).Coherent ∧ ({ tag := 1 } : Store).Coherent ∧
      ((tokenize "func f(\x7b 1 + ) let").toList.map Token.kind =
        (tokenize " func\tg ( // é \x7b\n\x7b007+)let ").toList.map Token.kind) ∧
      ∃ v r v' r', parse "func f(\x7b 1 + ) let" { tag := 0 } = (.ok v, r) ∧
        parse " func\tg ( // é \x7b\n\x7b007+)let " { tag := 1 } = (.ok v', r') ∧
        (∀ path, ((v.descend? path).map fun d => (d.kind, d.presence)) =
          (v'.descend? path).map fun d => (d.kind, d.presence)) ∧
        ∃ ds ds', v.diagnostics = .ok ds ∧ v'.diagnostics = .ok ds' ∧
          (ds.map fun d => (d.id, d.anchor.path)) = ds'.map fun d => (d.id, d.anchor.path) := by
  have hst : ({ tag := 0 } : Store).Coherent := Store.coherent_empty 0 {}
  have hst' : ({ tag := 1 } : Store).Coherent := Store.coherent_empty 1 {}
  have hkinds : (tokenize "func f(\x7b 1 + ) let").toList.map Token.kind =
      (tokenize " func\tg ( // é \x7b\n\x7b007+)let ").toList.map Token.kind := by
    decide +kernel
  obtain ⟨hexists, hagree⟩ := parse_agree_of_kinds hst hst' hkinds
  obtain ⟨v, r, v', r', hparse, hparse'⟩ := hexists (by decide) (by decide)
  obtain ⟨hpaths, hdiagnostics⟩ := hagree v r v' r' hparse hparse'
  exact ⟨hst, hst', hkinds, v, r, v', r', hparse, hparse', hpaths, hdiagnostics⟩

end Verbatim
