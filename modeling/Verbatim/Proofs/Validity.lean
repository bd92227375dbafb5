import Verbatim.Validation
import Verbatim.Proofs.Standing

/-!
# Trees of texts are valid

Everything below the root of a tree that was built from a sketch was built from a part of the
sketch. The parts of a sketch that conforms follow their layouts, so validation finds nothing to
report.
-/

namespace Verbatim

namespace Sketch

/-- A placeholder for a token has no text. -/
theorem Built.text_eq_empty {s : Sketch} {t : GreenToken} (h : s.Built (some (.token t)))
    (hmissing : t.data.presence = .missing) : t.data.text = "" := by
  cases s with
  | token u =>
    obtain ⟨g, hg, hdata⟩ := h
    cases hg
    rw [hdata] at hmissing
    cases hmissing
  | missing kind =>
    simp only [Built] at h
    split at h
    · obtain ⟨g, hg, hdata⟩ := h
      cases hg
      rw [hdata]
    · obtain ⟨id, hg⟩ := h
      cases hg
  | absent => cases h
  | node kind late slots =>
    obtain ⟨id, built, hg, -⟩ := h
    cases hg

theorem BuiltAll.map_kind_eq {slots : List Sketch} {built : List Slot} (h : BuiltAll slots built) :
    (built.map fun slot => slot.map Green.kind) = slots.map kind? := by
  induction slots generalizing built with
  | nil =>
    obtain rfl := h
    rfl
  | cons s slots ih =>
    obtain ⟨slot, rest, rfl, hs, hrest⟩ := h
    rw [List.map_cons, List.map_cons, hs.kind_eq, ih hrest]

end Sketch

namespace View

/-- Members that a collection admits are not reported. -/
theorem memberViolation?_eq_none {v : View} {members : KindSet} {slots : List Slot}
    (h : (Layout.collection members).admits (slots.map fun slot => slot.map Green.kind) = true)
    (index : Nat) : v.memberViolation? members index slots = none := by
  induction slots generalizing index with
  | nil => rfl
  | cons slot rest ih =>
    rw [Layout.admits, List.map_cons, List.all_cons, Bool.and_eq_true] at h
    cases slot with
    | none => cases h.1
    | some g =>
      rw [memberViolation?, if_pos (by simpa using h.1)]
      exact ih h.2 (index + 1)

/-- Slots that a layout admits are not reported. -/
theorem slotViolation?_eq_none {v : View} {declared : List (SlotSpec × Slot)}
    (h : ∀ x ∈ declared, x.1.admits (x.2.map Green.kind) = true ∨ x.2 = none ∧ v.isMissing = true) :
    v.slotViolation? declared = none := by
  induction declared with
  | nil => rfl
  | cons x rest ih =>
    obtain ⟨spec, slot⟩ := x
    have hrest := ih fun x hx => h x (List.mem_cons_of_mem _ hx)
    have hx := h _ List.mem_cons_self
    cases slot with
    | none =>
      rw [slotViolation?, if_pos ?_, hrest]
      rcases hx with hx | ⟨-, hx⟩
      · rw [show spec.isOptional = true from hx, Bool.true_or]
      · rw [hx, Bool.or_true]
    | some g =>
      rcases hx with hx | ⟨hx, -⟩
      · rw [slotViolation?, if_pos (by simpa [SlotSpec.admits] using hx), hrest]
      · cases hx

/-- A node whose layout admits its slots is not reported for them. -/
theorem layoutViolation?_eq_none {v : View}
    (h : v.kind.layout.admits (v.green.slots.map fun slot => slot.map Green.kind) = true) :
    v.layoutViolation? = none := by
  unfold layoutViolation?
  cases hlayout : v.kind.layout with
  | token => rfl
  | collection members =>
    rw [hlayout] at h
    exact memberViolation?_eq_none h 0
  | fixed specs =>
    rw [hlayout] at h
    have hlength := Layout.length_of_admits h
    rw [List.length_map] at hlength
    simp only [Layout.admits, Bool.and_eq_true, List.all_eq_true, List.zip_map_right] at h
    change (if specs.length = v.slotCount then _ else _) = none
    rw [if_pos (show specs.length = v.slotCount from hlength.symm)]
    exact slotViolation?_eq_none fun x hx => .inl (h.2 _ (List.mem_map_of_mem hx))

/-- A placeholder with the declared number of empty slots is not reported for them. -/
theorem layoutViolation?_eq_none_of_isMissing {v : View} (hmissing : v.isMissing = true)
    (hslots : v.green.slots = List.replicate v.kind.slotSpecs.length none) :
    v.layoutViolation? = none := by
  unfold layoutViolation?
  cases hlayout : v.kind.layout with
  | token => rfl
  | collection members =>
    rw [hslots, Kind.slotSpecs, hlayout]
    rfl
  | fixed specs =>
    rw [Kind.slotSpecs, hlayout, Layout.slots] at hslots
    change (if specs.length = v.slotCount then _ else _) = none
    rw [if_pos (by rw [slotCount, hslots, List.length_replicate])]
    refine slotViolation?_eq_none fun x hx => .inr ⟨?_, hmissing⟩
    have hmem := (List.of_mem_zip hx).2
    rw [hslots] at hmem
    exact List.eq_of_mem_replicate hmem

/-- Tokens that were built from sketches are not reported. -/
theorem tokenViolation?_eq_none {v : View}
    (h : ∀ g, some g ∈ v.green.slots → ∃ s : Sketch, s.Built (some g)) :
    v.tokenViolation? = none := by
  refine List.findSome?_eq_none_iff.mpr fun c hc => if_neg ?_
  simp only [children, List.mem_filterMap] at hc
  obtain ⟨slot, hmem, rfl⟩ := hc
  obtain ⟨s, hs⟩ := h c.green (green_mem_of_mem_placeSlots hmem)
  cases hc : c.green with
  | node head slots => simp [isNode, hc, Green.isNode]
  | token t =>
    rw [hc] at hs
    simp only [isMissing, Green.isMissing, hc, Green.presence, Bool.and_eq_true, beq_iff_eq,
      Bool.not_eq_true', not_and, Bool.not_eq_false]
    intro hmissing
    simp [text, hc, Green.text, Green.tokens_eq, Green.leaves, hs.text_eq_empty hmissing.2]

/-- A present node has slots that its layout admits, and a placeholder has the declared number of
empty slots. -/
def FollowsLayout (v : View) : Prop :=
  if v.isMissing then v.green.slots = List.replicate v.kind.slotSpecs.length none
  else v.kind.layout.admits (v.green.slots.map fun slot => slot.map Green.kind) = true

/-- A node that follows its layout, is as wide as its slots and was built with its tokens is not
reported. -/
theorem violation?_eq_none {v : View} (hlayout : v.FollowsLayout)
    (hwidth : Green.slotsWidth v.green.slots = v.width)
    (htokens : ∀ g, some g ∈ v.green.slots → ∃ s : Sketch, s.Built (some g)) :
    v.violation? = none := by
  unfold FollowsLayout at hlayout
  rw [violation?, if_neg (not_not_intro hwidth), if_neg, tokenViolation?_eq_none htokens]
  · split at hlayout
    · next hmissing => rw [layoutViolation?_eq_none_of_isMissing hmissing hlayout]; rfl
    · rw [layoutViolation?_eq_none hlayout]; rfl
  · split at hlayout
    · have hzero : v.width = 0 := by
        rw [← hwidth, hlayout]
        simp [Green.slotsWidth]
      simp [span, Text.Span.ofWidth, Text.Span.isEmpty, hzero]
    · next hpresent => simp [hpresent]

/-- A node that was built from a sketch that conforms follows its layout. -/
theorem followsLayout_of_built {v : View} {s : Sketch} (hs : s.Conforms)
    (hv : s.Built (some v.green)) (hnode : v.isNode = true) :
    v.FollowsLayout ∧ Green.slotsWidth v.green.slots = v.width := by
  cases s with
  | token t =>
    obtain ⟨g, hg, -⟩ := hv
    simp [isNode, Option.some.inj hg, Green.isNode] at hnode
  | missing kind =>
    simp only [Sketch.Built] at hv
    split at hv
    · obtain ⟨g, hg, -⟩ := hv
      simp [isNode, Option.some.inj hg, Green.isNode] at hnode
    · obtain ⟨id, hg⟩ := hv
      have hg := Option.some.inj hg
      have hslots : v.green.slots = List.replicate v.kind.slotSpecs.length none := by
        rw [View.kind, hg]
        rfl
      constructor
      · rw [FollowsLayout, if_pos (by simp [isMissing, hg, Green.isMissing, Green.presence])]
        exact hslots
      · rw [hslots, width, hg]
        simp [Green.slotsWidth, Green.width]
  | absent => cases hv
  | node kind late slots =>
    obtain ⟨id, built, hg, hbuilt⟩ := hv
    have hg := Option.some.inj hg
    refine ⟨?_, by rw [width, hg]; rfl⟩
    rw [FollowsLayout, if_neg (by simp [isMissing, hg, Green.isMissing, Green.presence]),
      View.kind, hg]
    exact hbuilt.map_kind_eq ▸ hs.2.1

end View

/-- For every text of less than 2^28 bytes and every coherent store, a tree comes out of the parse.
Its root is a file, validation finds no violation, and every node of it follows the layout of its
kind. -/
theorem parse_valid {st : Store} (hst : st.Coherent) {text : String}
    (hlen : text.utf8ByteSize < 1 <<< 28) :
    ∃ v st', parse text st = (.ok v, st') ∧ v.kind = .sourceFile ∧ v.isMissing = false ∧
      v.firstViolation? = none ∧ ∀ d ∈ v.nodes, d.FollowsLayout := by
  obtain ⟨v, st', hparse⟩ := exists_parse_eq_ok hst hlen
  obtain ⟨-, g, items, y, rfl, -, hg⟩ := exists_of_parse_eq_ok hst hparse
  have hnodes : ∀ d ∈ (View.root st.tag g).nodes, d.FollowsLayout ∧ d.violation? = none := by
    intro d hd
    obtain ⟨hd, hnode⟩ := List.mem_filter.mp hd
    rw [View.descendants_eq] at hd
    obtain ⟨s, before, hs⟩ := View.exists_shows_of_mem_entriesAt (hg.shows st.tag) d hd
    obtain ⟨hlayout, hwidth⟩ := View.followsLayout_of_built hs.conforms hs.built hnode
    exact ⟨hlayout, View.violation?_eq_none hlayout hwidth fun _ => hs.built.exists_of_mem_slots⟩
  refine ⟨_, st', hparse, ?_, ?_, ?_, fun d hd => (hnodes d hd).1⟩
  · obtain ⟨id, built, hroot, -⟩ := hg.built
    cases hroot
    rfl
  · obtain ⟨id, built, hroot, -⟩ := hg.built
    cases hroot
    rfl
  · exact List.findSome?_eq_none_iff.mpr fun d hd => (hnodes d hd).2

/-- A text with an unclosed call, in a store that has made nothing. -/
theorem parse_valid_unclosed :
    ({ tag := 0 } : Store).Coherent ∧ "func f( \x7b g(1, \x7d".utf8ByteSize < 1 <<< 28 ∧
      ∃ v st', parse "func f( \x7b g(1, \x7d" { tag := 0 } = (.ok v, st') ∧ v.kind = .sourceFile ∧
        v.firstViolation? = none := by
  have hst : ({ tag := 0 } : Store).Coherent := Store.coherent_empty 0 {}
  have hlen : "func f( \x7b g(1, \x7d".utf8ByteSize < 1 <<< 28 := by decide
  obtain ⟨v, st', hparse, hkind, -, hvalid, -⟩ := parse_valid hst hlen
  exact ⟨hst, hlen, v, st', hparse, hkind, hvalid⟩

end Verbatim
