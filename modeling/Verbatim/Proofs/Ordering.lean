import Verbatim.Proofs.Reporting

/-!
# Diagnostics in the order of the text

Diagnostics are listed by their spans, so by byte offsets. The same order comes out when tokens are
counted: how many were read before a marker, and how many are set aside in it. Every token has
content, so its bytes keep the order of the markers before it, in it and after it. Counting tokens
does not depend on texts, so it can be done on the shape of a tree.
-/

namespace Verbatim

namespace Token

/-- The span that the content of some tokens covers, when other tokens stand before them. -/
inductive Covers (before : List Token) : List Token → Text.Span → Prop
  | nothing : Covers before [] ⟨widthOf before, widthOf before⟩
  | stretch {t u : Token} {rest : List Token} (hlast : (t :: rest).getLast? = some u) :
    Covers before (t :: rest) ⟨widthOf before + t.stored.leadingWidth,
      widthOf before + widthOf (t :: rest) - u.stored.trailingWidth⟩

/-- The trivia of a token with content is not all of it. -/
theorem Solid.trivia_lt {t : Token} (h : t.Solid) :
    t.stored.leadingWidth + t.stored.trailingWidth < Text.byteLength t.chars := by
  have hpos : 0 < Text.byteLength t.content := by
    obtain ⟨c, cs, hc⟩ := List.exists_cons_of_ne_nil h.content_ne_nil
    have := c.utf8Size_pos
    rw [hc, Text.byteLength_cons]
    omega
  rw [leadingWidth_stored, trailingWidth_stored, chars, Text.byteLength_append,
    Text.byteLength_append]
  omega

/-- What follows the content of the last of some tokens is not all of them. -/
theorem trailingWidth_lt_widthOf {tokens : List Token} {u : Token} (h : ∀ t ∈ tokens, t.Solid)
    (hlast : tokens.getLast? = some u) : u.stored.trailingWidth < widthOf tokens := by
  obtain ⟨front, rfl⟩ := List.getLast?_eq_some_iff.mp hlast
  have hu := (h u (by simp)).trivia_lt
  rw [widthOf_append, widthOf_cons]
  omega

namespace Covers

variable {before before' tokens tokens' after after' : List Token} {x y : Text.Span}

/-- A span is found by the tokens before it and the tokens in it. -/
theorem unique (hx : Covers before tokens x) (hy : Covers before tokens y) : x = y := by
  cases hx with
  | nothing =>
    cases hy
    rfl
  | stretch hlast =>
    cases hy with
    | stretch hlast' =>
      rw [hlast] at hlast'
      cases hlast'
      rfl

/-- No span starts before the tokens before it end. -/
theorem le_start (h : Covers before tokens x) : widthOf before ≤ x.start := by
  cases h with
  | nothing => exact Nat.le_refl _
  | stretch _ => exact Nat.le_add_right _ _

/-- A span starts before the token in front of which it starts ends. -/
theorem start_lt {t : Token} {rest : List Token} (h : Covers before tokens x)
    (hfirst : tokens ++ after = t :: rest) (ht : t.Solid) :
    x.start < widthOf before + Text.byteLength t.chars := by
  have hlt := ht.trivia_lt
  cases h with
  | nothing =>
    simp only
    omega
  | stretch _ =>
    obtain ⟨rfl, -⟩ := List.cons.inj hfirst
    simp only
    omega

/-- More tokens do not make a span start earlier. -/
theorem start_le {more : List Token} (hx : Covers before tokens x)
    (hy : Covers before (tokens ++ more) y) : x.start ≤ y.start := by
  cases hx with
  | nothing => exact hy.le_start
  | stretch _ =>
    cases hy with
    | stretch _ => exact Nat.le_refl _

/-- A span ends before the tokens in it end. -/
theorem stop_le (h : Covers before tokens x) : x.stop ≤ widthOf before + widthOf tokens := by
  cases h with
  | nothing => exact Nat.le_add_right _ _
  | stretch _ => exact Nat.sub_le _ _

/-- A span ends behind all tokens in it but the last ones. -/
theorem lt_stop {t : Token} {front rest : List Token} (h : Covers before tokens x)
    (htokens : tokens = front ++ t :: rest) (hsolid : ∀ u ∈ t :: rest, u.Solid) :
    widthOf before + widthOf front < x.stop := by
  cases h with
  | nothing => simp at htokens
  | stretch hlast =>
    rw [htokens, List.getLast?_append, List.getLast?_cons, Option.some_or, ← List.getLast?_cons]
      at hlast
    have htrailing := trailingWidth_lt_widthOf hsolid hlast
    rw [htokens, widthOf_append]
    simp only
    omega

/-- Of two spans among the same tokens the one with fewer tokens before it starts first; with
equally many, the one with fewer tokens in it ends first. -/
theorem lt_of_length_lt (hx : Covers before tokens x) (hy : Covers before' tokens' y)
    (htokens : before ++ (tokens ++ after) = before' ++ (tokens' ++ after'))
    (hsolid : ∀ t ∈ before ++ (tokens ++ after), t.Solid)
    (hlt : before.length < before'.length ∨
      before.length = before'.length ∧ tokens.length < tokens'.length) :
    x.start < y.start ∨ x.start = y.start ∧ x.stop < y.stop := by
  rcases hlt with hlt | ⟨heq, hlt⟩
  · -- the token in front of which the first span starts ends before the second one
    left
    rcases List.append_eq_append_iff.mp htokens with ⟨c, rfl, hc⟩ | ⟨c, rfl, -⟩
    · cases c with
      | nil => simp at hlt
      | cons t c =>
        have hstart := hx.start_lt hc (hsolid t (by rw [hc]; simp))
        have hle := hy.le_start
        rw [widthOf_append, widthOf_cons] at hle
        omega
    · simp only [List.length_append] at hlt
      omega
  · -- the second span goes on with a token that the first one does not hold
    obtain ⟨rfl, hrest⟩ := List.append_inj htokens heq
    rcases List.append_eq_append_iff.mp hrest with ⟨c, rfl, hc⟩ | ⟨c, rfl, -⟩
    · cases c with
      | nil => simp at hlt
      | cons t c =>
        have hstart := hx.start_le hy
        have hle := hx.stop_le
        have hmem : ∀ u ∈ t :: c, u ∈ before ++ (tokens ++ after) := fun u hu =>
          List.mem_append_right _ (List.mem_append_right _ (hc ▸ List.mem_append_left _ hu))
        have hstop := hy.lt_stop rfl fun u hu => hsolid u (hmem u hu)
        omega
    · simp only [List.length_append] at hlt
      omega

end Covers

end Token

/-- Number of tokens in some slots that were read. -/
def Green.readIn (slots : List Slot) : Nat :=
  (leavesOf slots).countP fun t => t.data.presence == .present

namespace View

/-- Number of tokens that were read before a view. -/
def rank : View → Nat
  | root .. => 0
  | child parent index _ _ => rank parent + Green.readIn (parent.green.slots.take index)

/-- Number of tokens in a view that were read. -/
def held (v : View) : Nat := Green.readIn [some v.green]

end View

mutual
theorem Green.map_presence_leaves_shape : ∀ g : Green,
    (g.shape.leaves.map fun t => t.data.presence) = g.leaves.map fun t => t.data.presence
  | .token _ => rfl
  | .node _ slots => map_presence_leavesOf_shapeSlots slots
theorem Green.map_presence_leavesOf_shapeSlots : ∀ slots : List Slot,
    ((leavesOf (shapeSlots slots)).map fun t => t.data.presence) =
      (leavesOf slots).map fun t => t.data.presence
  | [] => rfl
  | none :: rest => map_presence_leavesOf_shapeSlots rest
  | some g :: rest => by
    rw [shapeSlots, leavesOf, leavesOf, List.map_append, List.map_append,
      map_presence_leaves_shape g, map_presence_leavesOf_shapeSlots rest]
end

theorem Green.readIn_shapeSlots (slots : List Slot) : readIn (shapeSlots slots) = readIn slots := by
  have hcount (l : List GreenToken) : (l.countP fun t => t.data.presence == .present) =
      (l.map fun t => t.data.presence).countP (· == .present) := by
    rw [List.countP_map]
    rfl
  rw [readIn, readIn, hcount, hcount, map_presence_leavesOf_shapeSlots]

namespace Sketch

/-- As many tokens were read into some slots as their sketches hold. -/
theorem BuiltAll.readIn_eq {slots : List Sketch} {built : List Slot} (h : BuiltAll slots built) :
    Green.readIn built = (tokensOf slots).length := by
  have hleaves := h.leaves_eq fun _ _ _ hs => hs.leaves_eq
  have hfilter := (node .itemList false slots).filter_leaves
  rw [leaves, tokens, ← hleaves, List.filter_map] at hfilter
  have hlength := congrArg List.length hfilter
  rw [List.length_map, List.length_map] at hlength
  rw [Green.readIn, List.countP_eq_length_filter]
  exact hlength

/-- Slots in front of others were built from the sketches in front. -/
theorem BuiltAll.take {front back : List Sketch} {built : List Slot}
    (h : BuiltAll (front ++ back) built) : BuiltAll front (built.take front.length) := by
  induction front generalizing built with
  | nil => rfl
  | cons s front ih =>
    obtain ⟨slot, rest, rfl, hs, hrest⟩ := h
    exact ⟨slot, _, rfl, hs, ih hrest⟩

end Sketch

namespace View

variable {whole s : Sketch} {v : View} {before : List Token}

theorem rank_shape (v : View) : v.shape.rank = v.rank := by
  induction v with
  | root store g => rfl
  | child parent index offset g ih =>
    rw [shape, rank, rank, ih, green_shape, Green.slots_shape, Green.shapeSlots_eq, ← List.map_take,
      ← Green.shapeSlots_eq, Green.readIn_shapeSlots]

theorem held_shape (v : View) : v.shape.held = v.held := by
  rw [held, held, green_shape]
  exact Green.readIn_shapeSlots [some v.green]

theorem Shows.rank_eq (h : Shows whole v s before) : v.rank = before.length := by
  induction h with
  | root _ _ => rfl
  | child hv _ ih =>
    obtain ⟨id, built, hg, hbuilt⟩ := hv.built
    rw [rank, ih, Option.some.inj hg, Green.slots, hbuilt.take.readIn_eq, List.length_append]

theorem Shows.held_eq (h : Shows whole v s before) : v.held = s.tokens.length := by
  have hbuilt : Sketch.BuiltAll [s] [some v.green] := ⟨_, [], rfl, h.built, rfl⟩
  rw [held, hbuilt.readIn_eq, Sketch.tokensOf, Sketch.tokensOf, List.append_nil]

/-- A marker is trimmed to what its tokens cover. -/
theorem exists_trimmedSpan (hs : s.IsMark) (h : Shows whole v s before) :
    ∃ span, v.trimmedSpan = .ok span ∧ Token.Covers before s.tokens span := by
  cases hs with
  | missing kind =>
    refine ⟨_, trimmedSpan_of_missing h.built, ?_⟩
    rw [h.offset_eq]
    exact .nothing
  | @stray late t rest hsolid =>
    obtain ⟨u, hlast⟩ : ∃ u, (t :: rest).getLast? = some u := ⟨_, List.getLast?_cons ..⟩
    refine ⟨_, trimmedSpan_of_stray h.built hsolid hlast, ?_⟩
    rw [h.offset_eq, Sketch.tokens, Sketch.tokensOf_map_token]
    exact .stretch hlast

end View

/-- Whether a condition at a place is listed no later than another, as far as counting tokens
tells. -/
def Diagnostic.gistLe (a b : DiagnosticId × View) : Bool :=
  a.2.rank < b.2.rank || a.2.rank == b.2.rank &&
    (a.2.held < b.2.held || a.2.held == b.2.held && a.1.number ≤ b.1.number)

/-- A diagnostic whose anchor stands somewhere among some tokens and covers a span. -/
structure Diagnostic.Placed (all : List Token) (span : Text.Span) (d : Diagnostic) : Prop where
  span_eq : d.span = .ok span
  exists_covers : ∃ before tokens after, all = before ++ (tokens ++ after) ∧
    Token.Covers before tokens span ∧ d.anchor.rank = before.length ∧
    d.anchor.held = tokens.length

namespace DiagnosticSink

variable {all : List Token}

/-- Spans order diagnostics as counting tokens does. -/
theorem placedLe_eq_gistLe {x y : Text.Span} {d e : Diagnostic} (hall : ∀ t ∈ all, t.Solid)
    (hd : d.Placed all x) (he : e.Placed all y) :
    placedLe (x, d) (y, e) = Diagnostic.gistLe d.gist e.gist := by
  obtain ⟨before, tokens, after, htokens, hx, hrank, hheld⟩ := hd.exists_covers
  obtain ⟨before', tokens', after', htokens', hy, hrank', hheld'⟩ := he.exists_covers
  have happend := htokens.symm.trans htokens'
  have hlt := hx.lt_of_length_lt hy happend (htokens ▸ hall)
  have hgt := hy.lt_of_length_lt hx happend.symm (htokens' ▸ hall)
  have heq (hbefore : before.length = before'.length) (hlength : tokens.length = tokens'.length) :
      x = y := by
    obtain ⟨rfl, hrest⟩ := List.append_inj happend hbefore
    obtain ⟨rfl, -⟩ := List.append_inj hrest hlength
    exact hx.unique hy
  -- fewer tokens mean a smaller span and equally many the same span, so the counts decide
  rw [Bool.eq_iff_iff]
  simp only [placedLe, Diagnostic.gistLe, Bool.or_eq_true, Bool.and_eq_true, decide_eq_true_eq,
    beq_iff_eq]
  simp only [Diagnostic.gist, View.rank_shape, View.held_shape, hrank, hheld, hrank', hheld']
  rcases Nat.lt_trichotomy before.length before'.length with hb | hb | hb
  · have := hlt (.inl hb)
    omega
  · rcases Nat.lt_trichotomy tokens.length tokens'.length with ht | ht | ht
    · have := hlt (.inr ⟨hb, ht⟩)
      omega
    · obtain rfl := heq hb ht
      omega
    · have := hgt (.inr ⟨hb.symm, ht⟩)
      omega
  · have := hgt (.inl hb)
    omega

/-- Diagnostics whose spans are known are paired with them. -/
theorem exists_mapM_span {diagnostics : List Diagnostic} {P : Text.Span → Diagnostic → Prop}
    (hP : ∀ span d, P span d → d.span = .ok span) (h : ∀ d ∈ diagnostics, ∃ span, P span d) :
    ∃ placed, (diagnostics.mapM fun d => do return (← d.span, d)) = .ok placed ∧
      placed.map Prod.snd = diagnostics ∧ ∀ p ∈ placed, P p.1 p.2 := by
  induction diagnostics with
  | nil => exact ⟨[], rfl, rfl, nofun⟩
  | cons d diagnostics ih =>
    obtain ⟨placed, hplaced, hsnd, hall⟩ := ih fun e he => h e (List.mem_cons_of_mem _ he)
    obtain ⟨span, hspan⟩ := h d List.mem_cons_self
    refine ⟨(span, d) :: placed, ?_, by rw [List.map_cons, hsnd], fun p hp => ?_⟩
    · rw [List.mapM_cons, hplaced, hP span d hspan]
      rfl
    · rcases List.mem_cons.mp hp with rfl | hp
      · exact hspan
      · exact hall p hp

/-- Diagnostics at known places come out, in the order in which counting tokens puts them. -/
theorem exists_finish {sink : DiagnosticSink} (hall : ∀ t ∈ all, t.Solid)
    (h : ∀ d ∈ sink.diagnostics, ∃ span, d.Placed all span) :
    ∃ ds, sink.finish = .ok ds ∧
      ds.map Diagnostic.gist =
        (sink.diagnostics.map Diagnostic.gist).mergeSort Diagnostic.gistLe := by
  obtain ⟨placed, hplaced, hsnd, hspans⟩ := exists_mapM_span (fun _ _ hd => hd.span_eq) h
  refine ⟨(placed.mergeSort placedLe).map Prod.snd, by rw [finish, hplaced]; rfl, ?_⟩
  rw [← hsnd, List.map_map, List.map_map]
  exact List.map_mergeSort fun a ha b hb => placedLe_eq_gistLe hall (hspans a ha) (hspans b hb)

end DiagnosticSink

/-- The diagnostics of the tree of a text come out, in an order that its shape decides. -/
theorem Green.Parsed.exists_diagnostics {g : Green} {text : String} {items : List Sketch}
    {n : Nesting} (h : g.Parsed text items n) (store : Nat) :
    ∃ sink ds, (View.root store g).reported = .ok sink ∧
      (View.root store g).diagnostics = .ok ds ∧
      ds.map Diagnostic.gist =
        (sink.diagnostics.map Diagnostic.gist).mergeSort Diagnostic.gistLe := by
  have hlegible : ∀ d ∈ (View.root store g).markers, d.Legible := by
    intro d hd
    obtain ⟨s, before, after, hshows, hs, -⟩ := h.exists_of_mem_markers hd
    exact hshows.legible hs
  obtain ⟨sink, hsink, hanchor⟩ := View.exists_reported hlegible
  have hplaced : ∀ d ∈ sink.diagnostics, ∃ span, d.Placed (tokenize text).tokens span := by
    intro d hd
    obtain ⟨s, before, after, hshows, hs, htokens⟩ := h.exists_of_mem_markers (hanchor d hd)
    obtain ⟨span, hspan, hcovers⟩ := View.exists_trimmedSpan hs hshows
    exact ⟨span, hspan, before, s.tokens, after, htokens, hcovers, hshows.rank_eq, hshows.held_eq⟩
  obtain ⟨ds, hds, hgist⟩ := DiagnosticSink.exists_finish (solid_of_mem_tokenize text) hplaced
  exact ⟨sink, ds, hsink, by rw [View.diagnostics_eq, hsink]; exact hds, hgist⟩

end Verbatim
