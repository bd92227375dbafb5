import Verbatim.Proofs.Locating
import Verbatim.Proofs.Markers
import Verbatim.Proofs.Scenes

/-!
# Searching by offset

Whatever stands in the slots of a view stands there one after the other, within the span of the
view. So at most two children with text touch an offset, at most one child covers a range with text,
and a search that only looks at these finds what a scan of everything below the view finds.
-/

namespace Verbatim

namespace Text.Span

theorem covers_iff {s t : Span} : s.covers t = true ↔ s.start ≤ t.start ∧ t.stop ≤ s.stop := by
  simp [covers]

theorem covers_trans {s t u : Span} (hst : s.covers t = true) (htu : t.covers u = true) :
    s.covers u = true := by
  rw [covers_iff] at hst htu ⊢
  omega

end Text.Span

namespace View

variable {v u c d parent : View} {offset index place : Nat} {slots : List Slot} {views : List View}

/-- A property that a view has if all its children have it is one that every view has. -/
theorem inductChildren {P : View → Prop} (h : ∀ v : View, (∀ c ∈ v.children, P c) → P v)
    (v : View) : P v := by
  generalize hsize : v.green.size = n
  induction n using Nat.strongRecOn generalizing v with
  | ind n ih => exact h v fun c hc => ih _ (hsize ▸ size_lt_of_mem_children hc) c rfl

/-- The tokens of a node are those of its children in order. -/
theorem tokens_of_isNode (h : v.isNode = true) : v.tokens = v.children.flatMap tokens := by
  rw [tokens, descendants_eq_cons, List.filter_cons_of_neg (by simp [h]), List.filter_flatMap]
  rfl

theorem tokens_of_not_isNode (h : v.isNode = false) : v.tokens = [v] := by
  have hchildren : v.children = [] := by
    cases hg : v.green with
    | token t => rw [children, View.slots, hg]; rfl
    | node head below => simp [isNode, hg, Green.isNode] at h
  rw [tokens, descendants_eq_cons, hchildren, List.flatMap_nil,
    List.filter_cons_of_pos (by simp [h]), List.filter_nil]

/-- Each of some views ends before the next ones start. -/
def Successive (views : List View) : Prop := views.Pairwise fun a b => a.span.stop ≤ b.span.start

/-- Slots are placed between where the first of them starts and where the last one ends. -/
theorem span_of_mem_placeSlots (h : some c ∈ placeSlots parent index place slots) :
    place ≤ c.span.start ∧ c.span.stop ≤ place + Green.slotsWidth slots := by
  obtain ⟨k, hk⟩ := List.mem_iff_getElem?.mp h
  rw [getElem?_placeSlots, Option.map_eq_some_iff] at hk
  obtain ⟨slot, hslot, hk⟩ := hk
  obtain ⟨g, rfl, rfl⟩ := Option.map_eq_some_iff.mp hk
  obtain ⟨hlt, hget⟩ := List.getElem?_eq_some_iff.mp hslot
  have hsplit : Green.slotsWidth slots = Green.slotsWidth (slots.take k) + g.width +
      Green.slotsWidth (slots.drop (k + 1)) := by
    conv => lhs; rw [← List.take_append_drop k slots, List.drop_eq_getElem_cons hlt, hget]
    simp [Green.slotsWidth, Nat.add_assoc]
  simp only [span, View.offset, width, green, Text.Span.start_ofWidth, Text.Span.stop_ofWidth]
  omega

theorem successive_placeSlots (parent : View) (index place : Nat) (slots : List Slot) :
    Successive ((placeSlots parent index place slots).filterMap fun slot => slot) := by
  induction slots generalizing index place with
  | nil => exact .nil
  | cons slot slots ih =>
    cases slot with
    | none => exact ih (index + 1) place
    | some g =>
      refine List.pairwise_cons.mpr ⟨fun b hb => ?_, ih (index + 1) (place + g.width)⟩
      obtain ⟨slot, hslot, rfl⟩ := List.mem_filterMap.mp hb
      exact (span_of_mem_placeSlots hslot).1

/-- Children stand one after the other. -/
theorem successive_children (v : View) : Successive v.children :=
  successive_placeSlots v 0 v.offset v.green.slots

/-- Children stand within the span of their parent. -/
theorem span_covers_of_mem_children (hv : v.green.Genuine) (hc : c ∈ v.children) :
    v.span.covers c.span = true := by
  obtain ⟨slot, hslot, rfl⟩ := List.mem_filterMap.mp hc
  obtain ⟨hstart, hstop⟩ := span_of_mem_placeSlots hslot
  rw [Text.Span.covers_iff]
  rcases slots_eq_nil_or_stop_eq hv with hnil | hend
  · rw [View.slots, hnil] at hslot
    cases hslot
  · rw [hend]
    exact ⟨hstart, hstop⟩

/-- Everything below a view stands within its span. -/
theorem span_covers_of_mem_descendants (hv : v.green.Genuine) (hd : d ∈ v.descendants) :
    v.span.covers d.span = true := by
  induction v using inductChildren with
  | h v ih =>
    rcases mem_descendants_iff.mp hd with rfl | ⟨c, hc, hd⟩
    · exact Text.Span.covers_iff.mpr ⟨Nat.le_refl _, Nat.le_refl _⟩
    · exact Text.Span.covers_trans (span_covers_of_mem_children hv hc)
        (ih c hc (genuine_of_mem_children hv hc) hd)

/-- Tokens stand one after the other. -/
theorem successive_tokens (hv : v.green.Genuine) : Successive v.tokens := by
  induction v using inductChildren with
  | h v ih =>
    cases hnode : v.isNode with
    | false =>
      rw [tokens_of_not_isNode hnode]
      exact List.pairwise_singleton ..
    | true =>
      rw [tokens_of_isNode hnode]
      have hchild := fun c hc => genuine_of_mem_children (c := c) hv hc
      refine List.pairwise_flatMap.mpr ⟨fun c hc => ih c hc (hchild c hc), ?_⟩
      refine v.successive_children.imp_of_mem fun {a b} ha hb hab x hx y hy => ?_
      have hleft := span_covers_of_mem_descendants (hchild a ha) (List.mem_filter.mp hx).1
      have hright := span_covers_of_mem_descendants (hchild b hb) (List.mem_filter.mp hy).1
      rw [Text.Span.covers_iff] at hleft hright
      omega

section Touching

theorem touches_iff : v.touches offset = true ↔
    v.span.start < v.span.stop ∧ v.span.start ≤ offset ∧ offset ≤ v.span.stop := by
  have hle : v.span.start ≤ v.span.stop := Nat.le_add_right ..
  simp only [touches, Text.Span.isEmpty, Text.Span.touches, Bool.and_eq_true, Bool.not_eq_true',
    beq_eq_false_iff_ne, decide_eq_true_eq]
  omega

/-- An offset is touched by two views at most that stand one after the other, and it is touched by
two where the first of them ends and the second one starts. -/
theorem Successive.cases_of_touches (h : Successive views)
    (htouches : ∀ u ∈ views, u.touches offset = true) :
    views = [] ∨ (∃ t, views = [t]) ∨
      ∃ l r, views = [l, r] ∧ l.span.stop = offset ∧ r.span.start = offset := by
  rcases views with _ | ⟨a, _ | ⟨b, rest⟩⟩
  · exact .inl rfl
  · exact .inr (.inl ⟨a, rfl⟩)
  · obtain ⟨hfirst, htail⟩ := List.pairwise_cons.mp h
    have ha := touches_iff.mp (htouches a List.mem_cons_self)
    have hb := touches_iff.mp (htouches b (List.mem_cons_of_mem _ List.mem_cons_self))
    have hab := hfirst b List.mem_cons_self
    refine .inr (.inr ⟨a, b, ?_, by omega, by omega⟩)
    rcases rest with _ | ⟨c, rest⟩
    · rfl
    · -- A third one would start behind the second one, which starts at the offset and has text.
      have hmem : c ∈ a :: b :: c :: rest :=
        List.mem_cons_of_mem _ (List.mem_cons_of_mem _ List.mem_cons_self)
      have hc := touches_iff.mp (htouches c hmem)
      have hbc := (List.pairwise_cons.mp htail).1 c List.mem_cons_self
      omega

/-- Slots with text that start before an offset and end behind it have one that touches it. -/
theorem exists_touches_of_placeSlots (parent : View) (index : Nat)
    (hpos : 0 < Green.slotsWidth slots) (hstart : place ≤ offset)
    (hstop : offset ≤ place + Green.slotsWidth slots) :
    ∃ c, some c ∈ placeSlots parent index place slots ∧ c.touches offset = true := by
  induction slots generalizing index place with
  | nil => exact absurd hpos (Nat.lt_irrefl 0)
  | cons slot slots ih =>
    have hcons : Green.slotsWidth (slot :: slots) =
        slot.elim 0 Green.width + Green.slotsWidth slots := rfl
    rw [hcons] at hpos hstop
    cases slot with
    | none =>
      rw [Option.elim_none, Nat.zero_add] at hpos hstop
      obtain ⟨c, hc, htouches⟩ := ih (index + 1) hpos hstart hstop
      exact ⟨c, List.mem_cons_of_mem _ hc, htouches⟩
    | some g =>
      rw [Option.elim_some] at hpos hstop
      by_cases hhere : 0 < g.width ∧ offset ≤ place + g.width
      · refine ⟨_, List.mem_cons_self, touches_iff.mpr ?_⟩
        simp only [span, View.offset, width, green, Text.Span.start_ofWidth, Text.Span.stop_ofWidth]
        omega
      · obtain ⟨c, hc, htouches⟩ :=
          @ih (place + g.width) (index + 1) (by omega) (by omega) (by omega)
        exact ⟨c, List.mem_cons_of_mem _ hc, htouches⟩

/-- The tokens of a view that touch an offset. -/
def touching (offset : Nat) (v : View) : List View := v.tokens.filter fun t => t.touches offset

theorem Successive.filter {views : List View} (h : Successive views) (keeps : View → Bool) :
    Successive (views.filter keeps) := List.Pairwise.filter keeps h

theorem cases_touching (hv : v.green.Genuine) (offset : Nat) :
    v.touching offset = [] ∨ (∃ t, v.touching offset = [t]) ∨
      ∃ l r, v.touching offset = [l, r] ∧ l.span.stop = offset ∧ r.span.start = offset :=
  ((successive_tokens hv).filter _).cases_of_touches fun _ hu => (List.mem_filter.mp hu).2

/-- A view that does not touch an offset has no token that does. -/
theorem touching_eq_nil (hv : v.green.Genuine) (h : v.touches offset = false) :
    v.touching offset = [] := by
  refine List.filter_eq_nil_iff.mpr fun t ht htouches => ?_
  have hcovers := span_covers_of_mem_descendants hv (List.mem_filter.mp ht).1
  rw [Text.Span.covers_iff] at hcovers
  rw [touches_iff] at htouches
  refine absurd (touches_iff.mpr ?_) (by rw [h]; decide)
  omega

/-- A view that touches an offset has a token that does. -/
theorem touching_ne_nil (hv : v.green.Genuine) (h : v.touches offset = true) :
    v.touching offset ≠ [] := by
  suffices hmem : ∃ t, t ∈ v.touching offset by
    obtain ⟨t, ht⟩ := hmem
    exact List.ne_nil_of_mem ht
  induction v using inductChildren with
  | h v ih =>
    cases hnode : v.isNode with
    | false =>
      refine ⟨v, List.mem_filter.mpr ⟨?_, h⟩⟩
      rw [tokens_of_not_isNode hnode]
      exact List.mem_cons_self
    | true =>
      have hwidth : Green.slotsWidth v.green.slots = v.width := hv.slotsWidth_slots hnode
      rw [touches_iff, span, Text.Span.start_ofWidth, Text.Span.stop_ofWidth, ← hwidth] at h
      obtain ⟨c, hc, htouches⟩ := exists_touches_of_placeSlots v 0 (by omega) h.2.1 h.2.2
      have hchild : c ∈ v.children := List.mem_filterMap.mpr ⟨some c, hc, rfl⟩
      obtain ⟨t, ht⟩ := ih c hchild (genuine_of_mem_children hv hchild) htouches
      obtain ⟨htoken, htouches⟩ := List.mem_filter.mp ht
      refine ⟨t, List.mem_filter.mpr ⟨?_, htouches⟩⟩
      rw [tokens_of_isNode hnode]
      exact List.mem_flatMap.mpr ⟨c, hchild, htoken⟩

/-- Of some views only those that touch an offset have tokens that do. -/
theorem flatMap_touching (h : ∀ u ∈ views, u.green.Genuine) (offset : Nat) :
    views.flatMap (touching offset) =
      (views.filter fun u => u.touches offset).flatMap (touching offset) := by
  induction views with
  | nil => rfl
  | cons u views ih =>
    have htail := ih fun d hd => h d (List.mem_cons_of_mem _ hd)
    cases htouches : u.touches offset with
    | true => rw [List.filter_cons, if_pos htouches, List.flatMap_cons, List.flatMap_cons, htail]
    | false =>
      have hnone := touching_eq_nil (h u List.mem_cons_self) htouches
      rw [List.filter_cons, if_neg (by simp [htouches]), List.flatMap_cons, htail, hnone,
        List.nil_append]

theorem touching_of_isNode (hv : v.green.Genuine) (hnode : v.isNode = true) (offset : Nat) :
    v.touching offset =
      (v.children.filter fun c => c.touches offset).flatMap (touching offset) := by
  rw [← flatMap_touching fun c hc => genuine_of_mem_children hv hc, touching,
    tokens_of_isNode hnode, List.filter_flatMap]
  rfl

/-- Where two children touch an offset, each of them has one token that does, and there are no more
tokens that do. -/
theorem touching_of_two (hv : v.green.Genuine) (hnode : v.isNode = true) {left right : View}
    {others : List View}
    (h : (v.children.filter fun c => c.touches offset) = left :: right :: others) :
    ∃ l r, left.touching offset = [l] ∧ right.touching offset = [r] ∧
      v.touching offset = [l, r] := by
  have hmem {c : View} (hc : c ∈ left :: right :: others) :
      c.green.Genuine ∧ c.touches offset = true := by
    rw [← h] at hc
    obtain ⟨hchild, htouches⟩ := List.mem_filter.mp hc
    exact ⟨genuine_of_mem_children hv hchild, htouches⟩
  obtain ⟨hleft, htouchesLeft⟩ := hmem List.mem_cons_self
  obtain ⟨hright, htouchesRight⟩ := hmem (List.mem_cons_of_mem _ List.mem_cons_self)
  obtain ⟨l, ls, hl⟩ := List.exists_cons_of_ne_nil (touching_ne_nil hleft htouchesLeft)
  obtain ⟨r, rs, hr⟩ := List.exists_cons_of_ne_nil (touching_ne_nil hright htouchesRight)
  have hscan : v.touching offset =
      (l :: ls) ++ ((r :: rs) ++ others.flatMap (touching offset)) := by
    rw [touching_of_isNode hv hnode, h, List.flatMap_cons, List.flatMap_cons, hl, hr]
  -- The tokens that touch the offset are two at most, so there is no room for more of them.
  have hlength : (v.touching offset).length ≤ 2 := by
    rcases cases_touching hv offset with hnil | ⟨t, hone⟩ | ⟨a, b, htwo, -⟩
    · exact hnil ▸ Nat.zero_le 2
    · exact hone ▸ Nat.le_succ 1
    · exact htwo ▸ Nat.le_refl 2
  rw [hscan] at hlength
  simp only [List.length_append, List.length_cons] at hlength
  obtain rfl : ls = [] := List.length_eq_zero_iff.mp (by omega)
  obtain rfl : rs = [] := List.length_eq_zero_iff.mp (by omega)
  have hothers : others.flatMap (touching offset) = [] := List.length_eq_zero_iff.mp (by omega)
  exact ⟨l, r, hl, hr, by rw [hscan, hothers]; rfl⟩

end Touching

end View

namespace TokensAt

theorem left?_eq (t : TokensAt) : t.left? = t.toList.head? := by cases t <;> rfl

theorem right?_eq (t : TokensAt) : t.right? = t.toList.getLast? := by cases t <;> rfl

theorem toList_inj {s t : TokensAt} (h : s.toList = t.toList) : s = t := by
  cases s <;> cases t <;> cases h <;> rfl

end TokensAt

namespace View

variable {v d : View}

/-- The search for the tokens at an offset finds what a scan of all tokens finds. -/
theorem toList_tokensAt (hv : v.green.Genuine) {offset : Nat}
    (h : v.isNode = true ∨ v.touches offset = true) :
    (v.tokensAt offset).toList = v.touching offset := by
  fun_induction tokensAt v offset with
  | case1 v hnode _ hnone =>
    rw [touching_of_isNode hv hnode, hnone]
    rfl
  | case2 v hnode _ only honly hmem ih =>
    have htouches := (List.mem_filter.mp (honly ▸ List.mem_cons_self)).2
    rw [touching_of_isNode hv hnode, honly, ih (genuine_of_mem_children hv hmem) (.inr htouches)]
    simp
  | case3 v hnode _ left right others htwo hleft hright ihleft ihright =>
    have htouches {c : View} (hc : c ∈ left :: right :: others) : c.touches offset = true := by
      rw [← htwo] at hc
      exact (List.mem_filter.mp hc).2
    obtain ⟨l, r, hl, hr, hscan⟩ := touching_of_two hv hnode htwo
    have hfoundLeft := ihleft (genuine_of_mem_children hv hleft)
      (.inr (htouches List.mem_cons_self))
    have hfoundRight := ihright (genuine_of_mem_children hv hright)
      (.inr (htouches (List.mem_cons_of_mem _ List.mem_cons_self)))
    rw [TokensAt.left?_eq, TokensAt.right?_eq, hfoundLeft, hfoundRight, hl, hr, hscan]
    rfl
  | case4 v _ htouches =>
    rw [touching_eq_nil hv (by simpa using htouches)]
    rfl
  | case5 v hnode =>
    have hnode : v.isNode = false := by simpa using hnode
    have htouches := h.resolve_left (by simp [hnode])
    rw [touching, tokens_of_not_isNode hnode, List.filter_cons, if_pos htouches]
    rfl

section Covering

variable {range : Text.Span}

/-- An element covers a range that does not run backwards just if its span does. -/
theorem covers_eq (h : range.start ≤ range.stop) : v.covers range = v.span.covers range := by
  have hle : v.span.start ≤ v.span.stop := Nat.le_add_right ..
  cases hcovers : v.span.covers range with
  | false => rw [covers, hcovers, Bool.false_and]
  | true =>
    rw [Text.Span.covers_iff] at hcovers
    simp only [covers, Text.Span.covers_iff.mpr hcovers, Text.Span.isEmpty, Bool.true_and,
      Bool.or_eq_true, Bool.not_eq_true', beq_eq_false_iff_ne, beq_iff_eq]
    omega

theorem covers_of_find? {views : List View} {c : View}
    (h : (views.find? fun c => c.covers range) = some c) : c.covers range = true :=
  @List.find?_some View (fun c => c.covers range) _ _ h

/-- What is found stands below the view, and nothing in its slots covers the range. -/
theorem covering_spec (v : View) (range : Text.Span) :
    v.covering range ∈ v.descendants ∧
      (v.covers range = true → (v.covering range).covers range = true) ∧
      ∀ c ∈ (v.covering range).children, c.covers range = false := by
  fun_induction covering v range with
  | case1 v hnone =>
    exact ⟨mem_descendants_iff.mpr (.inl rfl), id, by simpa using hnone⟩
  | case2 v c hsome hmem ih =>
    obtain ⟨hbelow, hcovers, hchildren⟩ := ih
    exact ⟨mem_descendants_iff.mpr (.inr ⟨c, hmem, hbelow⟩),
      fun _ => hcovers (covers_of_find? hsome), hchildren⟩

/-- At most one of the views that stand one after the other covers a range with text. -/
theorem Successive.eq_of_covers {views : List View} (h : Successive views)
    (hrange : range.start < range.stop) {a b : View} (ha : a ∈ views) (hb : b ∈ views)
    (hacovers : a.span.covers range = true) (hbcovers : b.span.covers range = true) : a = b := by
  rw [Text.Span.covers_iff] at hacovers hbcovers
  induction h with
  | nil => cases ha
  | @cons c views hfirst _ ih =>
    rcases List.mem_cons.mp ha with rfl | hatail <;> rcases List.mem_cons.mp hb with rfl | hbtail
    · rfl
    · have hab := hfirst b hbtail
      omega
    · have hba := hfirst a hatail
      omega
    · exact ih hatail hbtail

/-- A child covers what something below it covers. -/
theorem span_covers_of_below {c : View} (hv : v.green.Genuine) (hc : c ∈ v.children)
    (hd : d ∈ c.descendants) (hcovers : d.span.covers range = true) : c.span.covers range = true :=
  Text.Span.covers_trans (span_covers_of_mem_descendants (genuine_of_mem_children hv hc) hd) hcovers

/-- What covers a range with text stands above what is found, or is found. -/
theorem mem_ancestors_covering (hv : v.green.Genuine) (hrange : range.start < range.stop)
    (hd : d ∈ v.descendants) (hcovers : d.span.covers range = true) :
    d ∈ (v.covering range).ancestors := by
  have hle := Nat.le_of_lt hrange
  fun_induction covering v range with
  | case1 v hnone =>
    rcases mem_descendants_iff.mp hd with rfl | ⟨c, hc, hd⟩
    · exact self_mem_ancestors d
    · have hmissed := List.find?_eq_none.mp hnone c hc
      rw [covers_eq hle] at hmissed
      exact absurd (span_covers_of_below hv hc hd hcovers) hmissed
  | case2 v c hsome hmem ih =>
    rcases mem_descendants_iff.mp hd with rfl | ⟨b, hb, hd⟩
    · obtain ⟨path, hpath⟩ := mem_descendants.mp (c.covering_spec range).1
      obtain ⟨index, hindex⟩ := mem_children.mp hmem
      exact mem_ancestors_of_descend? ((descend?_cons_of_slot hindex path).trans hpath)
    · have hfound := covers_of_find? hsome
      rw [covers_eq hle] at hfound
      have hcovered := span_covers_of_below hv hb hd hcovers
      obtain rfl := v.successive_children.eq_of_covers hrange hb hmem hcovered hfound
      exact ih (genuine_of_mem_children hv hb) hd

end Covering

end View

namespace Workspace

variable {w : Workspace} {g : Green} {tag : Nat} {v : View}

/-- Wherever one gets by moving about in a tree of a workspace, one gets to genuine elements. -/
theorem Reachable.genuine_of_reaches (hw : w.Reachable) (hg : w.Live g)
    (hv : (View.root tag g).Reaches v) : v.green.Genuine := by
  have hgenuine : (View.root tag g).green.Genuine := hw.genuine.of_live hg
  exact (hv.stands ⟨trivial, rfl⟩ hgenuine).genuine hgenuine

/-- The tree of `letb` with a node around the keyword, and with a missing name before the node
around the name and in it. -/
def gapped : Green :=
  let keyword : Green := .token ⟨⟨0, 0⟩, ⟨.letKw, .present, "let", [], []⟩⟩
  let gap : Green := .token ⟨⟨0, 1⟩, ⟨.ident, .missing, "", [], []⟩⟩
  let name : Green := .token ⟨⟨0, 2⟩, ⟨.ident, .present, "b", [], []⟩⟩
  let left : Green := .node ⟨⟨0, 3⟩, .letDecl, .present, 3, false⟩ [some keyword]
  let right : Green := .node ⟨⟨0, 4⟩, .nameExpr, .present, 1, true⟩ [none, some gap, some name]
  .node ⟨⟨0, 5⟩, .stmtList, .present, 4, true⟩ [some left, some gap, some right]

/-- Such a tree is in use in some workspace. -/
theorem exists_live_gapped : ∃ w : Workspace, w.Reachable ∧ w.Live gapped :=
  ⟨_, @Scene.reachable_ofTrees [gapped] rfl, Scene.live_of_found rfl⟩

/-- Take any node of a tree that is in use in a workspace that can be reached, and any offset. The
tokens at the offset are, in order, the tokens of the node with text that start at the offset or
before it and end there or behind it. There is none, one or two of them, and this is what the answer
says; where there are two, the first one ends and the second one starts at the offset. -/
theorem Reachable.tokensAt_eq_scan (hw : w.Reachable) (hg : w.Live g)
    (hv : (View.root tag g).Reaches v) (hnode : v.isNode = true) (offset : Nat) :
    let scan := v.tokens.filter fun t =>
      t.width ≠ 0 && t.span.start ≤ offset && offset ≤ t.span.stop
    (v.tokensAt offset).toList = scan ∧
      (scan = [] ∧ v.tokensAt offset = .none ∨
        (∃ t, scan = [t] ∧ v.tokensAt offset = .single t) ∨
        ∃ l r, scan = [l, r] ∧ v.tokensAt offset = .between l r ∧ l.span.stop = offset ∧
          r.span.start = offset) := by
  intro scan
  have hgenuine := hw.genuine_of_reaches hg hv
  have hscan : v.touching offset = scan := by
    refine List.filter_congr fun t _ => Bool.eq_iff_iff.mpr ?_
    rw [View.touches_iff, View.span, Text.Span.start_ofWidth, Text.Span.stop_ofWidth]
    simp only [Bool.and_eq_true, decide_eq_true_eq]
    omega
  have hfound : (v.tokensAt offset).toList = _ := View.toList_tokensAt hgenuine (.inl hnode)
  have hcases := View.cases_touching hgenuine offset
  rw [hscan] at hfound hcases
  refine ⟨hfound, ?_⟩
  rcases hcases with hnil | ⟨t, hone⟩ | ⟨l, r, htwo, hends⟩
  · exact .inl ⟨hnil, TokensAt.toList_inj (hfound.trans hnil)⟩
  · exact .inr (.inl ⟨t, hone, TokensAt.toList_inj (hfound.trans hone)⟩)
  · exact .inr (.inr ⟨l, r, htwo, TokensAt.toList_inj (hfound.trans htwo), hends⟩)

/-- Between the keyword and the name of the tree with gaps stand missing names and an empty slot. -/
theorem Reachable.tokensAt_eq_scan_gaps :
    ∃ (w : Workspace) (l r : View), w.Reachable ∧ w.Live gapped ∧
      (View.root 0 gapped).tokensAt 3 = .between l r ∧ l.path = [0, 0] ∧ r.path = [2, 2] ∧
      l.span.stop = 3 ∧ r.span.start = 3 := by
  obtain ⟨w, hw, hg⟩ := exists_live_gapped
  obtain ⟨-, hcases⟩ := @Reachable.tokensAt_eq_scan w gapped 0 (.root 0 gapped) hw hg .refl rfl 3
  have hpaths : (((View.root 0 gapped).tokens.filter fun t =>
      t.width ≠ 0 && t.span.start ≤ 3 && 3 ≤ t.span.stop).map View.path) = [[0, 0], [2, 2]] := by
    rw [View.tokens, View.descendants_eq]
    decide +kernel
  rcases hcases with ⟨hnil, -⟩ | ⟨t, hone, -⟩ | ⟨l, r, htwo, hfound, hl, hr⟩
  · rw [hnil] at hpaths
    cases hpaths
  · rw [hone] at hpaths
    cases congrArg List.length hpaths
  · rw [htwo] at hpaths
    simp only [List.map_cons, List.map_nil, List.cons.injEq, and_true] at hpaths
    exact ⟨w, l, r, hw, hg, hfound, hpaths.1, hpaths.2, hl, hr⟩

/-- Take any view of a tree that is in use in a workspace that can be reached, and any range inside
its span. What covers the range is found below the view: its span contains the range, and no span of
something in its slots does. If the range is not empty, everything below the view whose span
contains the range is what is found or one of its ancestors. -/
theorem Reachable.covering_deepest (hw : w.Reachable) (hg : w.Live g)
    (hv : (View.root tag g).Reaches v) {range : Text.Span} (hrange : range.start ≤ range.stop)
    (hinside : v.span.covers range = true) :
    v.covering range ∈ v.descendants ∧ (v.covering range).span.covers range = true ∧
      (∀ c ∈ (v.covering range).children, c.span.covers range = false) ∧
      (range.start < range.stop → ∀ d ∈ v.descendants, d.span.covers range = true →
        d ∈ (v.covering range).ancestors) := by
  obtain ⟨hbelow, hcovers, hchildren⟩ := v.covering_spec range
  rw [View.covers_eq hrange, View.covers_eq hrange] at hcovers
  refine ⟨hbelow, hcovers hinside, fun c hc => ?_, fun hlt d hd hcovers => ?_⟩
  · rw [← View.covers_eq hrange, hchildren c hc]
  · exact View.mem_ancestors_covering (hw.genuine_of_reaches hg hv) hlt hd hcovers

/-- From the node around the name of the tree with gaps, the range of the name leads to the name. -/
theorem Reachable.covering_deepest_name :
    ∃ (w : Workspace) (v name : View), w.Reachable ∧ w.Live gapped ∧
      (View.root 0 gapped).Reaches v ∧ v.path = [2] ∧ v.span.covers ⟨3, 4⟩ = true ∧
      v.covering ⟨3, 4⟩ ∈ v.descendants ∧ (v.covering ⟨3, 4⟩).span.covers ⟨3, 4⟩ = true ∧
      name.path = [2, 2] ∧ name ∈ (v.covering ⟨3, 4⟩).ancestors := by
  obtain ⟨w, hw, hg⟩ := exists_live_gapped
  obtain ⟨v, hv, hpath⟩ : ∃ v, (View.root 0 gapped).descend? [2] = some v ∧ v.path = [2] :=
    ⟨_, rfl, rfl⟩
  obtain ⟨name, hname, hnamePath⟩ : ∃ name, v.descend? [2] = some name ∧ name.path = [2, 2] := by
    cases hv
    exact ⟨_, rfl, rfl⟩
  have hreaches : (View.root 0 gapped).Reaches v := .move .refl (.descend hv)
  have hinside : v.span.covers ⟨3, 4⟩ = true := by
    cases hv
    decide
  have hcovers : name.span.covers ⟨3, 4⟩ = true := by
    cases hv
    cases hname
    decide
  obtain ⟨hbelow, hfound, -, hdeepest⟩ := hw.covering_deepest hg hreaches (by decide) hinside
  have hancestor := hdeepest (by decide) name (View.mem_descendants.mpr ⟨[2], hname⟩) hcovers
  exact ⟨w, v, name, hw, hg, hreaches, hpath, hinside, hbelow, hfound, hnamePath, hancestor⟩

end Workspace

end Verbatim
