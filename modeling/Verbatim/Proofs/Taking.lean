import Verbatim.Collection
import Verbatim.Proofs.Searching

/-!
# Taking from both ends

The children of a node, and the members of a collection, are taken from the front and from the back
in any interleaving. What was taken from the front, what is left, and what was taken from the back
in reverse are always the present slots in order. So nothing is taken twice or left out, wherever
the two ends meet. A place in a collection is moved from member to member and back, and its offset
is always the one that the widths of the members before it give.
-/

namespace Verbatim

namespace View

/-- What stands in slots, the first of them at `index` and `offset`. -/
def inSlots (parent : View) (index offset : Nat) (slots : List Slot) : List View :=
  (placeSlots parent index offset slots).filterMap fun slot => slot

theorem inSlots_append (parent : View) (index offset : Nat) (a b : List Slot) :
    inSlots parent index offset (a ++ b) = inSlots parent index offset a ++
      inSlots parent (index + a.length) (offset + Green.slotsWidth a) b := by
  induction a generalizing index offset with
  | nil => rfl
  | cons slot a ih =>
    have hindex : index + 1 + a.length = index + (a.length + 1) := by omega
    cases slot with
    | none =>
      have hwidth : Green.slotsWidth (none :: a) = Green.slotsWidth a := Nat.zero_add _
      rw [hwidth, List.length_cons, ← hindex]
      exact ih (index + 1) offset
    | some g =>
      have hwidth : offset + Green.slotsWidth (some g :: a) =
          offset + g.width + Green.slotsWidth a := (Nat.add_assoc ..).symm
      rw [hwidth, List.length_cons, ← hindex]
      exact congrArg (View.child parent index offset g :: ·) (ih (index + 1) (offset + g.width))

theorem length_inSlots_le (parent : View) (index offset : Nat) (slots : List Slot) :
    (inSlots parent index offset slots).length ≤ slots.length := by
  induction slots generalizing index offset with
  | nil => exact Nat.le_refl 0
  | cons slot slots ih =>
    cases slot with
    | none => exact Nat.le_succ_of_le (ih (index + 1) offset)
    | some g => exact Nat.succ_le_succ (ih (index + 1) (offset + g.width))

/-- The slots of a view are what is found at the indices one by one. -/
theorem slots_eq_map (v : View) : v.slots = (List.range v.slotCount).map v.slot? := by
  apply List.ext_getElem?
  intro k
  rw [slots, getElem?_placeSlots, List.getElem?_map]
  by_cases hk : k < v.green.slots.length
  · have hrange : (List.range v.slotCount)[k]? = some k := List.getElem?_range hk
    rw [hrange, List.getElem?_eq_getElem hk, Option.map_some, Option.map_some, slot?_eq,
      List.getElem?_eq_getElem hk, Nat.zero_add]
    rfl
  · have hrange : (List.range v.slotCount)[k]? = none := by
      apply List.getElem?_eq_none
      rw [List.length_range]
      exact Nat.le_of_not_lt hk
    rw [hrange, List.getElem?_eq_none (Nat.le_of_not_lt hk)]
    rfl

/-- The children of a view are what is found at the indices, empty slots left out. -/
theorem children_eq_filterMap (v : View) :
    v.children = (List.range v.slotCount).filterMap v.slot? := by
  rw [children, slots_eq_map, List.filterMap_map]
  rfl

end View

/-- What was taken from the front and from the back, both in the order in which it was taken, and
what is left then. -/
inductive Taken {σ : Type} (next nextBack : σ → Option View × σ) (start : σ) :
    List View → List View → σ → Prop where
  | start : Taken next nextBack start [] [] start
  | next {fronts backs : List View} {left : σ} : Taken next nextBack start fronts backs left →
      Taken next nextBack start (fronts ++ (next left).1.toList) backs (next left).2
  | nextBack {fronts backs : List View} {left : σ} : Taken next nextBack start fronts backs left →
      Taken next nextBack start fronts (backs ++ (nextBack left).1.toList) (nextBack left).2

/-- Two ends of which one gives the first and the other the last of some views, and both leave the
others, as long as an invariant holds. -/
structure TwoEnded {σ : Type} (next nextBack : σ → Option View × σ) (views : σ → List View)
    (inv : σ → Prop) : Prop where
  front : ∀ s, inv s → (next s).1 = (views s).head? ∧ views (next s).2 = (views s).tail ∧
    inv (next s).2
  back : ∀ s, inv s → (nextBack s).1 = (views s).getLast? ∧
    views (nextBack s).2 = (views s).dropLast ∧ inv (nextBack s).2

/-- What was taken from both ends and what is left make up all views, however it was taken. -/
theorem TwoEnded.taken {σ : Type} {next nextBack : σ → Option View × σ} {views : σ → List View}
    {inv : σ → Prop} (hends : TwoEnded next nextBack views inv) {start left : σ}
    (hstart : inv start) {fronts backs : List View}
    (h : Taken next nextBack start fronts backs left) :
    inv left ∧ views start = fronts ++ views left ++ backs.reverse := by
  induction h with
  | start => exact ⟨hstart, by simp⟩
  | @next fronts backs left _ ih =>
    obtain ⟨hinv, hviews⟩ := ih
    obtain ⟨hfirst, hrest, hinv'⟩ := hends.front left hinv
    refine ⟨hinv', ?_⟩
    rw [hfirst, hrest, hviews]
    cases views left with
    | nil => simp
    | cons v rest => simp
  | @nextBack fronts backs left _ ih =>
    obtain ⟨hinv, hviews⟩ := ih
    obtain ⟨hlast, hrest, hinv'⟩ := hends.back left hinv
    refine ⟨hinv', ?_⟩
    rw [hlast, hrest, hviews]
    rcases List.eq_nil_or_concat (views left) with hnil | ⟨init, last, hconcat⟩
    · rw [hnil]
      simp
    · rw [hconcat, List.concat_eq_append, List.getLast?_concat, List.dropLast_concat]
      simp

namespace Children

/-- The children that are left, in their places. -/
def left (c : Children) : List View := View.inSlots c.parent c.front c.frontOffset c.slots

/-- Whether the back is where what is left ends, as long as something is left. -/
def Fits (c : Children) : Prop :=
  c.slots = [] ∨ c.backOffset = c.frontOffset + Green.slotsWidth c.slots

variable {c : Children}

/-- The front gives the first child that is left. -/
theorem next_spec (c : Children) : c.next.1 = c.left.head? ∧ c.next.2.left = c.left.tail ∧
    (c.Fits → c.next.2.Fits) := by
  fun_induction next c with
  | case1 c hs =>
    have hleft : c.left = [] := by rw [left, hs]; rfl
    rw [hleft]
    exact ⟨rfl, rfl, id⟩
  | case2 c rest hs _ ih =>
    have hleft : c.left = left { c with front := c.front + 1, slots := rest } := by
      rw [left, hs]
      rfl
    obtain ⟨hhead, htail, hfits⟩ := ih
    rw [hleft]
    refine ⟨hhead, htail, fun h => hfits ?_⟩
    have hback := h.resolve_left (by simp [hs])
    rw [hs] at hback
    right
    simpa [Green.slotsWidth] using hback
  | case3 c g rest hs =>
    have hleft : c.left = .child c.parent c.front c.frontOffset g ::
        View.inSlots c.parent (c.front + 1) (c.frontOffset + g.width) rest := by
      rw [left, hs]
      rfl
    rw [hleft]
    refine ⟨rfl, rfl, fun h => ?_⟩
    have hback := h.resolve_left (by simp [hs])
    rw [hs] at hback
    right
    simpa [Green.slotsWidth, Nat.add_assoc] using hback

/-- The back gives the last child that is left. -/
theorem nextBack_spec (h : c.Fits) : c.nextBack.1 = c.left.getLast? ∧
    c.nextBack.2.left = c.left.dropLast ∧ c.nextBack.2.Fits := by
  fun_induction nextBack c with
  | case1 c hs =>
    have hleft : c.left = [] := by rw [left, List.getLast?_eq_none_iff.mp hs]; rfl
    rw [hleft]
    exact ⟨rfl, rfl, h⟩
  | case2 c hs _ ih =>
    obtain ⟨init, hinit⟩ := List.getLast?_eq_some_iff.mp hs
    have hback := h.resolve_left (by simp [hinit])
    have hleft : c.left = left { c with slots := c.slots.dropLast } := by
      rw [left, left, hinit, View.inSlots_append, List.dropLast_concat]
      exact List.append_nil _
    rw [hleft]
    apply ih
    right
    simpa [hinit, Green.slotsWidth] using hback
  | case3 c g hs offset =>
    obtain ⟨init, hinit⟩ := List.getLast?_eq_some_iff.mp hs
    have hback := h.resolve_left (by simp [hinit])
    have hoffset : offset = c.frontOffset + Green.slotsWidth init := by
      simp only [offset, hback, hinit, Green.slotsWidth, sumOf_append, sumOf_cons, sumOf_nil,
        Option.elim_some]
      omega
    have hindex : c.front + (c.slots.length - 1) = c.front + init.length := by simp [hinit]
    have hleft : c.left = View.inSlots c.parent c.front c.frontOffset init ++
        [.child c.parent (c.front + init.length) (c.frontOffset + Green.slotsWidth init) g] := by
      rw [left, hinit, View.inSlots_append]
      rfl
    have hdrop : c.slots.dropLast = init := by rw [hinit, List.dropLast_concat]
    rw [hleft, hindex, hoffset, List.getLast?_concat, List.dropLast_concat]
    refine ⟨rfl, ?_, .inr ?_⟩
    · rw [left, hdrop]
    · rw [hdrop]

theorem twoEnded : TwoEnded next nextBack left Fits where
  front c h := by
    obtain ⟨hhead, htail, hfits⟩ := c.next_spec
    exact ⟨hhead, htail, hfits h⟩
  back c h := nextBack_spec h

theorem fits_ofView {v : View} (hv : v.green.Genuine) : (ofView v).Fits :=
  View.slots_eq_nil_or_stop_eq hv

end Children

namespace Members

/-- Whether the number of members that are left is right. -/
def Counted (m : Members) : Prop := m.children.Fits ∧ m.remaining = m.children.left.length

theorem fst_counted (m : Members) (taken : Option View × Children) :
    (m.counted taken).1 = taken.1 := by
  obtain ⟨taken, rest⟩ := taken
  cases taken <;> rfl

theorem children_counted (m : Members) (taken : Option View × Children) :
    (m.counted taken).2.children = taken.2 := by
  obtain ⟨taken, rest⟩ := taken
  cases taken <;> rfl

theorem remaining_counted (m : Members) (taken : Option View × Children) :
    (m.counted taken).2.remaining = m.remaining - taken.1.toList.length := by
  obtain ⟨taken, rest⟩ := taken
  cases taken <;> rfl

theorem twoEnded : TwoEnded next nextBack (fun m => m.children.left) Counted where
  front m h := by
    obtain ⟨hhead, htail, hfits⟩ := m.children.next_spec
    rw [next, fst_counted, Counted, children_counted, remaining_counted, hhead, htail, h.2]
    refine ⟨rfl, rfl, hfits h.1, ?_⟩
    cases m.children.left <;> rfl
  back m h := by
    obtain ⟨hlast, hinit, hfits⟩ := Children.nextBack_spec h.1
    rw [nextBack, fst_counted, Counted, children_counted, remaining_counted, hlast, hinit, h.2,
      List.length_dropLast]
    refine ⟨rfl, rfl, hfits, ?_⟩
    cases hleft : m.children.left with
    | nil => rfl
    | cons v rest => rw [List.getLast?_cons, Option.toList_some, List.length_singleton]

end Members

namespace Collection

/-- Whether every slot of a collection holds a member. -/
def Full (c : Collection) : Prop := ∀ slot ∈ c.view.green.slots, slot ≠ none

variable {c : Collection} {p q : Place}

theorem Full.exists_member (h : c.Full) {index : Nat} (hindex : index < c.length) :
    ∃ g, c.view.green.slots[index]? = some (some g) := by
  have hget : c.view.green.slots[index]? = some c.view.green.slots[index] :=
    List.getElem?_eq_getElem hindex
  cases hslot : c.view.green.slots[index] with
  | none => exact absurd hslot (h _ (List.getElem_mem hindex))
  | some g => exact ⟨g, hslot ▸ hget⟩

/-- The members of a full collection are found at its indices one by one. -/
theorem Full.map_members (h : c.Full) :
    (List.range c.length).map c.get? = c.view.children.map some := by
  rw [View.children_eq_filterMap, List.map_filterMap_some_eq_filter_map_isSome]
  refine (List.filter_eq_self.mpr fun slot hslot => ?_).symm
  obtain ⟨index, hindex, rfl⟩ := List.mem_map.mp hslot
  obtain ⟨g, hg⟩ := h.exists_member (List.mem_range.mp hindex)
  rw [get?, View.slot?_eq, hg]
  rfl

/-- The places that are met by moving from the ends of a collection over its members. -/
inductive Met (c : Collection) : Place → Prop where
  | start : Met c c.startPlace
  | stop : Met c c.endPlace
  | after {p q : Place} : Met c p → c.placeAfter p = .ok q → Met c q
  | before {p q : Place} : Met c p → c.placeBefore p = .ok q → Met c q

/-- Whether a place is between members, where their widths say. -/
structure Between (c : Collection) (p : Place) : Prop where
  index_le : p.index ≤ c.length
  offset_eq : p.offset = c.view.offset + Green.slotsWidth (c.view.green.slots.take p.index)

theorem memberAt_eq {index : Nat} {g : Green}
    (h : c.view.green.slots[index]? = some (some g)) : c.memberAt index = .ok g := by
  rw [memberAt, Green.slot, h]
  rfl

theorem Between.placeAfter (h : c.Between p) (hfull : c.Full) (hindex : p.index < c.length) :
    ∃ q, c.placeAfter p = .ok q ∧ q.index = p.index + 1 ∧ c.Between q := by
  obtain ⟨g, hg⟩ := hfull.exists_member hindex
  refine ⟨⟨p.index + 1, p.offset + g.width⟩, ?_, rfl, hindex, ?_⟩
  · rw [Collection.placeAfter, if_pos hindex, memberAt_eq hg]
    rfl
  · rw [h.offset_eq, List.take_add_one, hg]
    simp [Green.slotsWidth, Nat.add_assoc]

theorem Between.placeBefore (h : c.Between p) (hfull : c.Full) (hindex : 0 < p.index) :
    ∃ q, c.placeBefore p = .ok q ∧ q.index = p.index - 1 ∧ c.Between q := by
  have hle := h.index_le
  obtain ⟨g, hg⟩ := hfull.exists_member (show p.index - 1 < c.length by omega)
  have hoffset := h.offset_eq
  rw [show p.index = p.index - 1 + 1 by omega, List.take_add_one, hg] at hoffset
  refine ⟨⟨p.index - 1, p.offset - g.width⟩, ?_, rfl, ?_, ?_⟩
  · rw [Collection.placeBefore, if_pos hindex, memberAt_eq hg]
    rfl
  · exact Nat.le_trans (Nat.sub_le ..) hle
  · rw [hoffset]
    simp only [Green.slotsWidth, sumOf_append, Option.toList_some, sumOf_cons, sumOf_nil,
      Option.elim_some]
    omega

/-- Every place that is met is between members. -/
theorem Met.between (h : c.Met p) (hfull : c.Full)
    (hstop : c.view.span.stop = c.view.offset + Green.slotsWidth c.view.green.slots) :
    c.Between p := by
  induction h with
  | start => exact ⟨Nat.zero_le _, rfl⟩
  | stop =>
    refine ⟨Nat.le_refl _, ?_⟩
    rw [endPlace, hstop, length, View.slotCount, List.take_length]
  | @after p q _ hq ih =>
    by_cases hindex : p.index < c.length
    · obtain ⟨q', hq', -, hbetween⟩ := ih.placeAfter hfull hindex
      cases hq.symm.trans hq'
      exact hbetween
    · rw [Collection.placeAfter, if_neg hindex] at hq
      cases hq
  | @before p q _ hq ih =>
    by_cases hindex : 0 < p.index
    · obtain ⟨q', hq', -, hbetween⟩ := ih.placeBefore hfull hindex
      cases hq.symm.trans hq'
      exact hbetween
    · rw [Collection.placeBefore, if_neg hindex] at hq
      cases hq

/-- The member at a place is the one at its index. -/
theorem Between.getAt (h : c.Between p) (hfull : c.Full) (hindex : p.index < c.length) :
    ∃ u, c.get? p.index = some u ∧ c.getAt p = .ok u := by
  obtain ⟨g, hg⟩ := hfull.exists_member hindex
  refine ⟨.child c.view p.index p.offset g, ?_, ?_⟩
  · rw [get?, View.slot?_eq, hg, h.offset_eq]
    rfl
  · rw [Collection.getAt, memberAt_eq hg]
    rfl

/-- A place is the last one if no member is behind it. -/
theorem Between.eq_endPlace_iff (h : c.Between p)
    (hstop : c.view.span.stop = c.view.offset + Green.slotsWidth c.view.green.slots) :
    p = c.endPlace ↔ p.index = c.length := by
  constructor
  · rintro rfl
    rfl
  · intro hindex
    have hoffset : p.offset = c.view.span.stop := by
      rw [h.offset_eq, hindex, hstop, length, View.slotCount, List.take_length]
    rw [endPlace, ← hindex, ← hoffset]

end Collection

namespace Workspace

variable {w : Workspace} {g : Green} {tag : Nat} {v : View}

/-- Take any node of a tree that is in use in a workspace that can be reached. However its children
are taken from both ends, those from the front, those that are left, and those from the back in
reverse are what is found at the indices of its slots, empty slots left out; the front gives the
first and the back the last of those that are left, and there are no more of them than the bound
says.

The members of a collection without empty slots are taken in the same way: they are what is found at
the indices, and the number of members that are left is exact. Every place that is met by moving
over the members is in bounds, and moves on to both sides as long as there are members. The member
at a place is the one at its index, and the place is the last one just if its index is the length.
-/
theorem Reachable.readings_agree (hw : w.Reachable) (hg : w.Live g)
    (hv : (View.root tag g).Reaches v) (hnode : v.isNode = true) :
    (∀ fronts backs left, Taken Children.next Children.nextBack (.ofView v) fronts backs left →
      ∃ rest, (List.range v.slotCount).filterMap v.slot? = fronts ++ rest ++ backs.reverse ∧
        left.next.1 = rest.head? ∧ left.nextBack.1 = rest.getLast? ∧ rest.length ≤ left.bound) ∧
    ∀ c, Collection.ofView? v = some c → (∀ slot ∈ v.green.slots, slot ≠ none) →
      (∀ fronts backs left,
        Taken Members.next Members.nextBack (.ofCollection c) fronts backs left →
        ∃ rest, (List.range c.length).map c.get? = (fronts ++ rest ++ backs.reverse).map some ∧
          left.next.1 = rest.head? ∧ left.nextBack.1 = rest.getLast? ∧
          left.remaining = rest.length) ∧
      ∀ p, c.Met p →
        p.index ≤ c.length ∧ (p = c.endPlace ↔ p.index = c.length) ∧
        (p.index < c.length → (∃ u, c.get? p.index = some u ∧ c.getAt p = .ok u) ∧
          ∃ q, c.placeAfter p = .ok q ∧ q.index = p.index + 1) ∧
        (0 < p.index → ∃ q, c.placeBefore p = .ok q ∧ q.index = p.index - 1) := by
  have hgenuine := hw.genuine_of_reaches hg hv
  have hfits := Children.fits_ofView hgenuine
  constructor
  · intro fronts backs left htaken
    obtain ⟨hleft, hviews⟩ := Children.twoEnded.taken hfits htaken
    refine ⟨left.left, ?_, left.next_spec.1, (Children.nextBack_spec hleft).1, ?_⟩
    · rw [← hviews, ← View.children_eq_filterMap]
      rfl
    · exact View.length_inSlots_le ..
  · intro c hc hslots
    rw [Collection.ofView?] at hc
    split at hc
    · obtain rfl := Option.some.inj hc
      have hfull : (Collection.mk v).Full := hslots
      have hstop : v.span.stop = v.offset + Green.slotsWidth v.green.slots := by
        rw [View.span, Text.Span.stop_ofWidth, View.width, hgenuine.slotsWidth_slots hnode]
      constructor
      · intro fronts backs left htaken
        have hcounted : (Members.ofCollection ⟨v⟩).Counted := by
          refine ⟨hfits, ?_⟩
          have hlength := congrArg List.length hfull.map_members
          rw [List.length_map, List.length_map, List.length_range] at hlength
          exact hlength
        obtain ⟨hleft, hviews⟩ := Members.twoEnded.taken hcounted htaken
        refine ⟨left.children.left, ?_, (Members.twoEnded.front left hleft).1,
          (Members.twoEnded.back left hleft).1, hleft.2⟩
        rw [hfull.map_members, ← hviews]
        rfl
      · intro p hp
        have hbetween := hp.between hfull hstop
        refine ⟨hbetween.index_le, hbetween.eq_endPlace_iff hstop, fun hlt => ?_, fun hpos => ?_⟩
        · obtain ⟨q, hq, hindex, -⟩ := hbetween.placeAfter hfull hlt
          exact ⟨hbetween.getAt hfull hlt, q, hq, hindex⟩
        · obtain ⟨q, hq, hindex, -⟩ := hbetween.placeBefore hfull hpos
          exact ⟨q, hq, hindex⟩
    · cases hc

/-- Of the members of the tree with gaps the first one is taken from the front and the last one from
the back. The one that is left has no text, and both ends give it next. The place before it is met
from the end. -/
theorem Reachable.readings_agree_gaps :
    ∃ (w : Workspace) (c : Collection) (a b d : View) (left : Members) (p : Place),
      w.Reachable ∧ w.Live gapped ∧ Collection.ofView? (.root 0 gapped) = some c ∧
      (∀ slot ∈ gapped.slots, slot ≠ none) ∧
      Taken Members.next Members.nextBack (.ofCollection c) [a] [d] left ∧
      [c.get? 0, c.get? 1, c.get? 2] = [some a, some b, some d] ∧ b.width = 0 ∧
      left.remaining = 1 ∧ left.next.1 = some b ∧ left.nextBack.1 = some b ∧
      c.Met p ∧ p.index = 1 ∧ c.getAt p = .ok b := by
  obtain ⟨w, hw, hg⟩ := exists_live_gapped
  let r := View.root 0 gapped
  let c : Collection := ⟨r⟩
  have hslots : ∀ slot ∈ gapped.slots, slot ≠ none := by
    intro slot hslot hnone
    subst hnone
    simp [gapped, Green.slots] at hslot
  obtain ⟨-, hcollection⟩ := hw.readings_agree hg (v := r) .refl rfl
  obtain ⟨htaking, hplaces⟩ := hcollection c rfl hslots
  obtain ⟨a, ha⟩ : ∃ a, c.get? 0 = some a := ⟨_, rfl⟩
  obtain ⟨b, hb, hempty⟩ : ∃ b, c.get? 1 = some b ∧ b.width = 0 := ⟨_, rfl, rfl⟩
  obtain ⟨d, hd⟩ : ∃ d, c.get? 2 = some d := ⟨_, rfl⟩
  have hall : (List.range c.length).map c.get? = [a, b, d].map some := by
    change [c.get? 0, c.get? 1, c.get? 2] = _
    rw [ha, hb, hd]
    rfl
  have hinj {x y : List View} (h : x.map some = y.map some) : x = y :=
    (List.map_inj_right fun _ _ => Option.some.inj).mp h
  obtain ⟨rest, hrest, hfirst, -⟩ := htaking _ _ _ .start
  obtain rfl : [a, b, d] = rest := by simpa using hinj (hall.symm.trans hrest)
  have hone := @Taken.next _ Members.next Members.nextBack (.ofCollection c) _ _ _ .start
  rw [hfirst] at hone
  obtain ⟨rest, hrest, -, hlast, -⟩ := htaking _ _ _ hone
  obtain rfl : [b, d] = rest := by simpa using hinj (hall.symm.trans hrest)
  have htwo := hone.nextBack
  rw [hlast] at htwo
  obtain ⟨rest, hrest, hnext, hback, hremaining⟩ := htaking _ _ _ htwo
  have hsplit : [b] ++ [d] = rest ++ [d] := by simpa using hinj (hall.symm.trans hrest)
  obtain rfl := List.append_cancel_right hsplit
  obtain ⟨-, -, -, hbefore⟩ := hplaces c.endPlace .stop
  obtain ⟨q, hq, hqindex⟩ := hbefore (by decide)
  obtain ⟨-, -, -, hbefore⟩ := hplaces q (.before .stop hq)
  obtain ⟨p, hp, hpindex⟩ := hbefore (by rw [hqindex]; decide)
  have hmet : c.Met p := .before (.before .stop hq) hp
  have hindex : p.index = 1 := by rw [hpindex, hqindex]; rfl
  obtain ⟨-, -, hmember, -⟩ := hplaces p hmet
  obtain ⟨⟨u, hu, hget⟩, -⟩ := hmember (by rw [hindex]; decide)
  rw [hindex, hb] at hu
  obtain rfl := Option.some.inj hu
  exact ⟨w, c, a, b, d, _, p, hw, hg, rfl, hslots, htwo, by rw [ha, hb, hd], hempty, hremaining,
    hnext, hback, hmet, hindex, hget⟩

end Workspace

end Verbatim
