import Verbatim.View.Neighbour
import Verbatim.View.Search
import Verbatim.Proofs.Representation

/-!
# Moving about in a tree

There are many ways to move from a view to another: by slots, with the children from either end, to
siblings and neighbouring tokens, up to the ancestors, along a walk, and by offset. Each of them
leads from a view that stands in its place to a view that stands in its place of the same tree. So
however one moves about, nothing but places of the tree is reached.
-/

namespace Verbatim

namespace Children

/-- What can become of the children of a view while they are taken from either end. -/
inductive From (v : View) : Children → Prop where
  | ofView : From v (.ofView v)
  | next {c : Children} : From v c → From v c.next.2
  | nextBack {c : Children} : From v c → From v c.nextBack.2
  | skip {c : Children} : From v c → From v c.skip

end Children

namespace Walk

/-- What can become of a walk over a view. -/
inductive From (v : View) : Walk → Prop where
  | ofView : From v (.ofView v)
  | next {w after : Walk} {visit : Visit} : From v w → w.next = some (visit, after) → From v after
  | skipSubtree {w : Walk} : From v w → From v w.skipSubtree

end Walk

namespace View

/-- The ways to move from a view to another. -/
inductive Move (v : View) : View → Prop where
  | slotAt {index : Nat} {u : View} : v.slotAt index = .ok (some u) → Move v u
  | slots {u : View} : some u ∈ v.slots → Move v u
  | children {u : View} : u ∈ v.children → Move v u
  | childrenBack {u : View} : u ∈ v.childrenBack → Move v u
  | next {c after : Children} {u : View} : c.From v → c.next = (some u, after) → Move v u
  | nextBack {c after : Children} {u : View} : c.From v → c.nextBack = (some u, after) → Move v u
  | firstChild {u : View} : v.firstChild? = some u → Move v u
  | lastChild {u : View} : v.lastChild? = some u → Move v u
  | firstToken {u : View} : v.firstToken? = some u → Move v u
  | lastToken {u : View} : v.lastToken? = some u → Move v u
  | nextSibling {u : View} : v.nextSibling? = some u → Move v u
  | prevSibling {u : View} : v.prevSibling? = some u → Move v u
  | nextToken {u : View} : v.nextToken? = some u → Move v u
  | prevToken {u : View} : v.prevToken? = some u → Move v u
  | parent {u : View} : v.parent? = some u → Move v u
  | ancestors {u : View} : u ∈ v.ancestors → Move v u
  | top : Move v v.top
  | walk {w after : Walk} {visit : Visit} : w.From v → w.next = some (visit, after) →
      Move v visit.view
  | descend {path : List Nat} {u : View} : v.descend? path = some u → Move v u
  | tokensAt {offset : Nat} {u : View} : u ∈ (v.tokensAt offset).toList → Move v u
  | covering (range : Text.Span) : Move v (v.covering range)

/-- The views that are reached from another by moving any number of times. -/
inductive Reaches (r : View) : View → Prop where
  | refl : Reaches r r
  | move {v u : View} : Reaches r v → Move v u → Reaches r u

/-- Whether a view stands in its place of the tree with a root. -/
structure Stands (r v : View) : Prop where
  placed : v.Placed
  top_eq : v.top = r

variable {r v u : View} {before after slots : List Slot}

namespace Stands

/-- What a path leads to stands in the tree. -/
theorem of_descend? (h : Stands r v) {path : List Nat} (hu : v.descend? path = some u) :
    Stands r u := by
  obtain ⟨hplaced, htop, -⟩ := h.placed.of_descend? hu
  exact ⟨hplaced, htop.trans h.top_eq⟩

/-- What stands in a slot of a view stands in the tree. -/
theorem of_slot (h : Stands r v) {index : Nat} (hu : v.slot? index = some u) : Stands r u := by
  have hpath : v.descend? [index] = some u := by rw [descend?_cons_of_slot hu]; rfl
  exact h.of_descend? hpath

/-- What a view that stands in a tree shows is within the tree. -/
theorem within (h : Stands r v) : v.green.Within r.green := h.top_eq ▸ h.placed.within

theorem genuine (h : Stands r v) (hr : r.green.Genuine) : v.green.Genuine :=
  hr.of_within h.within

/-- The children of a view stand in the tree. -/
theorem of_mem_children (h : Stands r v) (hu : u ∈ v.children) : Stands r u := by
  obtain ⟨index, hu⟩ := mem_children.mp hu
  exact h.of_slot hu

/-- The views above a view stand in the tree. -/
theorem of_mem_ancestors (h : Stands r v) (hu : u ∈ v.ancestors) : Stands r u := by
  induction v with
  | root store g => exact List.mem_singleton.mp hu ▸ h
  | child parent index offset g ih =>
    rcases List.mem_cons.mp hu with rfl | hu
    · exact h
    · exact ih ⟨h.placed.1, h.top_eq⟩ hu

end Stands

/-- What stands after some slots of a view is placed after their widths. -/
theorem slot?_of_split {g : Green} (h : v.green.slots = before ++ some g :: after) :
    v.slot? before.length =
      some (.child v before.length (v.offset + Green.slotsWidth before) g) := by
  rw [slot?_eq, h]
  simp

/-- Slots that are placed from where they start stand in their places. -/
theorem exists_slot_of_mem_placeSlots {start offset : Nat}
    (hsplit : v.green.slots = before ++ slots) (hstart : start = before.length)
    (hoffset : offset = v.offset + Green.slotsWidth before)
    (hu : some u ∈ placeSlots v start offset slots) : ∃ index, v.slot? index = some u := by
  subst hstart hoffset
  obtain ⟨k, hk⟩ := List.mem_iff_getElem?.mp hu
  rw [getElem?_placeSlots, Option.map_eq_some_iff] at hk
  obtain ⟨slot, hslot, hk⟩ := hk
  obtain ⟨g, rfl, rfl⟩ := Option.map_eq_some_iff.mp hk
  refine ⟨before.length + k, ?_⟩
  rw [slot?_eq, hsplit, List.getElem?_append_right (Nat.le_add_right ..), Nat.add_sub_cancel_left,
    hslot, List.take_length_add_append]
  simp [Green.slotsWidth, Nat.add_assoc]

/-- Slots that are placed backwards from where they end stand in their places. -/
theorem exists_slot_of_mem_placeBack {stop offset : Nat}
    (hsplit : v.green.slots = slots.reverse ++ after) (hstop : stop = slots.length)
    (hoffset : offset = v.offset + Green.slotsWidth slots.reverse)
    (hu : u ∈ placeBack v stop offset slots) : ∃ index, v.slot? index = some u := by
  subst hstop hoffset
  induction slots generalizing after with
  | nil => cases hu
  | cons slot slots ih =>
    have hsplit' : v.green.slots = slots.reverse ++ slot :: after := by
      rw [hsplit, List.reverse_cons, List.append_assoc, List.singleton_append]
    have hwidth : Green.slotsWidth (slot :: slots).reverse =
        Green.slotsWidth slots.reverse + slot.elim 0 Green.width := by
      simp [Green.slotsWidth]
    rw [hwidth, List.length_cons] at hu
    cases slot with
    | none => exact ih hsplit' hu
    | some g =>
      have hoffset : v.offset + (Green.slotsWidth slots.reverse + g.width) - g.width =
          v.offset + Green.slotsWidth slots.reverse := by omega
      simp only [placeBack, Option.elim_some, hoffset, Nat.add_sub_cancel, List.mem_cons] at hu
      rcases hu with rfl | hu
      · have hslot := slot?_of_split hsplit'
        rw [List.length_reverse] at hslot
        exact ⟨_, hslot⟩
      · exact ih hsplit' hu

/-- A genuine element ends where its slots end. -/
theorem slots_eq_nil_or_stop_eq (hv : v.green.Genuine) :
    v.green.slots = [] ∨ v.span.stop = v.offset + Green.slotsWidth v.green.slots := by
  cases hnode : v.green.isNode with
  | false =>
    cases hg : v.green with
    | token t => exact .inl rfl
    | node head slots => rw [hg] at hnode; cases hnode
  | true =>
    right
    rw [span, Text.Span.stop_ofWidth, width, hv.slotsWidth_slots hnode]

/-- So do the children when they are read from the end. -/
theorem Stands.of_mem_childrenBack (h : Stands r v) (hr : r.green.Genuine)
    (hu : u ∈ v.childrenBack) : Stands r u := by
  rw [childrenBack] at hu
  rcases slots_eq_nil_or_stop_eq (h.genuine hr) with hnil | hstop
  · rw [hnil] at hu
    cases hu
  · have hsplit : v.green.slots = v.green.slots.reverse.reverse ++ [] := by simp
    obtain ⟨index, hu⟩ := exists_slot_of_mem_placeBack hsplit List.length_reverse.symm
      (by rw [List.reverse_reverse, hstop]) hu
    exact h.of_slot hu

/-- So do the siblings after a view. -/
theorem Stands.of_mem_siblingsAfter (h : Stands r v) (hu : u ∈ v.siblingsAfter) : Stands r u := by
  cases v with
  | root store g => cases hu
  | child parent index offset g =>
    obtain ⟨hparent, hslot, hoffset⟩ := placed_child.mp h.placed
    have hindex := (List.getElem?_eq_some_iff.mp hslot).1
    have hlength : index + 1 = (parent.green.slots.take (index + 1)).length := by
      rw [List.length_take]
      omega
    have hwidth : offset + g.width =
        parent.offset + Green.slotsWidth (parent.green.slots.take (index + 1)) := by
      rw [hoffset, List.take_add_one, hslot]
      simp [Green.slotsWidth, Nat.add_assoc]
    obtain ⟨slot, hmem, rfl⟩ := List.mem_filterMap.mp hu
    obtain ⟨i, hi⟩ := exists_slot_of_mem_placeSlots (List.take_append_drop (index + 1) _).symm
      hlength hwidth hmem
    exact Stands.of_slot ⟨hparent, h.top_eq⟩ hi

/-- So do the siblings before a view. -/
theorem Stands.of_mem_siblingsBefore (h : Stands r v) (hu : u ∈ v.siblingsBefore) :
    Stands r u := by
  cases v with
  | root store g => cases hu
  | child parent index offset g =>
    obtain ⟨hparent, hslot, hoffset⟩ := placed_child.mp h.placed
    have hindex := (List.getElem?_eq_some_iff.mp hslot).1
    have hlength : index = (parent.green.slots.take index).reverse.length := by
      rw [List.length_reverse, List.length_take]
      omega
    have hsplit : parent.green.slots =
        (parent.green.slots.take index).reverse.reverse ++ parent.green.slots.drop index := by
      rw [List.reverse_reverse, List.take_append_drop]
    obtain ⟨i, hi⟩ := exists_slot_of_mem_placeBack hsplit hlength
      (by rw [List.reverse_reverse, hoffset]) hu
    exact Stands.of_slot ⟨hparent, h.top_eq⟩ hi

end View

namespace Children

variable {v u : View} {c after : Children}

/-- What is left of the children of a view, between those that were taken from the front and those
that were taken from the back. -/
structure Splits (v : View) (c : Children) (front back : List Slot) : Prop where
  slots_eq : v.green.slots = front ++ (c.slots ++ back)
  front_eq : c.front = front.length
  frontOffset_eq : c.frontOffset = v.offset + Green.slotsWidth front
  backOffset_eq : c.backOffset = v.offset + Green.slotsWidth (front ++ c.slots)

/-- The children of a view of which nothing is left, or what is left stands between the others. -/
structure At (v : View) (c : Children) : Prop where
  parent_eq : c.parent = v
  splits : c.slots = [] ∨ ∃ front back, c.Splits v front back

/-- A fresh iterator over the children of a view belongs to the view. -/
theorem at_ofView (hv : v.green.Genuine) : (ofView v).At v := by
  refine ⟨rfl, (View.slots_eq_nil_or_stop_eq hv).imp_right fun hstop => ⟨[], [], ?_⟩⟩
  exact ⟨(List.append_nil _).symm, rfl, rfl, hstop⟩

/-- A child that is taken from the front stands in its slot. -/
theorem At.next (h : c.At v) :
    c.next.2.At v ∧ ∀ u, c.next.1 = some u → ∃ index, v.slot? index = some u := by
  fun_induction Children.next c with
  | case1 c hs => exact ⟨h, fun _ hu => by cases hu⟩
  | case2 c rest hs _ ih =>
    refine ih ⟨h.parent_eq, .inr ?_⟩
    obtain hnil | ⟨front, back, hsplits⟩ := h.splits
    · rw [hs] at hnil
      cases hnil
    · obtain ⟨hslots, hfront, hfrontOffset, hbackOffset⟩ := hsplits
      rw [hs] at hslots hbackOffset
      refine ⟨front ++ [none], back, ?_, ?_, ?_, ?_⟩
      · simpa using hslots
      · simp [hfront]
      · simpa [Green.slotsWidth] using hfrontOffset
      · simpa using hbackOffset
  | case3 c g rest hs =>
    obtain hnil | ⟨front, back, hsplits⟩ := h.splits
    · rw [hs] at hnil
      cases hnil
    · obtain ⟨hslots, hfront, hfrontOffset, hbackOffset⟩ := hsplits
      rw [hs] at hslots hbackOffset
      refine ⟨⟨h.parent_eq, .inr ⟨front ++ [some g], back, ?_, ?_, ?_, ?_⟩⟩, ?_⟩
      · simpa using hslots
      · simp [hfront]
      · simp [Green.slotsWidth, hfrontOffset, Nat.add_assoc]
      · simpa using hbackOffset
      · rintro u ⟨rfl⟩
        refine ⟨front.length, ?_⟩
        rw [View.slot?_of_split hslots, h.parent_eq, hfront, hfrontOffset]

/-- A child that is taken from the back stands in its slot. -/
theorem At.nextBack (h : c.At v) :
    c.nextBack.2.At v ∧ ∀ u, c.nextBack.1 = some u → ∃ index, v.slot? index = some u := by
  fun_induction Children.nextBack c with
  | case1 c hs => exact ⟨h, fun _ hu => by cases hu⟩
  | case2 c hs _ ih =>
    obtain ⟨init, hinit⟩ := List.getLast?_eq_some_iff.mp hs
    refine ih ⟨h.parent_eq, .inr ?_⟩
    obtain hnil | ⟨front, back, hsplits⟩ := h.splits
    · simp [hnil] at hs
    · obtain ⟨hslots, hfront, hfrontOffset, hbackOffset⟩ := hsplits
      rw [hinit] at hslots hbackOffset
      refine ⟨front, none :: back, ?_, hfront, hfrontOffset, ?_⟩
      · simpa [hinit] using hslots
      · simpa [hinit, Green.slotsWidth] using hbackOffset
  | case3 c g hs offset =>
    obtain ⟨init, hinit⟩ := List.getLast?_eq_some_iff.mp hs
    obtain hnil | ⟨front, back, hsplits⟩ := h.splits
    · simp [hnil] at hs
    · obtain ⟨hslots, hfront, hfrontOffset, hbackOffset⟩ := hsplits
      rw [hinit] at hslots hbackOffset
      have hoffset : offset = v.offset + Green.slotsWidth (front ++ init) := by
        simp only [offset, hbackOffset, Green.slotsWidth, sumOf_append, sumOf_cons, sumOf_nil,
          Option.elim_some]
        omega
      refine ⟨⟨h.parent_eq, .inr ⟨front, some g :: back, ?_, hfront, hfrontOffset, ?_⟩⟩, ?_⟩
      · simpa [hinit] using hslots
      · simpa [hinit] using hoffset
      · rintro u ⟨rfl⟩
        have hsplit : v.green.slots = (front ++ init) ++ some g :: back := by simpa using hslots
        refine ⟨(front ++ init).length, ?_⟩
        rw [View.slot?_of_split hsplit, h.parent_eq, hoffset, hfront, hinit]
        simp

theorem At.skip (h : c.At v) : c.skip.At v := ⟨h.parent_eq, .inl rfl⟩

/-- However children are taken, what is left stands between the others. -/
theorem From.at (h : c.From v) (hv : v.green.Genuine) : c.At v := by
  induction h with
  | ofView => exact at_ofView hv
  | next _ ih => exact ih.next.1
  | nextBack _ ih => exact ih.nextBack.1
  | skip _ ih => exact ih.skip

end Children

namespace View

variable {r v u : View}

/-- A token that is searched for among children and below stands in the tree. -/
theorem Stands.of_firstToken? (h : Stands r v) (hu : v.firstToken? = some u) : Stands r u := by
  generalize hsize : v.green.size = n
  induction n using Nat.strongRecOn generalizing v with
  | ind n ih =>
    rw [firstToken?] at hu
    obtain ⟨⟨c, hc⟩, -, hu⟩ := List.exists_of_findSome?_eq_some hu
    have hchild := h.of_mem_children hc
    dsimp only at hu
    split at hu
    · exact ih _ (hsize ▸ size_lt_of_mem_children hc) hchild hu rfl
    · cases hu
      exact hchild

/-- The last token below a view stands in the tree. -/
theorem Stands.of_lastToken? (h : Stands r v) (hr : r.green.Genuine)
    (hu : v.lastToken? = some u) : Stands r u := by
  generalize hsize : v.green.size = n
  induction n using Nat.strongRecOn generalizing v with
  | ind n ih =>
    rw [lastToken?] at hu
    obtain ⟨⟨c, hc⟩, -, hu⟩ := List.exists_of_findSome?_eq_some hu
    have hchild := h.of_mem_childrenBack hr hc
    dsimp only at hu
    split at hu
    · exact ih _ (hsize ▸ size_lt_of_mem_childrenBack hc) hchild hu rfl
    · cases hu
      exact hchild

/-- The token after a view stands in the tree. -/
theorem Stands.of_nextToken? (h : Stands r v) (hu : v.nextToken? = some u) : Stands r u := by
  induction v with
  | root store g => cases hu
  | child parent index offset g ih =>
    rw [nextToken?] at hu
    split at hu
    · next t ht =>
      cases hu
      obtain ⟨c, hc, hu⟩ := List.exists_of_findSome?_eq_some ht
      have hsibling := h.of_mem_siblingsAfter hc
      rw [firstTokenHere?] at hu
      split at hu
      · exact hsibling.of_firstToken? hu
      · cases hu
        exact hsibling
    · exact ih ⟨h.placed.1, h.top_eq⟩ hu

/-- The token before a view stands in the tree. -/
theorem Stands.of_prevToken? (h : Stands r v) (hr : r.green.Genuine)
    (hu : v.prevToken? = some u) : Stands r u := by
  induction v with
  | root store g => cases hu
  | child parent index offset g ih =>
    rw [prevToken?] at hu
    split at hu
    · next t ht =>
      cases hu
      obtain ⟨c, hc, hu⟩ := List.exists_of_findSome?_eq_some ht
      have hsibling := h.of_mem_siblingsBefore hc
      rw [lastTokenHere?] at hu
      split at hu
      · exact hsibling.of_lastToken? hr hu
      · cases hu
        exact hsibling
    · exact ih ⟨h.placed.1, h.top_eq⟩ hu

end View

namespace TokensAt

variable {u : View} {t : TokensAt}

theorem mem_of_left? (h : t.left? = some u) : u ∈ t.toList := by
  cases t with
  | none => cases h
  | single t => exact Option.some.inj h ▸ List.mem_cons_self
  | between l r => exact Option.some.inj h ▸ List.mem_cons_self

theorem mem_of_right? (h : t.right? = some u) : u ∈ t.toList := by
  cases t with
  | none => cases h
  | single t => exact Option.some.inj h ▸ List.mem_cons_self
  | between l r => exact Option.some.inj h ▸ List.mem_cons_of_mem _ List.mem_cons_self

/-- Of two tokens at an offset each was one of those that were found. -/
theorem mem_join {a b : Option View} (h : u ∈ (join a b).toList) : a = some u ∨ b = some u := by
  cases a with
  | none =>
    cases b with
    | none => cases h
    | some r => exact .inr (congrArg some (List.mem_singleton.mp h).symm)
  | some l =>
    cases b with
    | none => exact .inl (congrArg some (List.mem_singleton.mp h).symm)
    | some r =>
      rcases List.mem_cons.mp h with rfl | h
      · exact .inl rfl
      · exact .inr (congrArg some (List.mem_singleton.mp h).symm)

end TokensAt

namespace View

variable {r v u : View}

/-- The tokens at an offset stand in the tree. -/
theorem Stands.of_mem_tokensAt (h : Stands r v) {offset : Nat}
    (hu : u ∈ (v.tokensAt offset).toList) : Stands r u := by
  fun_induction tokensAt v offset with
  | case1 v _ _ _ => cases hu
  | case2 v _ _ only _ hmem ih => exact ih (h.of_mem_children hmem) hu
  | case3 v _ _ left right others _ hleft hright ihleft ihright =>
    rcases TokensAt.mem_join hu with hu | hu
    · exact ihleft (h.of_mem_children hleft) (TokensAt.mem_of_left? hu)
    · exact ihright (h.of_mem_children hright) (TokensAt.mem_of_right? hu)
  | case4 v _ _ => cases hu
  | case5 v _ => exact List.mem_singleton.mp hu ▸ h

/-- The smallest view that covers a range stands in the tree. -/
theorem Stands.covering (h : Stands r v) (range : Text.Span) : Stands r (v.covering range) := by
  fun_induction View.covering v range with
  | case1 v _ => exact h
  | case2 v c _ hmem ih => exact ih (h.of_mem_children hmem)

end View

namespace Walk

variable {r v : View} {w after : Walk} {visit : Visit}

/-- Whether all that a walk keeps stands in the tree. -/
structure Stands (r : View) (w : Walk) : Prop where
  stack : ∀ entry ∈ w.stack, View.Stands r entry.1 ∧ entry.2.At entry.1
  start : ∀ v, w.start = some v → View.Stands r v
  pending : ∀ t, w.pending = some t → View.Stands r t

/-- What is visited next stands in the tree, and so does what a walk keeps after it. -/
theorem Stands.next (h : w.Stands r) (hr : r.green.Genuine) (hnext : w.next = some (visit, after)) :
    View.Stands r visit.view ∧ after.Stands r := by
  obtain ⟨stack, start, pending⟩ := w
  cases pending with
  | some t =>
    cases hnext
    exact ⟨h.pending t rfl, h.stack, h.start, fun _ ht => by cases ht⟩
  | none =>
    cases stack with
    | nil =>
      obtain ⟨v, hv, heq⟩ := Option.map_eq_some_iff.mp hnext
      cases heq
      have hstands := h.start v hv
      refine ⟨hstands, fun entry hentry => ?_, fun _ hv => (by cases hv), fun _ ht => by cases ht⟩
      obtain rfl := List.mem_singleton.mp hentry
      exact ⟨hstands, Children.at_ofView (hstands.genuine hr)⟩
    | cons top below =>
      obtain ⟨v, children⟩ := top
      obtain ⟨hv, hchildren⟩ := h.stack _ List.mem_cons_self
      have hbelow := fun entry hentry => h.stack entry (List.mem_cons_of_mem _ hentry)
      obtain ⟨hrest, htaken⟩ := hchildren.next
      rcases hchild : children.next with ⟨_ | c, rest⟩
      · simp only [Walk.next, hchild, Option.some.injEq, Prod.mk.injEq] at hnext
        obtain ⟨rfl, rfl⟩ := hnext
        exact ⟨hv, hbelow, h.start, h.pending⟩
      · rw [hchild] at hrest htaken
        obtain ⟨index, hindex⟩ := htaken c rfl
        have hc := hv.of_slot hindex
        have hstack : ∀ entry ∈ (v, rest) :: below,
            View.Stands r entry.1 ∧ entry.2.At entry.1 := by
          intro entry hentry
          rcases List.mem_cons.mp hentry with rfl | hentry
          · exact ⟨hv, hrest⟩
          · exact hbelow entry hentry
        cases hnode : c.isNode with
        | true =>
          simp only [Walk.next, hchild, hnode, if_true, Option.some.injEq, Prod.mk.injEq] at hnext
          obtain ⟨rfl, rfl⟩ := hnext
          refine ⟨hc, fun entry hentry => ?_, h.start, h.pending⟩
          rcases List.mem_cons.mp hentry with rfl | hentry
          · exact ⟨hc, Children.at_ofView (hc.genuine hr)⟩
          · exact hstack entry hentry
        | false =>
          simp only [Walk.next, hchild, hnode] at hnext
          cases hnext
          exact ⟨hc, hstack, h.start, fun t ht => Option.some.inj ht ▸ hc⟩

/-- A walk that skips a subtree stays in the tree. -/
theorem Stands.skipSubtree (h : w.Stands r) : w.skipSubtree.Stands r := by
  obtain ⟨stack, start, pending⟩ := w
  cases stack with
  | nil => exact h
  | cons top below =>
    obtain ⟨v, children⟩ := top
    obtain ⟨hv, hchildren⟩ := h.stack _ List.mem_cons_self
    refine ⟨fun entry hentry => ?_, h.start, h.pending⟩
    rcases List.mem_cons.mp hentry with rfl | hentry
    · exact ⟨hv, hchildren.skip⟩
    · exact h.stack entry (List.mem_cons_of_mem _ hentry)

/-- However a walk over a view goes on, all that it keeps stands in the tree. -/
theorem From.stands (h : w.From v) (hv : View.Stands r v) (hr : r.green.Genuine) :
    w.Stands r := by
  induction h with
  | ofView =>
    refine ⟨fun _ hentry => absurd hentry List.not_mem_nil, fun u hu => ?_, fun _ ht => by cases ht⟩
    exact Option.some.inj hu ▸ hv
  | next _ hnext ih => exact (ih.next hr hnext).2
  | skipSubtree _ ih => exact ih.skipSubtree

end Walk

namespace View

variable {r v u : View}

/-- Every move leads to a place of the same tree. -/
theorem Move.stands (h : Move v u) (hv : Stands r v) (hr : r.green.Genuine) : Stands r u := by
  cases h with
  | @slotAt index u hu =>
    have hslot : v.slot? index = some u := by rw [slot?, hu]
    exact hv.of_slot hslot
  | slots hu =>
    obtain ⟨index, hu⟩ := mem_slots.mp hu
    exact hv.of_slot hu
  | children hu => exact hv.of_mem_children hu
  | childrenBack hu => exact hv.of_mem_childrenBack hr hu
  | next hc hnext =>
    obtain ⟨index, hu⟩ := (hc.at (hv.genuine hr)).next.2 u (by rw [hnext])
    exact hv.of_slot hu
  | nextBack hc hnext =>
    obtain ⟨index, hu⟩ := (hc.at (hv.genuine hr)).nextBack.2 u (by rw [hnext])
    exact hv.of_slot hu
  | firstChild hu => exact hv.of_mem_children (List.mem_of_head? hu)
  | lastChild hu => exact hv.of_mem_childrenBack hr (List.mem_of_head? hu)
  | firstToken hu => exact hv.of_firstToken? hu
  | lastToken hu => exact hv.of_lastToken? hr hu
  | nextSibling hu => exact hv.of_mem_siblingsAfter (List.mem_of_head? hu)
  | prevSibling hu => exact hv.of_mem_siblingsBefore (List.mem_of_head? hu)
  | nextToken hu => exact hv.of_nextToken? hu
  | prevToken hu => exact hv.of_prevToken? hr hu
  | parent hu =>
    cases v with
    | root store g => cases hu
    | child parent index offset g =>
      cases hu
      exact ⟨hv.placed.1, hv.top_eq⟩
  | ancestors hu => exact hv.of_mem_ancestors hu
  | top => exact hv.of_mem_ancestors v.top_mem_ancestors
  | walk hw hnext => exact ((hw.stands hv hr).next hr hnext).1
  | descend hu => exact hv.of_descend? hu
  | tokensAt hu => exact hv.of_mem_tokensAt hu
  | covering range => exact hv.covering range

/-- However one moves about in a tree, one gets to places of it. -/
theorem Reaches.stands (h : Reaches r v) (hroot : Stands r r) (hr : r.green.Genuine) :
    Stands r v := by
  induction h with
  | refl => exact hroot
  | move _ hmove ih => exact hmove.stands ih hr

end View

end Verbatim
