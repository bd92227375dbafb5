import Verbatim.View.Walk

/-!
# Walks as traversals

A walk keeps its place on a stack. What it visits is what the recursive traversal of the tree
visits: an element, what stands in its slots, and the element again. A node that is closed is
entered and left with nothing in between.
-/

namespace Verbatim

namespace View

mutual
/-- The visits of an element and of what is below it, unless it is closed. -/
def visitsAt (closed : View → Bool) (v : View) : Green → List Visit
  | .token _ => [.enter v, .leave v]
  | .node _ slots =>
    .enter v :: ((if closed v then [] else visitsIn closed v 0 v.offset slots) ++ [.leave v])
/-- The visits of slots, the first of them at `index` and `offset`. -/
def visitsIn (closed : View → Bool) (parent : View) (index offset : Nat) : List Slot → List Visit
  | [] => []
  | none :: rest => visitsIn closed parent (index + 1) offset rest
  | some g :: rest =>
    visitsAt closed (.child parent index offset g) g ++
      visitsIn closed parent (index + 1) (offset + g.width) rest
end

mutual
/-- The views that a traversal enters, each before what is below it. -/
def entriesAt (closed : View → Bool) (v : View) : Green → List View
  | .token _ => [v]
  | .node _ slots => v :: (if closed v then [] else entriesIn closed v 0 v.offset slots)
/-- The views that a traversal of slots enters. -/
def entriesIn (closed : View → Bool) (parent : View) (index offset : Nat) : List Slot → List View
  | [] => []
  | none :: rest => entriesIn closed parent (index + 1) offset rest
  | some g :: rest =>
    entriesAt closed (.child parent index offset g) g ++
      entriesIn closed parent (index + 1) (offset + g.width) rest
end

mutual
theorem filterMap_visitsAt (closed : View → Bool) (v : View) :
    ∀ g, (visitsAt closed v g).filterMap Visit.entered? = entriesAt closed v g
  | .token _ => rfl
  | .node _ slots => by
    have hslots := filterMap_visitsIn closed v 0 v.offset slots
    simp only [visitsAt, entriesAt, List.filterMap_cons, Visit.entered?, List.filterMap_append,
      List.filterMap_nil, List.append_nil]
    split
    · rfl
    · rw [hslots]
theorem filterMap_visitsIn (closed : View → Bool) (parent : View) (index offset : Nat) :
    ∀ slots, (visitsIn closed parent index offset slots).filterMap Visit.entered? =
      entriesIn closed parent index offset slots
  | [] => rfl
  | none :: rest => by
    rw [visitsIn, entriesIn]
    exact filterMap_visitsIn closed parent (index + 1) offset rest
  | some g :: rest => by
    rw [visitsIn, entriesIn, List.filterMap_append, filterMap_visitsAt closed _ g,
      filterMap_visitsIn closed parent (index + 1) (offset + g.width) rest]
end

end View

namespace Children

/-- The visits of the children that are left. -/
def visits (closed : View → Bool) (c : Children) : List Visit :=
  View.visitsIn closed c.parent c.front c.frontOffset c.slots

/-- Empty slots at the front are passed over. -/
theorem visits_of_next {closed : View → Bool} {c after : Children} {child? : Option View}
    (h : c.next = (child?, after)) :
    c.visits closed = child?.elim [] fun child =>
      View.visitsAt closed child child.green ++ after.visits closed := by
  fun_induction next c with
  | case1 c hs =>
    cases h
    rw [visits, hs]
    rfl
  | case2 c rest hs _ ih =>
    rw [visits, hs]
    exact ih h
  | case3 c g rest hs =>
    cases h
    rw [visits, hs, View.visitsIn]
    rfl

end Children

namespace Walk

/-- What is skipped are the children of the closed nodes. -/
structure Closes (closed : View → Bool) (skips : Visit → Bool) : Prop where
  leave : ∀ v, skips (.leave v) = false
  enter : ∀ v, skips (.enter v) = (v.isNode && closed v)

variable {closed : View → Bool} {skips : Visit → Bool}

/-- What a walk that has begun is still going to visit. -/
def toVisit (closed : View → Bool) (w : Walk) : List Visit :=
  w.pending.elim [] (fun t => [.leave t]) ++
    w.stack.flatMap fun (v, children) => children.visits closed ++ [.leave v]

/-- A node is entered, and its children are visited before anything else unless it is closed. -/
theorem toVisit_enter_node (h : Closes closed skips) {c : View} (hnode : c.isNode = true)
    (stack : List (View × Children)) :
    View.visitsAt closed c c.green ++ toVisit closed { stack } =
      .enter c :: (if skips (.enter c) then skipSubtree { stack := (c, .ofView c) :: stack }
        else { stack := (c, .ofView c) :: stack }).toVisit closed := by
  rw [h.enter, hnode, Bool.true_and]
  cases hg : c.green with
  | token t => simp [View.isNode, hg, Green.isNode] at hnode
  | node head slots =>
    cases hclosed : closed c <;>
      simp [View.visitsAt, hclosed, toVisit, Children.visits, Children.ofView, Children.skip, hg,
        Green.slots, View.visitsIn, skipSubtree]

/-- The next visit is the first of those that a walk is going to make. -/
theorem toVisit_of_next (h : Closes closed skips) {w after : Walk} {visit : Visit}
    (hw : w.start = none) (hnext : w.next = some (visit, after)) :
    (if skips visit then after.skipSubtree else after).start = none ∧
      w.toVisit closed =
        visit :: (if skips visit then after.skipSubtree else after).toVisit closed := by
  obtain ⟨stack, start, pending⟩ := w
  obtain rfl : start = none := hw
  cases pending with
  | some t =>
    cases hnext
    simp [h.leave, toVisit]
  | none =>
    cases stack with
    | nil => cases hnext
    | cons top below =>
      obtain ⟨v, children⟩ := top
      rcases hchild : children.next with ⟨_ | c, rest⟩
      · have hvisits := @Children.visits_of_next closed _ _ _ hchild
        simp only [next, hchild, Option.some.injEq, Prod.mk.injEq] at hnext
        obtain ⟨rfl, rfl⟩ := hnext
        simp [h.leave, toVisit, hvisits]
      · have hvisits := @Children.visits_of_next closed _ _ _ hchild
        have hsplit : toVisit closed { stack := (v, children) :: below } =
            View.visitsAt closed c c.green ++ toVisit closed { stack := (v, rest) :: below } := by
          simp [toVisit, hvisits]
        cases hnode : c.isNode with
        | true =>
          simp only [next, hchild, hnode, if_true, Option.some.injEq, Prod.mk.injEq] at hnext
          obtain ⟨rfl, rfl⟩ := hnext
          refine ⟨?_, hsplit.trans (toVisit_enter_node h hnode _)⟩
          split <;> rfl
        | false =>
          simp only [next, hchild, hnode] at hnext
          cases hnext
          rw [h.enter, hnode, Bool.false_and, hsplit]
          cases hg : c.green with
          | token t => simp [View.visitsAt, toVisit]
          | node head slots => simp [View.isNode, hg, Green.isNode] at hnode

/-- A walk ends when nothing is left to visit. -/
theorem toVisit_of_next_eq_none {w : Walk} (hnext : w.next = none) : w.toVisit closed = [] := by
  obtain ⟨stack, start, pending⟩ := w
  cases pending with
  | some t => cases hnext
  | none =>
    cases stack with
    | nil => rfl
    | cons top below =>
      obtain ⟨v, children⟩ := top
      rcases hchild : children.next with ⟨_ | c, rest⟩
      · simp [next, hchild] at hnext
      · cases hnode : c.isNode <;> simp [next, hchild, hnode] at hnext

/-- A walk that skips the children of the closed nodes visits what it is going to visit. -/
theorem run_eq_toVisit (h : Closes closed skips) {w : Walk} (hw : w.start = none) :
    w.run skips = w.toVisit closed := by
  fun_induction run skips w with
  | case1 w hnext => exact (toVisit_of_next_eq_none hnext).symm
  | case2 w visit after hnext _ _ ih =>
    obtain ⟨hstart, hvisits⟩ := toVisit_of_next h hw hnext
    simp only [dite_eq_ite] at ih
    rw [hvisits, ih hstart]

/-- A walk over a view is the traversal of what the view shows. -/
theorem run_ofView (h : Closes closed skips) (v : View) :
    (ofView v).run skips = View.visitsAt closed v v.green := by
  have hnext : (ofView v).next = some (.enter v, { stack := [(v, .ofView v)] }) := rfl
  have hstart : (if skips (.enter v) then skipSubtree { stack := [(v, .ofView v)] }
      else { stack := [(v, .ofView v)] }).start = none := by
    split <;> rfl
  have hrun : (ofView v).run skips = .enter v :: run skips
      (if skips (.enter v) then skipSubtree { stack := [(v, .ofView v)] }
        else { stack := [(v, .ofView v)] }) := by
    rw [run]
    split
    · next hnone =>
      rw [hnext] at hnone
      cases hnone
    · next visit after hsome =>
      rw [hnext] at hsome
      cases hsome
      rfl
  rw [hrun, run_eq_toVisit h hstart]
  cases hnode : v.isNode with
  | true => simpa [toVisit] using (toVisit_enter_node h hnode []).symm
  | false =>
    rw [h.enter, hnode, Bool.false_and]
    cases hg : v.green with
    | token t =>
      simp [View.visitsAt, toVisit, Children.visits, Children.ofView, hg, Green.slots,
        View.visitsIn]
    | node head slots => simp [View.isNode, hg, Green.isNode] at hnode

end Walk

namespace View

/-- The descendants of a view are what the traversal of it enters. -/
theorem descendants_eq (v : View) : v.descendants = entriesAt (fun _ => false) v v.green := by
  have hcloses : Walk.Closes (fun _ => false) fun _ => false := ⟨fun _ => rfl, by simp⟩
  rw [descendants, visits, Walk.run_ofView hcloses, filterMap_visitsAt]

end View

end Verbatim
