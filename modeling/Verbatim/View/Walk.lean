import Verbatim.View.Children

/-!
# Preorder walks

A walk visits every element of a tree twice: it enters an element before its children and leaves it
after them. A token is left right after it was entered. Between two visits the rest of the innermost
open node can be skipped. Every visit uses up one unit of what is left to walk, so a walk ends.
-/

namespace Verbatim

/-- One stop of a walk. -/
inductive Visit where
  | enter (view : View)
  | leave (view : View)

/-- The view a visit is about. -/
def Visit.view : Visit → View
  | enter v => v
  | leave v => v

/-- The view, if the visit enters it. -/
def Visit.entered? : Visit → Option View
  | enter v => some v
  | leave _ => none

/-- A walk that may be under way. -/
structure Walk where
  /-- The open nodes, innermost first, with the children that are still to be visited. -/
  stack : List (View × Children) := []
  /-- Where the walk begins, until it has begun. -/
  start : Option View := none
  /-- The token that was entered last and is to be left. -/
  pending : Option View := none

namespace Walk

/-- A walk over a view and everything below it. -/
def ofView (v : View) : Walk := { start := some v }

/-- The next visit, and the walk after it. -/
def next (w : Walk) : Option (Visit × Walk) :=
  match w.pending with
  | some t => some (.leave t, { w with pending := none })
  | none =>
    match w.stack with
    | [] => w.start.map fun v => (.enter v, { stack := [(v, .ofView v)] })
    | (v, children) :: below =>
      match children.next with
      | (none, _) => some (.leave v, { w with stack := below })
      | (some c, children) =>
        if c.isNode then
          some (.enter c, { w with stack := (c, .ofView c) :: (v, children) :: below })
        else some (.enter c, { w with stack := (v, children) :: below, pending := some c })

/-- Skips what is left of the innermost open node. -/
def skipSubtree (w : Walk) : Walk :=
  match w.stack with
  | [] => w
  | (v, children) :: below => { w with stack := (v, children.skip) :: below }

/-- Number of visits still to come: two for each element not entered yet, one for each open one. -/
def remaining (w : Walk) : Nat :=
  sumOf (fun (_, children) => 1 + 2 * Green.sizeSlots children.slots) w.stack +
    (w.start.elim 0 fun v => 2 * v.green.size) + (w.pending.elim 0 fun _ => 1)

/-- Skipping never adds visits. -/
theorem remaining_skipSubtree_le (w : Walk) : w.skipSubtree.remaining ≤ w.remaining := by
  unfold skipSubtree
  split
  · exact Nat.le_refl _
  · next v children below h =>
    simp only [remaining, h, sumOf_cons, Children.skip, Green.sizeSlots]
    omega

/-- Every visit uses up one of those still to come. -/
theorem remaining_next_lt {w after : Walk} {visit : Visit} (h : w.next = some (visit, after)) :
    after.remaining < w.remaining := by
  unfold next at h
  split at h
  · next t hp =>
    cases h
    simp [remaining, hp]
  · next hp =>
    split at h
    · next hs =>
      obtain ⟨v, hv, he⟩ := Option.map_eq_some_iff.mp h
      cases he
      simp only [remaining, hs, hv, hp, Children.ofView, sumOf_cons, sumOf_nil, Option.elim]
      cases hg : v.green with
      | token t => simp [Green.size, Green.slots, Green.sizeSlots]
      | node head slots =>
        simp only [Green.size, Green.slots]
        omega
    · next v children below hs =>
      split at h
      · cases h
        simp only [remaining, hs, sumOf_cons]
        omega
      · next c children' hn =>
        have hsize := Children.size_next hn
        split at h
        · next hnode =>
          cases h
          simp only [remaining, hs, hp, Children.ofView, sumOf_cons]
          cases hg : c.green with
          | token t => simp [View.isNode, hg, Green.isNode] at hnode
          | node head slots =>
            rw [hg, Green.size] at hsize
            simp only [Green.slots]
            omega
        · cases h
          have hpos := c.green.size_pos
          simp only [remaining, hs, hp, sumOf_cons, Option.elim]
          omega

/-- The next visit, if there is one, and the walk after it. A walk that has ended stays as it is. -/
def advance (w : Walk) : Option Visit × Walk :=
  match w.next with
  | none => (none, w)
  | some (visit, after) => (some visit, after)

/-- The next visit of a node, if there is one, and the walk after it. Tokens are passed over. -/
def advanceToNode (w : Walk) : Option Visit × Walk :=
  match h : w.next with
  | none => (none, w)
  | some (visit, after) =>
    have := remaining_next_lt h
    if visit.view.isNode then (some visit, after) else advanceToNode after
termination_by w.remaining

/-- All visits of a walk, where the rest of the innermost node is skipped after each visit that
`skips` says so for. -/
def run (skips : Visit → Bool) (w : Walk) : List Visit :=
  match h : w.next with
  | none => []
  | some (visit, after) =>
    have := remaining_next_lt h
    have := remaining_skipSubtree_le after
    visit :: run skips (if skips visit then after.skipSubtree else after)
termination_by w.remaining
decreasing_by split <;> omega

end Walk

namespace View

/-- All visits of the walk over a view. -/
def visits (v : View) : List Visit := (Walk.ofView v).run fun _ => false

/-- The view and everything below it, each element before its children. -/
def descendants (v : View) : List View := v.visits.filterMap Visit.entered?

/-- Pairs every view that is entered with the number of views open around it. -/
def withDepths (depth : Nat) : List Visit → List (Nat × View)
  | [] => []
  | .enter v :: visits => (depth, v) :: withDepths (depth + 1) visits
  | .leave _ :: visits => withDepths (depth - 1) visits

/-- The descendants, each with its depth below the view. -/
def outline (v : View) : List (Nat × View) := withDepths 0 v.visits

/-- The nodes among the descendants. -/
def nodes (v : View) : List View := v.descendants.filter isNode

/-- The tokens among the descendants. -/
def tokens (v : View) : List View := v.descendants.filter fun d => !d.isNode

end View

end Verbatim
