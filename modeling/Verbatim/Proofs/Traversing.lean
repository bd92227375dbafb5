import Verbatim.Proofs.Walking

/-!
# Walks call by call

A walk is asked for its next visit again and again, and what is left of the innermost node is
skipped right after a node was entered that is closed. The answers are, one by one, the visits of
the recursive traversal: an element is entered, then come the visits of its present children in the
order of the slots, unless it is closed, and then it is left. After the last of them there is none,
however often the walk is asked. A walk over nodes gives those of these visits that are about nodes.
-/

namespace Verbatim

namespace View

/-- The visits of a view and of what is below it. A closed node is entered and left with nothing in
between, and so is a token. -/
def traversal (closed : View → Bool) (v : View) : List Visit :=
  if v.isNode then
    .enter v :: ((if closed v then []
      else v.children.attach.flatMap fun c => traversal closed c.1) ++ [.leave v])
  else [.enter v, .leave v]
termination_by v.green.size
decreasing_by exact size_lt_of_mem_children c.2

/-- The visits of slots are those of the elements that are placed there. -/
theorem visitsIn_eq_flatMap (closed : View → Bool) (parent : View) (index offset : Nat)
    (slots : List Slot) :
    visitsIn closed parent index offset slots =
      ((placeSlots parent index offset slots).filterMap fun slot => slot).flatMap
        fun c => visitsAt closed c c.green := by
  induction slots generalizing index offset with
  | nil => rfl
  | cons slot slots ih =>
    cases slot with
    | none =>
      rw [visitsIn, ih]
      rfl
    | some g =>
      rw [visitsIn, ih]
      rfl

/-- The traversal by children is the one that places the slots one after another. -/
theorem traversal_eq (closed : View → Bool) (v : View) :
    traversal closed v = visitsAt closed v v.green := by
  fun_induction traversal closed v with
  | case1 v hnode ih =>
    have hbelow : (v.children.attach.flatMap fun c => traversal closed c.1) =
        visitsIn closed v 0 v.offset v.green.slots := by
      calc (v.children.attach.flatMap fun c => traversal closed c.1)
          = v.children.attach.flatMap fun c => visitsAt closed c.1 c.1.green := by simp only [ih]
        _ = (v.children.attach.map Subtype.val).flatMap fun c => visitsAt closed c c.green :=
          (List.flatMap_map Subtype.val (fun c => visitsAt closed c c.green) _).symm
        _ = visitsIn closed v 0 v.offset v.green.slots := by
          rw [List.attach_map_subtype_val, visitsIn_eq_flatMap]
          rfl
    rw [hbelow]
    cases hg : v.green with
    | token t => simp [isNode, hg, Green.isNode] at hnode
    | node head slots => rw [visitsAt, Green.slots]
  | case2 v hnode =>
    cases hg : v.green with
    | token t => rw [visitsAt]
    | node head slots => simp [isNode, hg, Green.isNode] at hnode

end View

namespace Walk

/-- The walk that is asked next, after an answer that may call for skipping. -/
def resume (skips : Visit → Bool) : Option Visit × Walk → Walk
  | (some visit, w) => if skips visit then w.skipSubtree else w
  | (none, w) => w

/-- The answer to one of the calls that are made to a walk one after another, counted from zero. -/
def answer (call : Walk → Option Visit × Walk) (skips : Visit → Bool) : Walk → Nat → Option Visit
  | w, 0 => (call w).1
  | w, n + 1 => answer call skips (resume skips (call w)) n

/-- Skipping right after a node was entered that is closed. -/
def skipsAt (closed : View → Bool) : Visit → Bool
  | .enter v => v.isNode && closed v
  | .leave _ => false

theorem closes_skipsAt (closed : View → Bool) : Closes closed (skipsAt closed) :=
  ⟨fun _ => rfl, fun _ => rfl⟩

variable {skips : Visit → Bool} {w after : Walk} {visit : Visit}

theorem run_of_next_eq_none (h : w.next = none) : w.run skips = [] := by
  rw [run]
  split
  · rfl
  · next hsome =>
    rw [h] at hsome
    cases hsome

theorem run_of_next (h : w.next = some (visit, after)) :
    w.run skips = visit :: (resume skips (some visit, after)).run skips := by
  rw [run]
  split
  · next hnone =>
    rw [h] at hnone
    cases hnone
  · next hsome =>
    rw [h] at hsome
    cases hsome
    rfl

/-- If each call gives the first of some visits and leaves the others, then the calls give these
visits one by one, and after them nothing. -/
theorem answer_eq {call : Walk → Option Visit × Walk} {visits : Walk → List Visit}
    (hhead : ∀ w, (visits w).head? = (call w).1)
    (htail : ∀ w, (visits w).tail = visits (resume skips (call w))) (w : Walk) (n : Nat) :
    answer call skips w n = (visits w)[n]? := by
  induction n generalizing w with
  | zero => rw [answer, ← hhead, List.head?_eq_getElem?]
  | succ n ih => rw [answer, ih, ← htail, List.getElem?_tail]

theorem head?_run (skips : Visit → Bool) (w : Walk) : (w.run skips).head? = w.advance.1 := by
  cases h : w.next with
  | none => rw [run_of_next_eq_none h, advance, h, List.head?_nil]
  | some found => rw [run_of_next h, advance, h, List.head?_cons]

theorem tail_run (skips : Visit → Bool) (w : Walk) :
    (w.run skips).tail = (resume skips w.advance).run skips := by
  cases h : w.next with
  | none => rw [advance, h, resume, run_of_next_eq_none h, List.tail_nil]
  | some found => rw [run_of_next h, advance, h, List.tail_cons]

/-- The visits of nodes among those of a walk. -/
def nodeVisits (skips : Visit → Bool) (w : Walk) : List Visit :=
  (w.run skips).filter fun visit => visit.view.isNode

/-- Where nothing is skipped at tokens, a call that passes over them gives the first visit of a node
and leaves the others. -/
theorem nodeVisits_step (hskips : ∀ visit : Visit, visit.view.isNode = false → skips visit = false)
    (w : Walk) :
    (nodeVisits skips w).head? = w.advanceToNode.1 ∧
      (nodeVisits skips w).tail = nodeVisits skips (resume skips w.advanceToNode) := by
  fun_induction advanceToNode w with
  | case1 w h =>
    have hnil : nodeVisits skips w = [] := by
      rw [nodeVisits, run_of_next_eq_none h, List.filter_nil]
    rw [resume, hnil]
    exact ⟨rfl, rfl⟩
  | case2 w visit after h _ hnode =>
    have hcons : nodeVisits skips w =
        visit :: nodeVisits skips (resume skips (some visit, after)) := by
      rw [nodeVisits, run_of_next h, List.filter_cons, if_pos hnode, nodeVisits]
    rw [hcons]
    exact ⟨rfl, rfl⟩
  | case3 w visit after h _ hnode ih =>
    have hstay : resume skips (some visit, after) = after := by
      rw [resume, hskips visit (by simpa using hnode)]
      rfl
    have hpass : nodeVisits skips w = nodeVisits skips after := by
      rw [nodeVisits, run_of_next h, List.filter_cons, if_neg hnode, hstay, nodeVisits]
    rw [hpass]
    exact ih

/-- Take a view, and nodes that are to be closed. A walk over the view that skips right after each
closed node was entered answers its calls with the visits of the traversal one by one, and then with
nothing, forever. A walk over the nodes does so with those visits that are about nodes. -/
theorem answers_of_traversal (closed : View → Bool) (v : View) (n : Nat) :
    answer advance (skipsAt closed) (ofView v) n = (v.traversal closed)[n]? ∧
      answer advanceToNode (skipsAt closed) (ofView v) n =
        ((v.traversal closed).filter fun visit => visit.view.isNode)[n]? := by
  have hrun : (ofView v).run (skipsAt closed) = v.traversal closed := by
    rw [run_ofView (closes_skipsAt closed), View.traversal_eq]
  have htokens : ∀ visit : Visit, visit.view.isNode = false → skipsAt closed visit = false := by
    intro visit htoken
    cases visit with
    | enter u =>
      have hu : u.isNode = false := htoken
      rw [skipsAt, hu, Bool.false_and]
    | leave u => rfl
  rw [← hrun]
  constructor
  · exact answer_eq (head?_run _) (tail_run _) (ofView v) n
  · exact answer_eq (fun w => (nodeVisits_step htokens w).1)
      (fun w => (nodeVisits_step htokens w).2) (ofView v) n

end Walk

end Verbatim
