import Verbatim.View

/-!
# Children from both ends

The present children of a node can be taken from the front and from the back in any interleaving.
The front keeps a running offset that grows, the back one that shrinks.
-/

namespace Verbatim

/-- The children of a node that have not been taken yet. -/
structure Children where
  /-- The node whose children these are. -/
  parent : View
  /-- Index of the first slot not taken yet. -/
  front : Nat
  /-- Offset at which that slot starts. -/
  frontOffset : Nat
  /-- The slots not taken yet. -/
  slots : List Slot
  /-- Offset at which the last of them ends. -/
  backOffset : Nat

namespace Children

/-- All children of a node. -/
def ofView (v : View) : Children := ⟨v, 0, v.offset, v.green.slots, v.span.stop⟩

/-- How many children are left at most. -/
def bound (c : Children) : Nat := c.slots.length

/-- Takes the first child that is left. -/
def next (c : Children) : Option View × Children :=
  match h : c.slots with
  | [] => (none, c)
  | none :: rest =>
    have : rest.length < c.slots.length := by simp [h]
    next { c with front := c.front + 1, slots := rest }
  | some g :: rest =>
    (some (.child c.parent c.front c.frontOffset g),
      { c with front := c.front + 1, frontOffset := c.frontOffset + g.width, slots := rest })
termination_by c.slots.length

/-- Takes the last child that is left. -/
def nextBack (c : Children) : Option View × Children :=
  match h : c.slots.getLast? with
  | none => (none, c)
  | some none =>
    have : c.slots.dropLast.length < c.slots.length := by
      have hne : c.slots ≠ [] := by
        intro he
        simp [he] at h
      have := List.length_pos_iff.mpr hne
      rw [List.length_dropLast]
      omega
    nextBack { c with slots := c.slots.dropLast }
  | some (some g) =>
    let offset := c.backOffset - g.width
    (some (.child c.parent (c.front + (c.slots.length - 1)) offset g),
      { c with slots := c.slots.dropLast, backOffset := offset })
termination_by c.slots.length

/-- Leaves nothing to take. -/
def skip (c : Children) : Children := { c with front := c.front + c.slots.length, slots := [] }

/-- A child that was taken from the front accounts for exactly the elements that are gone. -/
theorem size_next {c after : Children} {child : View} (h : c.next = (some child, after)) :
    child.green.size + Green.sizeSlots after.slots = Green.sizeSlots c.slots := by
  fun_induction next c with
  | case1 c hs => simp at h
  | case2 c rest hs _ ih =>
    rw [hs, Green.sizeSlots]
    exact ih h
  | case3 c g rest hs =>
    simp only [Prod.mk.injEq, Option.some.injEq] at h
    obtain ⟨rfl, rfl⟩ := h
    rw [hs, Green.sizeSlots]
    rfl

end Children

namespace View

/-- The present children of an element, first to last. -/
def children (v : View) : List View := v.slots.filterMap fun slot => slot

/-- Places slots one before another, going back from `index` and `offset`. -/
def placeBack (parent : View) : Nat → Nat → List Slot → List View
  | _, _, [] => []
  | index, offset, none :: rest => placeBack parent (index - 1) offset rest
  | index, offset, some g :: rest =>
    .child parent (index - 1) (offset - g.width) g ::
      placeBack parent (index - 1) (offset - g.width) rest

/-- The present children of an element, last to first. -/
def childrenBack (v : View) : List View :=
  placeBack v v.slotCount v.span.stop v.green.slots.reverse

/-- A child is smaller than its parent. -/
theorem size_lt_of_mem_children {v c : View} (h : c ∈ v.children) :
    c.green.size < v.green.size := by
  simp only [children, List.mem_filterMap] at h
  obtain ⟨slot, hmem, rfl⟩ := h
  exact size_lt_of_mem_slots hmem

/-- Every element placed backwards comes from the slots. -/
theorem green_mem_of_mem_placeBack {parent c : View} {index offset : Nat} {slots : List Slot}
    (h : c ∈ placeBack parent index offset slots) : some c.green ∈ slots := by
  induction slots generalizing index offset with
  | nil => cases h
  | cons s rest ih =>
    cases s with
    | none => exact List.mem_cons_of_mem _ (ih (by simpa only [placeBack] using h))
    | some g =>
      simp only [placeBack, List.mem_cons] at h
      rcases h with rfl | h
      · exact List.mem_cons_self
      · exact List.mem_cons_of_mem _ (ih h)

/-- A child found from the back is smaller than its parent. -/
theorem size_lt_of_mem_childrenBack {v c : View} (h : c ∈ v.childrenBack) :
    c.green.size < v.green.size :=
  Green.size_lt_of_mem_slots (List.mem_reverse.mp (green_mem_of_mem_placeBack h))

end View

end Verbatim
